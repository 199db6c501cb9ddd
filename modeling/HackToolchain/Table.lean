/-!
# Tables

A table keeps its keys in the order in which they were first inserted, each once. A
two-way table pairs names with codes so that either side determines the other.
-/

namespace HackToolchain

structure Table (κ υ : Type) where
  entries : List (κ × υ)
  keys_nodup : (entries.map Prod.fst).Nodup
  deriving DecidableEq

namespace Table

variable {κ υ : Type}

def empty : Table κ υ := ⟨[], List.nodup_nil⟩

instance : Inhabited (Table κ υ) := ⟨empty⟩

def keys (t : Table κ υ) : List κ := t.entries.map Prod.fst

variable [DecidableEq κ]

def get? (t : Table κ υ) (k : κ) : Option υ := t.entries.lookup k

/-- The value under a key that keeps its place. -/
def replace (t : Table κ υ) (k : κ) (v : υ) : Table κ υ where
  entries := t.entries.map fun p => (p.1, if p.1 = k then v else p.2)
  keys_nodup := by
    rw [List.map_map]
    exact t.keys_nodup

/-- A new key in the last place. -/
def push (t : Table κ υ) (k : κ) (v : υ) (fresh : k ∉ t.keys) : Table κ υ where
  entries := t.entries ++ [(k, v)]
  keys_nodup := by
    rw [List.map_append, List.nodup_append]
    refine ⟨t.keys_nodup, by simp, ?_⟩
    intro a ha b hb hab
    simp only [List.map_cons, List.map_nil, List.mem_singleton] at hb
    exact fresh (hb ▸ hab ▸ ha)

/-- A key that is there keeps its place and takes the value; another one goes last. -/
def insert (t : Table κ υ) (k : κ) (v : υ) : Table κ υ :=
  if fresh : k ∉ t.keys then t.push k v fresh else t.replace k v

def ofList (entries : List (κ × υ)) : Table κ υ :=
  entries.foldl (fun t p => t.insert p.1 p.2) empty

def mapValues {ω : Type} (f : υ → ω) (t : Table κ υ) : Table κ ω where
  entries := t.entries.map fun p => (p.1, f p.2)
  keys_nodup := by
    rw [List.map_map]
    exact t.keys_nodup

theorem lookup_eq_none {l : List (κ × υ)} {k : κ} :
    l.lookup k = none ↔ k ∉ l.map Prod.fst := by
  induction l with
  | nil => simp
  | cons p r ih =>
    obtain ⟨key, value⟩ := p
    by_cases h : k = key
    · simp [h]
    · rw [List.lookup_cons, beq_false_of_ne h, List.map_cons, List.mem_cons, ih]
      simp [h]

theorem lookup_eq_some {l : List (κ × υ)} (unique : (l.map Prod.fst).Nodup) {k : κ} {v : υ} :
    l.lookup k = some v ↔ (k, v) ∈ l := by
  induction l with
  | nil => simp
  | cons p r ih =>
    obtain ⟨key, value⟩ := p
    obtain ⟨fresh, unique⟩ := List.nodup_cons.1 unique
    by_cases h : k = key
    · subst h
      have absent : (k, v) ∉ r := fun hv => fresh (List.mem_map.2 ⟨_, hv, rfl⟩)
      simp [absent, eq_comm]
    · rw [List.lookup_cons, beq_false_of_ne h, List.mem_cons, ← ih unique]
      simp [h]

/-- Values that are changed in place are found under the same keys. -/
theorem lookup_map {ω : Type} (f : κ → υ → ω) (l : List (κ × υ)) (k : κ) :
    (l.map fun p => (p.1, f p.1 p.2)).lookup k = (l.lookup k).map (f k) := by
  induction l with
  | nil => rfl
  | cons p r ih =>
    obtain ⟨key, value⟩ := p
    by_cases h : k = key
    · simp [h]
    · rw [List.map_cons, List.lookup_cons, List.lookup_cons, beq_false_of_ne h]
      exact ih

theorem get?_eq_none_iff {t : Table κ υ} {k : κ} : t.get? k = none ↔ k ∉ t.keys :=
  lookup_eq_none

/-- Under a key stands the value of its only pair. -/
theorem get?_eq_some_iff {t : Table κ υ} {k : κ} {v : υ} :
    t.get? k = some v ↔ (k, v) ∈ t.entries :=
  lookup_eq_some t.keys_nodup

theorem mem_keys_iff {t : Table κ υ} {k : κ} : k ∈ t.keys ↔ ∃ v, t.get? k = some v := by
  cases h : t.get? k with
  | none => simpa using get?_eq_none_iff.1 h
  | some v =>
    have there : k ∈ t.keys := List.mem_map.2 ⟨(k, v), get?_eq_some_iff.1 h, rfl⟩
    simpa using there

theorem insert_eq_push {t : Table κ υ} {k : κ} {v : υ} (fresh : k ∉ t.keys) :
    t.insert k v = t.push k v fresh := by
  rw [insert, dif_pos fresh]

theorem insert_eq_replace {t : Table κ υ} {k : κ} {v : υ} (h : k ∈ t.keys) :
    t.insert k v = t.replace k v := by
  rw [insert, dif_neg (not_not_intro h)]

theorem keys_insert (t : Table κ υ) (k : κ) (v : υ) :
    (t.insert k v).keys = if k ∈ t.keys then t.keys else t.keys ++ [k] := by
  by_cases h : k ∈ t.keys
  · rw [insert_eq_replace h, if_pos h, keys, replace, List.map_map]
    rfl
  · rw [insert_eq_push h, if_neg h, keys, push, List.map_append]
    rfl

theorem get?_insert (t : Table κ υ) (k : κ) (v : υ) (k' : κ) :
    (t.insert k v).get? k' = if k' = k then some v else t.get? k' := by
  by_cases h : k ∈ t.keys
  · rw [insert_eq_replace h, get?, replace, lookup_map fun key value => if key = k then v else value]
    by_cases hk : k' = k
    · subst hk
      cases hv : t.entries.lookup k' with
      | none => exact absurd h (lookup_eq_none.1 hv)
      | some w => simp
    · simp [hk, get?]
  · rw [insert_eq_push h, get?, push, List.lookup_append]
    by_cases hk : k' = k
    · subst hk
      simp [lookup_eq_none.2 h]
    · simp [hk, get?, List.lookup_cons, beq_false_of_ne hk]

theorem get?_mapValues {ω : Type} (f : υ → ω) (t : Table κ υ) (k : κ) :
    (t.mapValues f).get? k = (t.get? k).map f :=
  lookup_map (fun _ => f) t.entries k

end Table

/-- Names and codes in pairs; no name and no code occurs twice. -/
structure TwoWay (κ υ : Type) where
  entries : List (κ × υ)
  names_nodup : (entries.map Prod.fst).Nodup
  codes_nodup : (entries.map Prod.snd).Nodup
  deriving DecidableEq

namespace TwoWay

variable {κ υ : Type}

def empty : TwoWay κ υ := ⟨[], List.nodup_nil, List.nodup_nil⟩

instance : Inhabited (TwoWay κ υ) := ⟨empty⟩

variable [DecidableEq κ] [DecidableEq υ]

def code? (t : TwoWay κ υ) (name : κ) : Option υ := t.entries.lookup name

def name? (t : TwoWay κ υ) (code : υ) : Option κ :=
  (t.entries.find? fun p => p.2 = code).map Prod.fst

/-- The pair takes the place of every pair that shares its name or its code. -/
def insert (t : TwoWay κ υ) (name : κ) (code : υ) : TwoWay κ υ where
  entries := t.entries.filter (fun p => p.1 ≠ name && p.2 ≠ code) ++ [(name, code)]
  names_nodup := by
    rw [List.map_append, List.nodup_append]
    refine ⟨t.names_nodup.sublist (List.filter_sublist.map _), by simp, ?_⟩
    simp only [List.map_cons, List.map_nil, List.mem_singleton, List.mem_map, List.mem_filter]
    rintro a ⟨p, ⟨_, hp⟩, rfl⟩ b rfl
    simp_all
  codes_nodup := by
    rw [List.map_append, List.nodup_append]
    refine ⟨t.codes_nodup.sublist (List.filter_sublist.map _), by simp, ?_⟩
    simp only [List.map_cons, List.map_nil, List.mem_singleton, List.mem_map, List.mem_filter]
    rintro a ⟨p, ⟨_, hp⟩, rfl⟩ b rfl
    simp_all

def ofList (entries : List (κ × υ)) : TwoWay κ υ :=
  entries.foldl (fun t p => t.insert p.1 p.2) empty

omit [DecidableEq υ] in
theorem code?_eq_some_iff {t : TwoWay κ υ} {name : κ} {code : υ} :
    t.code? name = some code ↔ (name, code) ∈ t.entries :=
  Table.lookup_eq_some t.names_nodup

omit [DecidableEq κ] in
theorem name?_eq_some_iff {t : TwoWay κ υ} {name : κ} {code : υ} :
    t.name? code = some name ↔ (name, code) ∈ t.entries := by
  obtain ⟨entries, names, codes⟩ := t
  unfold name?
  induction entries with
  | nil => simp
  | cons p r ih =>
    obtain ⟨n, c⟩ := p
    obtain ⟨fresh, unique⟩ := List.nodup_cons.1 codes
    by_cases h : c = code
    · subst h
      have absent : (name, c) ∉ r := fun hv => fresh (List.mem_map.2 ⟨_, hv, rfl⟩)
      simp [absent, eq_comm]
    · simpa [h, Ne.symm h] using ih (List.nodup_cons.1 names).2 unique

end TwoWay

end HackToolchain
