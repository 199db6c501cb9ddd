import HackToolchain.Assembly.Program

/-!
# The meaning of an assembly source

What a source says, with no symbol table and no order of passes:

* `Reading`: what one line says on its own;
* `labelAddress`: the number of words in front of the first line that binds a label;
* `variableAddress`: the base of the variables plus the number of other variables that are
  used earlier;
* `symbolOf`: what any name stands for, predefined before label before variable;
* `symbolEntries`: the whole symbol table in order.

`newNames` lists names at their first place. Its lemmas and those of `labelAddress` say what
one more line changes, which is all that the passes need.
-/

namespace HackToolchain

namespace Assembly

/-- A statement, nothing, or an error. -/
abbrev Reading := Except Error (Option Statement)

namespace Reading

def label? : Reading → Option String
  | .ok (some (.label name)) => some name
  | _ => none

def instruction? : Reading → Option Instruction
  | .ok (some (.instruction i)) => some i
  | _ => none

def error? : Reading → Option Error
  | .error e => some e
  | .ok _ => none

/-- Neither blank nor a label. What cannot be read counts as one word. -/
def takesWord : Reading → Bool
  | .ok none | .ok (some (.label _)) => false
  | _ => true

end Reading

/-- The name that an operand has to look up. -/
def Instruction.symbol? : Instruction → Option String
  | .address (.symbol name) => some name
  | _ => none

/-- The instruction with its name replaced by an address. -/
def Instruction.resolved (σ : String → Nat) : Instruction → Instruction
  | .address (.symbol name) => .address (.literal (BitVec.ofNat 64 (σ name)))
  | i => i

theorem Instruction.shape_resolved (σ : String → Nat) (i : Instruction) :
    (i.resolved σ).shape = i.shape := by
  cases i with
  | address operand => cases operand <;> rfl
  | compute => rfl

theorem Instruction.resolved_of_symbol?_eq_none {σ : String → Nat} {i : Instruction}
    (h : i.symbol? = none) : i.resolved σ = i := by
  cases i with
  | address operand =>
    cases operand with
    | literal => rfl
    | symbol => simp [symbol?] at h
  | compute => rfl

theorem Instruction.eq_of_symbol? {i : Instruction} {name : String} (h : i.symbol? = some name) :
    i = .address (.symbol name) := by
  cases i with
  | compute => cases h
  | address operand => cases operand <;> cases h; rfl

/-! ## Names at their first place -/

/-- The names of a list that are not known, each once and in the order of first use. -/
def newNames (known names : List String) : List String :=
  (names.filter fun name => name ∉ known).eraseDups

@[simp] theorem newNames_nil (known : List String) : newNames known [] = [] := rfl

theorem mem_newNames {known names : List String} {name : String} :
    name ∈ newNames known names ↔ name ∈ names ∧ name ∉ known := by
  simp [newNames, List.mem_eraseDups]

theorem newNames_concat (known names : List String) (name : String) :
    newNames known (names ++ [name]) =
      if name ∈ known ∨ name ∈ names then newNames known names
      else newNames known names ++ [name] := by
  rw [newNames, List.filter_append]
  by_cases hk : name ∈ known
  · simp [hk, newNames]
  · have kept : [name].filter (fun name => name ∉ known) = [name] := by simp [hk]
    rw [kept, List.eraseDups_append]
    by_cases hn : name ∈ names
    · simp [hk, hn, newNames, List.removeAll]
    · simp [hk, hn, newNames, List.removeAll, List.eraseDups_cons]

theorem length_newNames_append (known front back : List String) :
    (newNames known front).length ≤ (newNames known (front ++ back)).length := by
  induction back generalizing front with
  | nil => simp
  | cons name rest ih =>
    have one : (newNames known front).length ≤ (newNames known (front ++ [name])).length := by
      rw [newNames_concat]
      split
      · exact Nat.le_refl _
      · simp
    have more := ih (front ++ [name])
    rw [List.append_assoc] at more
    exact Nat.le_trans one more

theorem newNames_congr {known known' : List String} (h : ∀ name, name ∈ known ↔ name ∈ known')
    (names : List String) : newNames known names = newNames known' names := by
  simp only [newNames, h]

/-! ## What stands in front of the first match -/

section

variable {α : Type} {p : α → Bool}

theorem takeWhile_concat_of_stop {l : List α} (stop : ∃ x ∈ l, p x = false) (x : α) :
    (l ++ [x]).takeWhile p = l.takeWhile p := by
  induction l with
  | nil => simp at stop
  | cons y r ih =>
    rw [List.cons_append]
    cases hy : p y with
    | false => simp [hy]
    | true =>
      obtain ⟨z, hz, hp⟩ := stop
      have later : ∃ z ∈ r, p z = false := by
        rcases List.mem_cons.1 hz with rfl | hz
        · rw [hy] at hp; cases hp
        · exact ⟨z, hz, hp⟩
      simp [hy, ih later]

theorem takeWhile_append_cons_of_stop {l r : List α} {x : α} (pass : ∀ y ∈ l, p y = true)
    (stop : p x = false) : (l ++ x :: r).takeWhile p = l := by
  rw [List.takeWhile_append_of_pos pass, List.takeWhile_cons, stop]
  simp

theorem filterMap_concat {β : Type} (f : α → Option β) (l : List α) (x : α) :
    (l ++ [x]).filterMap f = l.filterMap f ++ (f x).toList := by
  rw [List.filterMap_append]
  cases h : f x <;> simp [h]

end

/-! ## Sources -/

/-- The number of words that lines take. -/
def wordCount (source : List Reading) : Nat := source.countP Reading.takesWord

def instructions (source : List Reading) : List Instruction :=
  source.filterMap Reading.instruction?

def labelNames (source : List Reading) : List String := source.filterMap Reading.label?

def symbolsUsed (is : List Instruction) : List String := is.filterMap Instruction.symbol?

/-- The number of words in front of the first line that binds the name. -/
def labelAddress (source : List Reading) (name : String) : Nat :=
  wordCount (source.takeWhile fun r => r.label? ≠ some name)

/-- With `known` names bound already, the names that operands use in front of a name are the
variables that get an address before it. -/
def variableAddress (base : Nat) (known used : List String) (name : String) : Nat :=
  base + (newNames known (used.takeWhile (· ≠ name))).length

theorem mem_labelNames {source : List Reading} {name : String} :
    name ∈ labelNames source ↔ ∃ r ∈ source, r.label? = some name := by
  simp [labelNames]

theorem labelAddress_concat_of_mem {source : List Reading} {name : String}
    (h : name ∈ labelNames source) (r : Reading) :
    labelAddress (source ++ [r]) name = labelAddress source name := by
  obtain ⟨x, hx, hl⟩ := mem_labelNames.1 h
  rw [labelAddress, takeWhile_concat_of_stop ⟨x, hx, by simp [hl]⟩, labelAddress]

theorem labelAddress_append_cons {before after : List Reading} {r : Reading} {name : String}
    (fresh : name ∉ labelNames before) (h : r.label? = some name) :
    labelAddress (before ++ r :: after) name = wordCount before := by
  rw [labelAddress, takeWhile_append_cons_of_stop _ (by simp [h])]
  intro x hx
  simpa using fun hl => fresh (mem_labelNames.2 ⟨x, hx, hl⟩)

theorem variableAddress_concat_of_mem {base : Nat} {known used : List String} {name : String}
    (h : name ∈ used) (other : String) :
    variableAddress base known (used ++ [other]) name = variableAddress base known used name := by
  rw [variableAddress, takeWhile_concat_of_stop ⟨name, h, by simp⟩, variableAddress]

theorem variableAddress_concat_self {base : Nat} {known used : List String} {name : String}
    (fresh : name ∉ used) :
    variableAddress base known (used ++ [name]) name = base + (newNames known used).length := by
  rw [variableAddress, takeWhile_append_cons_of_stop _ (by simp)]
  intro x hx
  simpa using fun h : x = name => fresh (h ▸ hx)

/-- A variable comes before those that are used after it. -/
theorem variableAddress_lt {base : Nat} {known front back : List String} {name other : String}
    (free : name ∉ known) (first : name ∉ front) (later : other ∉ front) (apart : other ≠ name) :
    variableAddress base known (front ++ name :: back) name <
      variableAddress base known (front ++ name :: back) other := by
  have stop : (front ++ name :: back).takeWhile (· ≠ name) = front := by
    apply takeWhile_append_cons_of_stop _ (by simp)
    intro x hx
    simpa using fun same : x = name => first (same ▸ hx)
  have pass : (front ++ name :: back).takeWhile (· ≠ other) =
      (front ++ [name]) ++ back.takeWhile (· ≠ other) := by
    rw [List.takeWhile_append_of_pos, List.takeWhile_cons_of_pos, List.append_assoc,
      List.singleton_append]
    · simpa using Ne.symm apart
    · intro x hx
      simpa using fun same : x = other => later (same ▸ hx)
  have longer := length_newNames_append known (front ++ [name]) (back.takeWhile (· ≠ other))
  rw [newNames_concat, if_neg (not_or.2 ⟨free, first⟩), List.length_append,
    List.length_singleton] at longer
  rw [variableAddress, variableAddress, stop, pass]
  omega

/-- Different variables have different addresses. -/
theorem variableAddress_ne {base : Nat} {known used : List String} {a b : String}
    (first : a ∉ known) (second : b ∉ known) (ha : a ∈ used) (apart : a ≠ b) :
    variableAddress base known used a ≠ variableAddress base known used b := by
  obtain ⟨front, back, rfl, fresh⟩ := List.eq_append_cons_of_mem ha
  by_cases hb : b ∈ front
  · obtain ⟨start, rest, rfl, new⟩ := List.eq_append_cons_of_mem hb
    have late : a ∉ start := fun h => fresh (List.mem_append_left _ h)
    have less : variableAddress base known (start ++ b :: (rest ++ a :: back)) b <
        variableAddress base known (start ++ b :: (rest ++ a :: back)) a :=
      variableAddress_lt second new late apart
    rw [List.append_assoc, List.cons_append]
    exact Nat.ne_of_gt less
  · exact Nat.ne_of_lt (variableAddress_lt first fresh hb (Ne.symm apart))

theorem variableAddress_congr {known known' : List String}
    (h : ∀ name, name ∈ known ↔ name ∈ known') (base : Nat) (used : List String) :
    variableAddress base known used = variableAddress base known' used := by
  funext name
  simp only [variableAddress, newNames_congr h]

/-! ## Symbols -/

/-- The names that no variable can take. -/
def boundNames (d : Descriptor) (source : List Reading) : List String :=
  d.symbols.keys ++ labelNames source

/-- What a name stands for in a source: a predefined name keeps its address, a label comes
before a variable, and a name that is not used stands for nothing. -/
def symbolOf (d : Descriptor) (source : List Reading) (name : String) : Option Symbol :=
  match d.symbols.get? name with
  | some address => some ⟨.predefined, address⟩
  | none =>
    if name ∈ labelNames source then some ⟨.label, labelAddress source name⟩
    else if name ∈ symbolsUsed (instructions source) then
      some ⟨.var, variableAddress d.varBase (boundNames d source)
        (symbolsUsed (instructions source)) name⟩
    else none

def addressOf (d : Descriptor) (source : List Reading) (name : String) : Nat :=
  ((symbolOf d source name).map (·.address)).getD 0

def predefinedEntries (d : Descriptor) : List (String × Symbol) :=
  d.symbols.entries.map fun (name, address) => (name, ⟨.predefined, address⟩)

def labelEntries (known : List String) (source : List Reading) : List (String × Symbol) :=
  (newNames known (labelNames source)).map fun name => (name, ⟨.label, labelAddress source name⟩)

def variableEntries (base : Nat) (known used : List String) : List (String × Symbol) :=
  (newNames known used).map fun name => (name, ⟨.var, variableAddress base known used name⟩)

/-- Predefined names, then labels as they are first bound, then variables as they are first
used. -/
def symbolEntries (d : Descriptor) (source : List Reading) : List (String × Symbol) :=
  predefinedEntries d ++ labelEntries d.symbols.keys source ++
    variableEntries d.varBase (boundNames d source) (symbolsUsed (instructions source))

theorem mem_predefinedEntries {d : Descriptor} {name : String} {symbol : Symbol} :
    (name, symbol) ∈ predefinedEntries d ↔
      (d.symbols.get? name).map (fun address => ⟨.predefined, address⟩) = some symbol := by
  simp only [predefinedEntries, List.mem_map, Option.map_eq_some_iff, Table.get?_eq_some_iff]
  constructor
  · rintro ⟨⟨_, address⟩, entry, h⟩
    cases h
    exact ⟨address, entry, rfl⟩
  · rintro ⟨address, entry, rfl⟩
    exact ⟨(name, address), entry, rfl⟩

theorem mem_tagged {names : List String} {symbol : String → Symbol} {name : String} {s : Symbol} :
    (name, s) ∈ names.map (fun n => (n, symbol n)) ↔ name ∈ names ∧ symbol name = s := by
  rw [List.mem_map]
  constructor
  · rintro ⟨n, hn, h⟩
    cases h
    exact ⟨hn, rfl⟩
  · rintro ⟨hn, rfl⟩
    exact ⟨name, hn, rfl⟩

/-- The entries are what the names stand for. -/
theorem mem_symbolEntries {d : Descriptor} {source : List Reading} {name : String}
    {symbol : Symbol} :
    (name, symbol) ∈ symbolEntries d source ↔ symbolOf d source name = some symbol := by
  simp only [symbolEntries, labelEntries, variableEntries, List.mem_append, mem_tagged,
    mem_predefinedEntries, mem_newNames, boundNames, symbolOf]
  cases h : d.symbols.get? name with
  | some address =>
    have known : name ∈ d.symbols.keys := Table.mem_keys_iff.2 ⟨address, h⟩
    simp [known]
  | none =>
    have unknown : name ∉ d.symbols.keys := Table.get?_eq_none_iff.1 h
    by_cases hl : name ∈ labelNames source
    · simp [unknown, hl]
    · by_cases hu : name ∈ symbolsUsed (instructions source)
      · simp [unknown, hl, hu]
      · simp [hl, hu]

/-- A new label line adds its name behind the others, and a known one adds nothing. -/
theorem labelEntries_concat (known : List String) (source : List Reading) (r : Reading) :
    labelEntries known (source ++ [r]) =
      match r.label? with
      | none => labelEntries known source
      | some name =>
        if name ∈ known ∨ name ∈ labelNames source then labelEntries known source
        else labelEntries known source ++ [(name, ⟨.label, wordCount source⟩)] := by
  have old : ∀ name ∈ newNames known (labelNames source),
      ((name, ⟨.label, labelAddress (source ++ [r]) name⟩) : String × Symbol) =
        (name, ⟨.label, labelAddress source name⟩) := by
    intro name hname
    rw [labelAddress_concat_of_mem (mem_newNames.1 hname).1]
  cases hr : r.label? with
  | none =>
    have same : labelNames (source ++ [r]) = labelNames source := by
      simp [labelNames, hr]
    rw [labelEntries, same]
    exact List.map_congr_left old
  | some name =>
    have more : labelNames (source ++ [r]) = labelNames source ++ [name] := by
      simp [labelNames, hr]
    rw [labelEntries, more, newNames_concat]
    by_cases h : name ∈ known ∨ name ∈ labelNames source
    · simp only [if_pos h]
      exact List.map_congr_left old
    · simp only [if_neg h, List.map_append, List.map_cons, List.map_nil]
      rw [List.map_congr_left old, labelAddress_append_cons (not_or.1 h).2 hr]
      rfl

/-- One more use adds its name behind the others if it is new. -/
theorem variableEntries_concat (base : Nat) (known used : List String) (name : String) :
    variableEntries base known (used ++ [name]) =
      if name ∈ known ∨ name ∈ used then variableEntries base known used
      else variableEntries base known used ++
        [(name, ⟨.var, base + (newNames known used).length⟩)] := by
  have old : ∀ other ∈ newNames known used,
      ((other, ⟨.var, variableAddress base known (used ++ [name]) other⟩) : String × Symbol) =
        (other, ⟨.var, variableAddress base known used other⟩) := by
    intro other hother
    rw [variableAddress_concat_of_mem (mem_newNames.1 hother).1]
  rw [variableEntries, newNames_concat]
  by_cases h : name ∈ known ∨ name ∈ used
  · simp only [if_pos h]
    exact List.map_congr_left old
  · simp only [if_neg h, List.map_append, List.map_cons, List.map_nil]
    rw [List.map_congr_left old, variableAddress_concat_self (not_or.1 h).2]
    rfl

end Assembly

/-- What a line of assembly says. -/
def Assembly.Reading.ofText (raw : String) : Assembly.Reading :=
  Assembly.Statement.parse (Text.trim (SourceLine.splitComment raw.toList).1)

def SourceLine.reading (l : SourceLine) : Assembly.Reading :=
  .ofText l.raw

theorem SourceLine.raw_ofRaws (file : String) (raws : List String) :
    (SourceLine.ofRaws file raws).map SourceLine.raw = raws := by
  rw [SourceLine.ofRaws, List.map_map]
  exact List.zipIdx_map_fst 0 raws

end HackToolchain
