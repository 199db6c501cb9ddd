import HackToolchain.Descriptor.Document
import HackToolchain.Proofs.Bits

/-!
# Descriptors that are accepted

A descriptor that is read from a document is valid, and its opcodes and codes are patterns of
at most 64 bits that hold nothing beyond their width: `accepted_of_ofNode`. That is all that what
follows needs of it, however the document was written.
-/

namespace HackToolchain

/-! ## Tables that are read -/

theorem of_mem_mapM {α β : Type} {f : α → Option β} {l : List α} {out : List β}
    (h : l.mapM f = some out) : ∀ b ∈ out, ∃ a ∈ l, f a = some b := by
  induction l generalizing out with
  | nil =>
    obtain rfl := Option.some.inj h
    simp
  | cons a rest ih =>
    rw [List.mapM_cons] at h
    obtain ⟨b, hb, h⟩ := Option.bind_eq_some_iff.1 h
    obtain ⟨bs, hbs, h⟩ := Option.bind_eq_some_iff.1 h
    obtain rfl := Option.some.inj h
    intro x hx
    rcases List.mem_cons.1 hx with rfl | hx
    · exact ⟨a, List.mem_cons_self, hb⟩
    · obtain ⟨y, hy, read⟩ := ih hbs x hx
      exact ⟨y, List.mem_cons_of_mem _ hy, read⟩

theorem Yaml.Node.of_mem_pairsOf? {κ υ : Type} {readKey : Node → Option κ}
    {readValue : Node → Option υ} {n : Node} {pairs : List (κ × υ)}
    (h : n.pairsOf? readKey readValue = some pairs) : ∀ p ∈ pairs, ∃ v, readValue v = some p.2 := by
  obtain ⟨entries, -, mapped⟩ := Option.bind_eq_some_iff.1 h
  intro p hp
  obtain ⟨⟨k, v⟩, -, read⟩ := of_mem_mapM mapped p hp
  obtain ⟨key, -, read⟩ := Option.bind_eq_some_iff.1 read
  obtain ⟨value, hv, rfl⟩ := Option.map_eq_some_iff.1 read
  exact ⟨v, hv⟩

/-- What is added one by one comes from the list or was there before. -/
theorem mem_of_mem_foldl {α τ : Type} {step : τ → α → τ} (entries : τ → List α)
    (added : ∀ t q p, p ∈ entries (step t q) → p ∈ entries t ∨ p = q) {l : List α} {t : τ} {p : α}
    (h : p ∈ entries (l.foldl step t)) : p ∈ entries t ∨ p ∈ l := by
  induction l generalizing t with
  | nil => exact .inl h
  | cons q rest ih =>
    rcases ih h with h | h
    · rcases added t q p h with h | rfl
      · exact .inl h
      · exact .inr List.mem_cons_self
    · exact .inr (List.mem_cons_of_mem _ h)

section

variable {κ υ : Type} [DecidableEq κ]

theorem Table.mem_of_mem_insert {t : Table κ υ} {k : κ} {v : υ} {p : κ × υ}
    (h : p ∈ (t.insert k v).entries) : p ∈ t.entries ∨ p = (k, v) := by
  by_cases there : k ∈ t.keys
  · rw [insert_eq_replace there] at h
    obtain ⟨q, hq, rfl⟩ := List.mem_map.1 h
    by_cases same : q.1 = k
    · exact .inr (by rw [if_pos same, same])
    · exact .inl (by rwa [if_neg same])
  · rw [insert_eq_push there] at h
    simpa [push] using h

theorem Table.mem_of_mem_ofList {l : List (κ × υ)} {p : κ × υ}
    (h : p ∈ (ofList l).entries) : p ∈ l := by
  rcases mem_of_mem_foldl Table.entries (fun _ _ _ => mem_of_mem_insert) h with h | h
  · cases h
  · exact h

theorem TwoWay.mem_of_mem_ofList [DecidableEq υ] {l : List (κ × υ)} {p : κ × υ}
    (h : p ∈ (ofList l).entries) : p ∈ l := by
  have insert : ∀ (t : TwoWay κ υ) (q p : κ × υ), p ∈ (t.insert q.1 q.2).entries →
      p ∈ t.entries ∨ p = q := by
    intro t q p h
    rcases List.mem_append.1 h with h | h
    · exact .inl (List.mem_filter.1 h).1
    · exact .inr (List.mem_singleton.1 h)
  rcases mem_of_mem_foldl TwoWay.entries insert h with h | h
  · cases h
  · exact h

end

/-! ## Descriptors -/

namespace Descriptor

/-- What reading a descriptor makes sure of. -/
structure Accepted (d : Descriptor) : Prop where
  valid : d.validate = .ok ()
  opcodes : ∀ e ∈ d.opcodes.entries, e.2.Fits
  comp : ∀ e ∈ d.comp.entries, e.2.Fits
  dest : ∀ e ∈ d.dest.entries, e.2.Fits
  jump : ∀ e ∈ d.jump.entries, e.2.Fits

theorem fits_of_ofNode? {n : Yaml.Node} {b : Bits} (h : Bits.ofNode? n = some b) : b.Fits := by
  obtain ⟨s, -, read⟩ := Option.bind_eq_some_iff.1 h
  cases hs : Bits.parse s with
  | error e => simp [hs, Except.toOption] at read
  | ok b' =>
    rw [hs] at read
    obtain rfl := Option.some.inj read
    exact Bits.fits_of_parse hs

theorem fits_of_codesOfNode? {n : Yaml.Node} {codes : TwoWay String Bits}
    (h : codesOfNode? n = some codes) : ∀ e ∈ codes.entries, e.2.Fits := by
  obtain ⟨pairs, read, rfl⟩ := Option.map_eq_some_iff.1 h
  intro e he
  obtain ⟨v, hv⟩ := Yaml.Node.of_mem_pairsOf? read e (TwoWay.mem_of_mem_ofList he)
  exact fits_of_ofNode? hv

/-- A member was there and could be read. -/
theorem member_read {α β γ : Type} {found : Option α} {read : α → Option β}
    {next : β → Option γ} {r : γ}
    (h : (found.bind fun node => (read node).bind next) = some r) :
    ∃ node value, found = some node ∧ read node = some value ∧ next value = some r := by
  obtain ⟨node, there, h⟩ := Option.bind_eq_some_iff.1 h
  obtain ⟨value, done, h⟩ := Option.bind_eq_some_iff.1 h
  exact ⟨node, value, there, done, h⟩

/-- **A descriptor that is accepted is valid, and its patterns fit**, whatever the document is. -/
theorem accepted_of_ofNode {source : String} {n : Yaml.Node} {d : Descriptor}
    (h : ofNode source n = .ok d) : d.Accepted := by
  unfold ofNode at h
  split at h
  · cases h
  rename_i d' read
  have valid : d'.validate = .ok () ∧ d' = d := by
    cases hv : d'.validate with
    | error e => simp [hv, Except.map] at h
    | ok => exact ⟨rfl, by simpa [hv, Except.map] using h⟩
  obtain ⟨valid, rfl⟩ := valid
  unfold read? at read
  obtain ⟨members, -, read⟩ := Option.bind_eq_some_iff.1 read
  obtain ⟨_, name, -, -, read⟩ := member_read read
  obtain ⟨_, wordSize, -, -, read⟩ := member_read read
  obtain ⟨_, opcodes, -, opcodesRead, read⟩ := member_read read
  obtain ⟨_, layouts, -, -, read⟩ := member_read read
  obtain ⟨_, comp, -, compRead, read⟩ := member_read read
  obtain ⟨_, dest, -, destRead, read⟩ := member_read read
  obtain ⟨_, jump, -, jumpRead, read⟩ := member_read read
  obtain ⟨_, symbols, -, -, read⟩ := member_read read
  obtain ⟨_, varBase, -, -, made⟩ := member_read read
  obtain rfl := Option.some.inj made
  refine ⟨valid, ?_, fits_of_codesOfNode? compRead, fits_of_codesOfNode? destRead,
    fits_of_codesOfNode? jumpRead⟩
  intro e he
  obtain ⟨v, hv⟩ := Yaml.Node.of_mem_pairsOf? opcodesRead e (Table.mem_of_mem_ofList he)
  exact fits_of_ofNode? hv

theorem accepted_of_ofText {source text : String} {d : Descriptor}
    (h : ofText source text = .ok d) : d.Accepted := by
  unfold ofText at h
  split at h
  · cases h
  · exact accepted_of_ofNode h

/-! ## Valid descriptors -/

section

variable {d : Descriptor}

/-- The opcode and the layout of a shape, which fit together and fill a word. -/
structure Shaped (d : Descriptor) (s : Shape) (opcode : Bits) (layout : Layout) : Prop where
  opcode_eq : d.opcode? s = some opcode
  layout_eq : d.layout? s = some layout
  countable : layout.countable = true
  width : layout.width = d.wordSize
  opcodeWidth : layout.fieldWidth? .opcode = some opcode.width

theorem checkShape_eq_ok {s : Shape} :
    d.checkShape s = .ok () ↔ ∃ opcode layout, d.Shaped s opcode layout := by
  unfold checkShape
  constructor
  · intro h
    split at h
    · cases h
    · cases h
    · rename_i opcode layout ho hl
      split at h
      · cases h
      rename_i countable
      split at h
      · cases h
      rename_i width
      split at h
      · cases h
      rename_i opcodeWidth
      exact ⟨opcode, layout, ho, hl, by simpa using countable, by simpa using width,
        by simpa using opcodeWidth⟩
  · rintro ⟨opcode, layout, ho, hl, countable, width, opcodeWidth⟩
    simp [ho, hl, countable, width, opcodeWidth]

theorem checkCodes_eq_ok {f : Field} {codes : TwoWay String Bits} :
    d.checkCodes f codes = .ok () ↔
      ∀ e ∈ codes.entries,
        e.2.width = ((d.layout? .compute).bind (·.fieldWidth? f)).getD 0 := by
  unfold checkCodes
  dsimp only
  constructor
  · intro h e he
    split at h
    · cases h
    · rename_i none
      simpa using List.find?_eq_none.1 none e he
  · intro all
    split
    · rename_i name code found
      have wrong := List.find?_some found
      exact absurd (all _ (List.mem_of_find?_eq_some found)) (by simpa using wrong)
    · rfl

/-- A code fills its field in the compute layout. -/
theorem width_of_code {f : Field} {codes : TwoWay String Bits} {layout : Layout} {m : String}
    {code : Bits} {width : Nat} (checked : d.checkCodes f codes = .ok ())
    (hl : d.layout? .compute = some layout) (given : layout.fieldWidth? f = some width)
    (known : codes.code? m = some code) : code.width = width := by
  have wide := checkCodes_eq_ok.1 checked _ (TwoWay.code?_eq_some_iff.1 known)
  rwa [hl, Option.bind_some, given, Option.getD_some] at wide

theorem validate_eq_ok :
    d.validate = .ok () ↔
      (∀ s, ∃ opcode layout, d.Shaped s opcode layout) ∧ d.checkCodes .comp d.comp = .ok () ∧
        d.checkCodes .dest d.dest = .ok () ∧ d.checkCodes .jump d.jump = .ok () := by
  have bind : ∀ (first second : Except DescriptorError Unit),
      (first >>= fun _ => second) = .ok () ↔ first = .ok () ∧ second = .ok () := by
    intro first second
    cases first with
    | error e => simp [Bind.bind, Except.bind]
    | ok => simp [Bind.bind, Except.bind]
  unfold validate
  rw [bind, bind, bind, bind, checkShape_eq_ok, checkShape_eq_ok, ← and_assoc]
  refine and_congr_left fun _ => ⟨fun ⟨address, compute⟩ s => ?_, fun all => ⟨all _, all _⟩⟩
  cases s with
  | address => exact address
  | compute => exact compute

theorem shaped_of_layout (valid : d.validate = .ok ()) {s : Shape} {layout : Layout}
    (hl : d.layout? s = some layout) : ∃ opcode, d.Shaped s opcode layout := by
  obtain ⟨opcode, layout', shaped⟩ := (validate_eq_ok.1 valid).1 s
  obtain rfl : layout' = layout := by simpa [hl] using shaped.layout_eq.symm
  exact ⟨opcode, shaped⟩

end

end Descriptor

end HackToolchain
