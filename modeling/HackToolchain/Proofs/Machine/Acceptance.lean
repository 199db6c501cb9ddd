import HackToolchain.Proofs.Descriptor.Decoding
import HackToolchain.Proofs.Machine.Loading

/-!
# Which texts are loaded

* `accepts_iff`: a line is decoded when it has at most 64 binary digits, an opcode opens it and
  the layout that goes with the opcode has the fields of its shape;
* `load_eq_ok`: a text is loaded when all its lines are decoded and there is room for them;
* `loads_accepted`: so the words of the machine are loaded, and with them whatever an opcode opens:
  how long a line is makes no difference;
* `loads_other_widths`: a machine of sixteen bits loads lines of one digit and of seventeen.
-/

namespace HackToolchain

/-! ## Patterns that open a line -/

namespace Bits

/-- The line begins with the digits of the pattern, which holds nothing beyond them. -/
structure Opens (p : Bits) (line : List Char) : Prop where
  value : p.val.toNat < 2 ^ p.width
  front : p.toChars <+: line

theorem width_le_length_toChars (b : Bits) : b.width ≤ b.toChars.length := by
  unfold toChars
  split
  · rename_i none
    exact Nat.le_of_eq none
  · rw [length_digits]
    exact Nat.le_max_left ..

theorem startsWith_iff_opens {b p : Bits} (hb : b.Fits) :
    b.startsWith p = true ↔ p.Opens b.toChars := by
  by_cases hp : p.Fits
  · rw [startsWith_iff hb hp]
    exact ⟨fun front => ⟨hp.value, front⟩, Opens.front⟩
  -- a pattern that does not fit is longer than any word, or it is no slice
  · refine iff_of_false (fun starts => hp ?_) fun opens => hp ⟨?_, opens.value⟩
    · rw [startsWith, Bool.and_eq_true, decide_eq_true_iff, decide_eq_true_iff] at starts
      exact starts.2 ▸ slice_fits hb 0 (Nat.le_trans starts.1 hb.width)
    · have inside := opens.front.length_le
      rw [length_toChars hb] at inside
      have wide := width_le_length_toChars p
      have word := hb.width
      omega

end Bits

/-! ## Words that are decoded -/

def Decoded.shape : Decoded → Shape
  | address _ => .address
  | compute .. => .compute

theorem map_fst_cutFrom (word : Bits) (offset : Nat) (fields : List (Field × Nat)) :
    (cutFrom word offset fields).map Prod.fst = fields.map Prod.fst := by
  induction fields generalizing offset with
  | nil => rfl
  | cons field rest ih => rw [cutFrom, List.map_cons, ih, List.map_cons]

theorem lastSlice?_isSome {slices : List (Field × Bits)} {f : Field} :
    (lastSlice? slices f).isSome ↔ f ∈ slices.map Prod.fst := by
  rw [Option.isSome_iff_ne_none, Ne, lastSlice?, Table.lookup_eq_none, not_not, List.map_reverse,
    List.mem_reverse]

theorem Decoded.exists_ofSlices? {slices : List (Field × Bits)} {s : Shape} :
    (∃ i, ofSlices? slices s = some i) ↔ ∀ f ∈ s.operands, f ∈ slices.map Prod.fst := by
  cases s with
  | address =>
    simp only [Shape.operands, List.mem_singleton, forall_eq, ← lastSlice?_isSome, ofSlices?]
    cases lastSlice? slices .value <;> simp
  | compute =>
    simp only [Shape.operands, List.forall_mem_cons, ← lastSlice?_isSome, ofSlices?]
    cases lastSlice? slices .comp <;> cases lastSlice? slices .dest <;>
      cases lastSlice? slices .jump <;> simp

theorem Decoded.shape_of_ofSlices? {slices : List (Field × Bits)} {s : Shape} {i : Decoded}
    (h : ofSlices? slices s = some i) : i.shape = s := by
  cases s with
  | address =>
    obtain ⟨value, -, rfl⟩ := Option.map_eq_some_iff.1 h
    rfl
  | compute =>
    simp only [ofSlices?] at h
    split at h
    · obtain rfl := Option.some.inj h
      rfl
    · cases h

namespace Descriptor

variable {d : Descriptor} {line : List Char} {s : Shape}

/-- The first opcode that opens the line is the one of the shape. -/
def Heads (d : Descriptor) (line : List Char) (s : Shape) : Prop :=
  ∃ before opcode after, d.opcodes.entries = before ++ (s, opcode) :: after ∧
    opcode.Opens line ∧ ∀ p ∈ before, ¬ p.2.Opens line

theorem Heads.opcode (h : d.Heads line s) :
    ∃ opcode, d.opcode? s = some opcode ∧ opcode.Opens line := by
  obtain ⟨before, opcode, after, entries, opens, -⟩ := h
  refine ⟨opcode, Table.get?_eq_some_iff.2 ?_, opens⟩
  rw [entries]
  exact List.mem_append_right _ List.mem_cons_self

/-- The layout of the shape has all of its fields. -/
def Complete (d : Descriptor) (s : Shape) : Prop :=
  ∃ layout, d.layout? s = some layout ∧ ∀ f ∈ s.operands, f ∈ layout.fields.map Prod.fst

theorem shapeOf?_eq_some {word : Bits} (fits : word.Fits) :
    d.shapeOf? word = some s ↔ d.Heads word.toChars s := by
  simp only [shapeOf?, Option.map_eq_some_iff, List.find?_eq_some_iff_append, Heads,
    Bool.not_eq_true', Bool.eq_false_iff, ne_eq, Bits.startsWith_iff_opens fits]
  constructor
  · rintro ⟨⟨_, opcode⟩, ⟨opens, before, after, entries, others⟩, rfl⟩
    exact ⟨before, opcode, after, entries, opens, others⟩
  · rintro ⟨before, opcode, after, entries, opens, others⟩
    exact ⟨(s, opcode), ⟨opens, before, after, entries, others⟩, rfl⟩

/-- What is looked at in a line before an instruction of the shape is read off it. -/
structure Accepts (d : Descriptor) (line : List Char) (s : Shape) : Prop where
  short : line.length ≤ 64
  binary : ∀ c ∈ line, c = '0' ∨ c = '1'
  heads : d.Heads line s
  complete : d.Complete s

/-- A word of the machine: all its digits, behind an opcode. -/
structure IsWord (d : Descriptor) (line : List Char) : Prop where
  length : line.length = d.wordSize
  binary : ∀ c ∈ line, c = '0' ∨ c = '1'
  opened : ∃ s opcode, d.opcode? s = some opcode ∧ opcode.Opens line

theorem ofWord_eq_ok (valid : d.validate = .ok ()) {word : Bits} {i : Decoded} :
    Decoded.ofWord d word = .ok i ↔ ∃ layout, d.shapeOf? word = some i.shape ∧
      d.layout? i.shape = some layout ∧ Decoded.ofSlices? (layout.cut word) i.shape = some i := by
  obtain ⟨shapes, -⟩ := validate_eq_ok.1 valid
  unfold Decoded.ofWord
  cases hs : d.shapeOf? word with
  | none => simp
  | some s =>
    obtain ⟨opcode, layout, shaped⟩ := shapes s
    simp only [shaped.layout_eq, shaped.countable, Bool.not_true, Bool.false_eq_true, if_false]
    constructor
    · intro h
      split at h
      · cases h
      · rename_i i' slices
        obtain rfl := Except.ok.inj h
        obtain rfl := Decoded.shape_of_ofSlices? slices
        exact ⟨layout, rfl, shaped.layout_eq, slices⟩
    · rintro ⟨layout', same, hl, slices⟩
      obtain rfl := Option.some.inj same
      obtain rfl : layout = layout' := by simpa [shaped.layout_eq] using hl
      rw [slices]

/-- **What a line has to be for an instruction to be read off it.** -/
theorem accepts_iff (valid : d.validate = .ok ()) :
    (∃ i, d.Decodes line i ∧ i.shape = s) ↔ d.Accepts line s := by
  constructor
  · rintro ⟨i, ⟨word, fits, rfl, decoded⟩, rfl⟩
    obtain ⟨layout, heads, hl, slices⟩ := (ofWord_eq_ok valid).1 decoded
    have fields := Decoded.exists_ofSlices?.1 ⟨i, slices⟩
    rw [Layout.cut, map_fst_cutFrom] at fields
    refine ⟨?_, ?_, (shapeOf?_eq_some fits).1 heads, layout, hl, fields⟩
    · rw [Bits.length_toChars fits]
      exact fits.width
    · exact Bits.digits_of_fits fits
  · rintro ⟨short, binary, heads, layout, hl, fields⟩
    obtain ⟨word, fits, rfl⟩ := Bits.exists_of_digits short binary
    rw [← map_fst_cutFrom word 0] at fields
    obtain ⟨i, slices⟩ := Decoded.exists_ofSlices?.2 fields
    obtain rfl := Decoded.shape_of_ofSlices? slices
    refine ⟨i, ⟨word, fits, rfl, (ofWord_eq_ok valid).2 ⟨layout, ?_, hl, slices⟩⟩, rfl⟩
    exact (shapeOf?_eq_some fits).2 heads

/-- Of the opcodes that open a line one is the first. -/
theorem heads_of_opens (short : line.length ≤ 64) (binary : ∀ c ∈ line, c = '0' ∨ c = '1')
    {opcode : Bits} (known : d.opcode? s = some opcode) (opens : opcode.Opens line) :
    ∃ first, d.Heads line first := by
  obtain ⟨word, fits, rfl⟩ := Bits.exists_of_digits short binary
  have entry := Table.get?_eq_some_iff.1 known
  have starts := (Bits.startsWith_iff_opens fits).2 opens
  cases found : d.opcodes.entries.find? fun p => word.startsWith p.2 with
  | none => exact absurd starts (List.find?_eq_none.1 found _ entry)
  | some e =>
    refine ⟨e.1, (shapeOf?_eq_some fits).1 ?_⟩
    rw [shapeOf?, found, Option.map_some]

theorem isWord_of_shapeOf? {word : Bits} (fits : word.Fits) (width : word.width = d.wordSize)
    (shape : d.shapeOf? word = some s) : d.IsWord word.toChars := by
  obtain ⟨opcode, known, opens⟩ := ((shapeOf?_eq_some fits).1 shape).opcode
  exact ⟨(Bits.length_toChars fits).trans width, Bits.digits_of_fits fits, s, opcode, known, opens⟩

theorem IsWord.accepts (word : d.IsWord line) (small : d.wordSize ≤ 64)
    (complete : ∀ s, d.Heads line s → d.Complete s) : ∃ s, d.Accepts line s := by
  have short : line.length ≤ 64 := word.length ▸ small
  obtain ⟨_, _, known, opens⟩ := word.opened
  obtain ⟨s, heads⟩ := heads_of_opens short word.binary known opens
  exact ⟨s, short, word.binary, heads, complete s heads⟩

/-- Nothing but its length is missing for an accepted line to be a word. -/
theorem Accepts.isWord_iff (accepts : d.Accepts line s) :
    d.IsWord line ↔ line.length = d.wordSize := by
  obtain ⟨opcode, known, opens⟩ := accepts.heads.opcode
  exact ⟨IsWord.length, fun length => ⟨length, accepts.binary, s, opcode, known, opens⟩⟩

end Descriptor

/-! ## Texts that are loaded -/

namespace Machine

variable {d : Descriptor}

theorem load_eq_ok {m m' : Machine} {text : String} :
    m.load d text = .ok m' ↔ ∃ image, List.Forall₂ d.Decodes (wordLines text) image ∧
      image.length ≤ romSize ∧ m' = { m with rom := image.toArray, pc := 0 } := by
  constructor
  · intro h
    cases decoded : decodeLines d #[] (Text.lines text.toList).zipIdx with
    | error e => simp [load, decodeText, decoded, Except.map] at h
    | ok rom =>
      obtain ⟨image, all, -⟩ := decodeLines_eq_ok_iff.1 decoded
      rw [load, decodeText_eq all] at h
      split at h
      · rename_i short
        exact ⟨image, all, short, (Except.ok.inj h).symm⟩
      · cases h
  · rintro ⟨image, all, short, rfl⟩
    rw [load, decodeText_eq all, if_pos short]
    rfl

/-- **A text is loaded when all its lines are accepted and there is room for them.** Each
instruction is then the one that the digits of its line are decoded to. In particular words of the
machine are loaded; and the lines of a text that was loaded are words of the machine when they are
as long as that. -/
theorem loads_accepted (valid : d.validate = .ok ()) (m : Machine) (text : String) :
    ((∃ m', m.load d text = .ok m') ↔
      (wordLines text).length ≤ romSize ∧ ∀ line ∈ wordLines text, ∃ s, d.Accepts line s) ∧
    (∀ m', m.load d text = .ok m' →
      m' = { m with rom := m'.rom, pc := 0 } ∧
      List.Forall₂ (fun line i => d.Decodes line i ∧ d.Accepts line i.shape) (wordLines text)
        m'.rom.toList ∧
      ((∀ line ∈ wordLines text, d.IsWord line) ↔
        ∀ line ∈ wordLines text, line.length = d.wordSize)) ∧
    (d.wordSize ≤ 64 → (wordLines text).length ≤ romSize →
      (∀ line ∈ wordLines text, d.IsWord line ∧ ∀ s, d.Heads line s → d.Complete s) →
      ∃ m', m.load d text = .ok m') := by
  have loads : (wordLines text).length ≤ romSize →
      (∀ line ∈ wordLines text, ∃ s, d.Accepts line s) → ∃ m', m.load d text = .ok m' := by
    intro short all
    have decoded : ∀ line ∈ wordLines text, ∃ i, d.Decodes line i := by
      intro line there
      obtain ⟨s, accepts⟩ := all line there
      obtain ⟨i, decodes, -⟩ := (Descriptor.accepts_iff valid).2 accepts
      exact ⟨i, decodes⟩
    choose! image decodes using decoded
    refine ⟨_, load_eq_ok.2 ⟨(wordLines text).map image, ?_, ?_, rfl⟩⟩
    · exact List.forall₂_map_right_iff.2 (List.forall₂_same.2 decodes)
    · rwa [List.length_map]
  have accepted : ∀ {image}, List.Forall₂ d.Decodes (wordLines text) image →
      ∀ line ∈ wordLines text, ∃ s, d.Accepts line s := by
    intro image all
    refine ((List.forall₂_and_left _ _).1 (all.imp fun line i h => ⟨?_, h⟩)).1
    exact ⟨i.shape, (Descriptor.accepts_iff valid).1 ⟨i, h, rfl⟩⟩
  refine ⟨⟨?_, fun ⟨short, all⟩ => loads short all⟩, ?_, ?_⟩
  · rintro ⟨m', h⟩
    obtain ⟨image, all, short, -⟩ := load_eq_ok.1 h
    exact ⟨all.length_eq ▸ short, accepted all⟩
  · intro m' h
    obtain ⟨image, all, -, rfl⟩ := load_eq_ok.1 h
    refine ⟨rfl, all.imp fun line i h => ⟨h, (Descriptor.accepts_iff valid).1 ⟨i, h, rfl⟩⟩, ?_⟩
    refine forall₂_congr fun line there => ?_
    obtain ⟨s, accepts⟩ := accepted all line there
    exact accepts.isWord_iff
  · intro small short words
    exact loads short fun line there => (words line there).1.accepts small (words line there).2

theorem loads_accepted_hack :
    hack.validate = .ok () ∧
    wordLines "0000000000010001\n\n  1110110000010000\n" =
      [(⟨0x11, 16⟩ : Bits).toChars, (⟨0xEC10, 16⟩ : Bits).toChars] ∧
    ∃ m', initial.load hack "0000000000010001\n\n  1110110000010000\n" = .ok m' ∧
      m'.rom.size = 2 := by
  have valid : hack.validate = .ok () := by decide +kernel
  have lines : wordLines "0000000000010001\n\n  1110110000010000\n" =
      [(⟨0x11, 16⟩ : Bits).toChars, (⟨0xEC10, 16⟩ : Bits).toChars] := by decide +kernel
  have complete : ∀ s, hack.Complete s := by
    intro s
    cases s with
    | address => exact ⟨_, rfl, by decide⟩
    | compute => exact ⟨_, rfl, by decide⟩
  have address : hack.IsWord (⟨0x11, 16⟩ : Bits).toChars :=
    Descriptor.isWord_of_shapeOf? ⟨by decide, by decide +kernel⟩ rfl
      (by decide +kernel : hack.shapeOf? ⟨0x11, 16⟩ = some .address)
  have compute : hack.IsWord (⟨0xEC10, 16⟩ : Bits).toChars :=
    Descriptor.isWord_of_shapeOf? ⟨by decide, by decide +kernel⟩ rfl
      (by decide +kernel : hack.shapeOf? ⟨0xEC10, 16⟩ = some .compute)
  obtain ⟨-, loaded, words⟩ :=
    loads_accepted valid initial "0000000000010001\n\n  1110110000010000\n"
  obtain ⟨m', h⟩ := words (by decide) (by rw [lines]; decide) (by
    rw [lines, List.forall_mem_cons, List.forall_mem_singleton]
    exact ⟨⟨address, fun s _ => complete s⟩, compute, fun s _ => complete s⟩)
  refine ⟨valid, lines, m', h, ?_⟩
  have same := (loaded m' h).2.1.length_eq
  rwa [lines, eq_comm, Array.length_toList] at same

/-- Where a line ends before a field does, the field has the last digits of the line; digits behind
the last field are dropped. -/
theorem loads_other_widths :
    (wordLines "0\n111\n00000000000000011\n").map List.length = [1, 3, 17] ∧
    hack.wordSize = 16 ∧
    ∃ m', initial.load hack "0\n111\n00000000000000011\n" = .ok m' ∧
      m'.rom = #[.address 0, .compute ⟨7, 7⟩ ⟨7, 3⟩ ⟨7, 3⟩, .address 1] := by
  have decoded : decodeText hack "0\n111\n00000000000000011\n" =
      .ok #[.address 0, .compute ⟨7, 7⟩ ⟨7, 3⟩ ⟨7, 3⟩, .address 1] := by decide +kernel
  refine ⟨by decide +kernel, rfl, ?_⟩
  rw [load, decoded]
  exact ⟨_, rfl, rfl⟩

end Machine

end HackToolchain
