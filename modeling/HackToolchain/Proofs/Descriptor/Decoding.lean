import HackToolchain.Proofs.Assembly.Fields
import HackToolchain.Proofs.Descriptor.Accepted

/-!
# Decoding undoes encoding

For every descriptor that is accepted and `Legible`, so that a word shows its shape and its
fields:

* `encoded_fields`: a word that was encoded is cut into the bits that its fields were given;
* `shapeOf?_encoded`: its shape is read off its opcode;
* `decodes_encoded`: it is decoded to what its operand or its mnemonics stand for.
-/

namespace HackToolchain

open Assembly (Instruction Operand SymbolTable)

/-- The fields that a word of the shape has behind its opcode. -/
def Shape.operands : Shape → List Field
  | .address => [.value]
  | .compute => [.comp, .dest, .jump]

namespace Descriptor

/-- A word of the machine begins with its opcode, has each field of its shape once and is not
taken for one of the other shape. -/
structure Legible (d : Descriptor) : Prop where
  wordSize : d.wordSize ≤ 64
  fields : ∀ s layout, d.layout? s = some layout →
    ∃ width rest, layout.fields = (.opcode, width) :: rest ∧ (rest.map Prod.fst).Perm s.operands
  narrow : ∀ layout width, d.layout? .address = some layout → (.value, width) ∈ layout.fields →
    width ≤ 32
  apart : ∀ s s' opcode opcode', s ≠ s' → d.opcode? s = some opcode →
    d.opcode? s' = some opcode' → ¬ opcode.toChars <+: opcode'.toChars

variable {d : Descriptor}

/-- The two layouts and opcodes of a machine whose words are legible. -/
theorem legible_of {width width' value : Nat} {fields : List (Field × Nat)} {opcode opcode' : Bits}
    (wordSize : d.wordSize ≤ 64)
    (address : d.layout? .address = some ⟨[(.opcode, width), (.value, value)]⟩)
    (compute : d.layout? .compute = some ⟨(.opcode, width') :: fields⟩)
    (operands : (fields.map Prod.fst).Perm Shape.compute.operands) (narrow : value ≤ 32)
    (first : d.opcode? .address = some opcode) (second : d.opcode? .compute = some opcode')
    (apart : ¬ opcode.toChars <+: opcode'.toChars ∧ ¬ opcode'.toChars <+: opcode.toChars) :
    d.Legible where
  wordSize := wordSize
  fields := by
    intro s layout h
    cases s with
    | address =>
      obtain rfl := Option.some.inj (address.symm.trans h)
      exact ⟨width, _, rfl, .refl _⟩
    | compute =>
      obtain rfl := Option.some.inj (compute.symm.trans h)
      exact ⟨width', _, rfl, operands⟩
  narrow := by
    intro layout width h there
    obtain rfl := Option.some.inj (address.symm.trans h)
    rcases List.mem_cons.1 there with same | there
    · cases same
    · obtain ⟨-, rfl⟩ := Prod.mk.inj (List.mem_singleton.1 there)
      exact narrow
  apart := by
    intro s s' o o' different h h'
    cases s <;> cases s'
    · exact absurd rfl different
    · obtain rfl := Option.some.inj (first.symm.trans h)
      obtain rfl := Option.some.inj (second.symm.trans h')
      exact apart.1
    · obtain rfl := Option.some.inj (second.symm.trans h)
      obtain rfl := Option.some.inj (first.symm.trans h')
      exact apart.2
    · exact absurd rfl different

theorem Legible.names (legible : d.Legible) {s : Shape} {layout : Layout}
    (h : d.layout? s = some layout) :
    (layout.fields.map Prod.fst).Perm (.opcode :: s.operands) ∧
      (layout.fields.map Prod.fst).Nodup := by
  obtain ⟨width, rest, fields, perm⟩ := legible.fields s layout h
  have names : (layout.fields.map Prod.fst).Perm (.opcode :: s.operands) := by
    rw [fields, List.map_cons]
    exact perm.cons _
  refine ⟨names, names.nodup_iff.2 ?_⟩
  cases s <;> decide

end Descriptor

namespace Layout

theorem width_eq (l : Layout) : l.width = (l.fields.map Prod.snd).sum := by
  rw [width, List.sum, List.foldr_map]

theorem fieldWidth?_eq {l : Layout} (once : (l.fields.map Prod.fst).Nodup) {field : Field × Nat}
    (there : field ∈ l.fields) : l.fieldWidth? field.1 = some field.2 :=
  (Table.lookup_eq_some once).2 there

end Layout

/-! ## What fields are filled with -/

namespace Assembly.Instruction

variable {d : Descriptor} {s : SymbolTable} {i : Instruction} {b : Bits} {width : Nat}

theorem codeOf_eq_ok {codes : TwoWay String Bits} {m : String} {unknown : String → Error}
    {next : SymbolTable} (h : (codeOf codes m unknown).map (·, s) = .ok (b, next)) :
    codes.code? m = some b := by
  cases hc : codes.code? m with
  | none => simp [codeOf, hc, Except.map] at h
  | some code =>
    simp only [codeOf, hc, Except.map, Except.ok.injEq, Prod.mk.injEq] at h
    rw [h.1]

theorem opcode_of_hasBits (h : i.HasBits d s (.opcode, width) b) : d.opcode? i.shape = some b := by
  obtain ⟨next, h⟩ := h
  cases ho : d.opcode? i.shape with
  | none => simp [fieldBits, ho] at h
  | some opcode =>
    simp only [fieldBits, ho, Except.ok.injEq, Prod.mk.injEq] at h
    rw [h.1]

theorem value_of_hasBits {operand : Operand}
    (h : (address operand).HasBits d s (.value, width) b) :
    ∃ v next, operand.resolve s = .ok (v, next) ∧ b = Bits.ofVal v width := by
  obtain ⟨next, h⟩ := h
  cases hr : operand.resolve s with
  | error e => simp [fieldBits, hr, Except.map] at h
  | ok r =>
    simp only [fieldBits, hr, Except.map, Except.ok.injEq, Prod.mk.injEq] at h
    exact ⟨r.1, r.2, rfl, h.1.symm⟩

/-- The part of a computation that a field holds the code of. -/
theorem codes_of_hasBits {dest comp jump : String} :
    ((compute dest comp jump).HasBits d s (.comp, width) b → d.comp.code? comp = some b) ∧
    ((compute dest comp jump).HasBits d s (.dest, width) b → d.dest.code? dest = some b) ∧
      ((compute dest comp jump).HasBits d s (.jump, width) b → d.jump.code? jump = some b) :=
  ⟨fun ⟨_, h⟩ => codeOf_eq_ok h, fun ⟨_, h⟩ => codeOf_eq_ok h, fun ⟨_, h⟩ => codeOf_eq_ok h⟩

/-- No field is given fewer bits than it has, and none but an operand more. -/
theorem fits_of_hasBits (accepted : d.Accepted) {layout : Layout} (hl : d.layout? i.shape = some layout)
    (once : (layout.fields.map Prod.fst).Nodup) {field : Field × Nat} (there : field ∈ layout.fields)
    (h : i.HasBits d s field b) : field.2 ≤ b.width ∧ (b.width ≤ 64 → b.Fits) := by
  obtain ⟨f, width⟩ := field
  obtain ⟨-, comps, dests, jumps⟩ := Descriptor.validate_eq_ok.1 accepted.valid
  have given := Layout.fieldWidth?_eq once there
  have code : ∀ {codes : TwoWay String Bits} {m : String}, i.shape = .compute →
      d.checkCodes f codes = .ok () → (∀ e ∈ codes.entries, e.2.Fits) →
      codes.code? m = some b → width ≤ b.width ∧ (b.width ≤ 64 → b.Fits) := by
    intro codes m compute checked fit code
    rw [compute] at hl
    have wide := Descriptor.width_of_code checked hl given code
    exact ⟨Nat.le_of_eq wide.symm, fun _ => fit _ (TwoWay.code?_eq_some_iff.1 code)⟩
  cases f with
  | opcode =>
    obtain ⟨opcode, shaped⟩ := Descriptor.shaped_of_layout accepted.valid hl
    obtain rfl : opcode = b := by simpa [opcode_of_hasBits h] using shaped.opcode_eq.symm
    rw [shaped.opcodeWidth, Option.some.injEq] at given
    exact ⟨Nat.le_of_eq given.symm,
      fun _ => accepted.opcodes _ (Table.get?_eq_some_iff.1 shaped.opcode_eq)⟩
  | value =>
    cases i with
    | compute => cases h.choose_spec
    | address operand =>
      obtain ⟨v, next, -, rfl⟩ := value_of_hasBits h
      exact ⟨Nat.le_max_left .., fun short => ⟨short, Bits.bitLength_le.1 (Nat.le_max_right ..)⟩⟩
  | comp =>
    cases i with
    | address => cases h.choose_spec
    | compute => exact code rfl comps accepted.comp (codes_of_hasBits.1 h)
  | dest =>
    cases i with
    | address => cases h.choose_spec
    | compute => exact code rfl dests accepted.dest (codes_of_hasBits.2.1 h)
  | jump =>
    cases i with
    | address => cases h.choose_spec
    | compute => exact code rfl jumps accepted.jump (codes_of_hasBits.2.2 h)

end Assembly.Instruction

/-! ## Words that are cut again -/

theorem sum_le_of_wide {fields : List (Field × Nat)} {pieces : List Bits}
    (wide : List.Forall₂ (fun f p => f.2 ≤ p.width) fields pieces) :
    (fields.map Prod.snd).sum ≤ (pieces.map Bits.width).sum := by
  induction wide with
  | nil => exact Nat.le_refl _
  | cons here _ ih => simpa using Nat.add_le_add here ih

/-- Pieces that are all wide enough, and together no wider, are just as wide as their fields. -/
theorem widths_eq {fields : List (Field × Nat)} {pieces : List Bits}
    (wide : List.Forall₂ (fun f p => f.2 ≤ p.width) fields pieces)
    (total : (pieces.map Bits.width).sum ≤ (fields.map Prod.snd).sum) :
    List.Forall₂ (fun f p => p.width = f.2) fields pieces := by
  induction wide with
  | nil => exact .nil
  | cons here rest ih =>
    have more := sum_le_of_wide rest
    simp only [List.map_cons, List.sum_cons] at total
    exact .cons (by omega) (ih (by omega))

/-- A word that was encoded: the bits of each field, which fill it, and what it is cut into. -/
structure Encoded (d : Descriptor) (s : SymbolTable) (i : Instruction) (layout : Layout)
    (pieces : List Bits) (w : Bits) : Prop where
  layout_eq : d.layout? i.shape = some layout
  bits : ∀ field b, (field, b) ∈ layout.fields.zip pieces → i.HasBits d s field b ∧ b.width = field.2
  length : layout.fields.length = pieces.length
  fits : w.Fits
  text : w.toChars = pieces.flatMap Bits.toChars
  cut : layout.cut w = (layout.fields.map Prod.fst).zip pieces

section

variable {d : Descriptor} {s next : SymbolTable} {i : Instruction} {w : Bits}

theorem encoded_fields (accepted : d.Accepted) (legible : d.Legible)
    (h : i.encode d s = (.ok w, next)) : ∃ layout pieces, Encoded d s i layout pieces w := by
  obtain ⟨layout, pieces, hl, all, rfl, width⟩ := Assembly.Instruction.encode_pieces h
  obtain ⟨length, bits⟩ := List.forall₂_iff_zip.1 all
  obtain ⟨-, once⟩ := legible.names hl
  obtain ⟨opcode, shaped⟩ := Descriptor.shaped_of_layout accepted.valid hl
  have total : (pieces.map Bits.width).sum = (layout.fields.map Prod.snd).sum := by
    rw [← Bits.width_concat, width, ← shaped.width, Layout.width_eq]
  have small : (pieces.map Bits.width).sum ≤ 64 := by
    rw [← Bits.width_concat, width]
    exact legible.wordSize
  have given : ∀ {field b}, (field, b) ∈ layout.fields.zip pieces →
      field.2 ≤ b.width ∧ (b.width ≤ 64 → b.Fits) := fun there =>
    Assembly.Instruction.fits_of_hasBits accepted hl once (List.of_mem_zip there).1 (bits there)
  have widths := widths_eq (List.forall₂_iff_zip.2 ⟨length, fun there => (given there).1⟩)
    (Nat.le_of_eq total)
  have fit : ∀ p ∈ pieces, p.Fits := by
    intro p hp
    obtain ⟨before, after, split⟩ := List.append_of_mem hp
    rw [← List.map_snd_zip (Nat.le_of_eq length.symm)] at hp
    obtain ⟨⟨field, q⟩, there, same⟩ := List.mem_map.1 hp
    obtain rfl : q = p := same
    apply (given there).2
    rw [split, List.map_append, List.map_cons, List.sum_append, List.sum_cons] at small
    omega
  obtain ⟨fits, text⟩ := Bits.toChars_concat fit small
  exact ⟨layout, pieces, hl,
    fun field b there => ⟨bits there, (List.forall₂_iff_zip.1 widths).2 there⟩, length, fits, text,
    cutFrom_eq fits widths fit [] text⟩

/-- A field of the shape has its bits, and they are cut out again. -/
theorem Encoded.field {layout : Layout} {pieces : List Bits} (encoded : Encoded d s i layout pieces w)
    (legible : d.Legible) {f : Field} (there : f ∈ i.shape.operands) :
    ∃ b, i.HasBits d s (f, b.width) b ∧ (f, b.width) ∈ layout.fields ∧
      lastSlice? (layout.cut w) f = some b := by
  obtain ⟨names, once⟩ := legible.names encoded.layout_eq
  have named : f ∈ layout.fields.map Prod.fst := names.mem_iff.2 (List.mem_cons_of_mem _ there)
  rw [← List.map_fst_zip (Nat.le_of_eq encoded.length), List.map_map] at named
  obtain ⟨⟨⟨f, width⟩, b⟩, pair, rfl⟩ := List.mem_map.1 named
  obtain ⟨bits, rfl⟩ : _ ∧ b.width = width := encoded.bits _ _ pair
  refine ⟨b, bits, (List.of_mem_zip pair).1, lastSlice?_eq ?_ ?_⟩
  · rw [encoded.cut, List.map_fst_zip (by simp [encoded.length])]
    exact once
  · rw [encoded.cut, List.zip_map_left]
    exact List.mem_map.2 ⟨_, pair, rfl⟩

/-- The opcode shows the shape. -/
theorem Encoded.shape {layout : Layout} {pieces : List Bits} (encoded : Encoded d s i layout pieces w)
    (accepted : d.Accepted) (legible : d.Legible) : d.shapeOf? w = some i.shape := by
  obtain ⟨width, rest, fields, -⟩ := legible.fields _ _ encoded.layout_eq
  have length := encoded.length
  rw [fields] at length
  obtain ⟨b, pieces', rfl⟩ := List.exists_cons_of_length_eq_add_one length.symm
  have first : d.opcode? i.shape = some b := by
    apply Assembly.Instruction.opcode_of_hasBits
    exact (encoded.bits (.opcode, width) b (by rw [fields]; exact List.mem_cons_self)).1
  have front : b.toChars <+: w.toChars := by
    rw [encoded.text, List.flatMap_cons]
    exact List.prefix_append _ _
  have entry := Table.get?_eq_some_iff.1 first
  have starts : w.startsWith b = true :=
    (Bits.startsWith_iff encoded.fits (accepted.opcodes _ entry)).2 front
  cases found : d.opcodes.entries.find? fun p => w.startsWith p.2 with
  | none => exact absurd starts (List.find?_eq_none.1 found _ entry)
  | some e =>
    obtain ⟨shape, opcode⟩ := e
    have there := List.mem_of_find?_eq_some found
    have starts_too := List.find?_some found
    have other : opcode.toChars <+: w.toChars :=
      (Bits.startsWith_iff encoded.fits (accepted.opcodes _ there)).1 starts_too
    have known : d.opcode? shape = some opcode := Table.get?_eq_some_iff.2 there
    have same : shape = i.shape := by
      by_contra apart
      rcases List.prefix_or_prefix_of_prefix other front with h | h
      · exact legible.apart _ _ _ _ apart known first h
      · exact legible.apart _ _ _ _ (Ne.symm apart) first known h
    rw [Descriptor.shapeOf?, found, ← same]
    rfl

theorem Encoded.ofWord {layout : Layout} {pieces : List Bits} (encoded : Encoded d s i layout pieces w)
    (accepted : d.Accepted) (legible : d.Legible) {image : Decoded}
    (slices : Decoded.ofSlices? (layout.cut w) i.shape = some image) :
    Decoded.ofWord d w = .ok image := by
  obtain ⟨opcode, shaped⟩ := Descriptor.shaped_of_layout accepted.valid encoded.layout_eq
  simp [Decoded.ofWord, encoded.shape accepted legible, encoded.layout_eq, shaped.countable, slices]

/-- The word of an address is decoded to the value of its operand. -/
theorem address_of_encoded (accepted : d.Accepted) (legible : d.Legible) {operand : Operand}
    (h : (Instruction.address operand).encode d s = (.ok w, next)) :
    ∃ v rest value, operand.resolve s = .ok (v, rest) ∧ value.toNat = v.toNat ∧
      Decoded.ofWord d w = .ok (.address value) := by
  obtain ⟨layout, pieces, encoded⟩ := encoded_fields accepted legible h
  obtain ⟨b, bits, there, slice⟩ := encoded.field legible (f := .value) List.mem_cons_self
  obtain ⟨v, rest, resolved, made⟩ := Assembly.Instruction.value_of_hasBits bits
  have short : Bits.bitLength v ≤ b.width := by
    have wide := congrArg Bits.width made
    change b.width = max b.width (Bits.bitLength v) at wide
    omega
  have narrow := legible.narrow _ _ encoded.layout_eq there
  have low : v.toNat < 2 ^ 32 :=
    Nat.lt_of_lt_of_le (Bits.bitLength_le.1 short) (Nat.pow_le_pow_right (by decide) narrow)
  have val : b.val = v := congrArg Bits.val made
  refine ⟨v, rest, v.setWidth 32, resolved, ?_, encoded.ofWord accepted legible ?_⟩
  · rw [BitVec.toNat_setWidth, Nat.mod_eq_of_lt low]
  · change (lastSlice? (layout.cut w) .value).map _ = _
    rw [slice, Option.map_some, val]

/-- The word of a computation is decoded to the codes of its mnemonics. -/
theorem codes_of_encoded (accepted : d.Accepted) (legible : d.Legible) {dest comp jump : String}
    (h : (Instruction.compute dest comp jump).encode d s = (.ok w, next)) :
    ∃ c e j, d.comp.code? comp = some c ∧ d.dest.code? dest = some e ∧
      d.jump.code? jump = some j ∧ Decoded.ofWord d w = .ok (.compute c e j) := by
  obtain ⟨layout, pieces, encoded⟩ := encoded_fields accepted legible h
  have there : ∀ f ∈ [Field.comp, .dest, .jump],
      f ∈ (Instruction.compute dest comp jump).shape.operands := fun _ hf => hf
  obtain ⟨c, compBits, -, compSlice⟩ := encoded.field legible (there .comp (by decide))
  obtain ⟨e, destBits, -, destSlice⟩ := encoded.field legible (there .dest (by decide))
  obtain ⟨j, jumpBits, -, jumpSlice⟩ := encoded.field legible (there .jump (by decide))
  refine ⟨c, e, j, Assembly.Instruction.codes_of_hasBits.1 compBits,
    Assembly.Instruction.codes_of_hasBits.2.1 destBits,
    Assembly.Instruction.codes_of_hasBits.2.2 jumpBits, encoded.ofWord accepted legible ?_⟩
  simp [Instruction.shape, Decoded.ofSlices?, compSlice, destSlice, jumpSlice]

end

/-- An instruction with its operand looked up and its mnemonics replaced by their codes. -/
inductive Coded
  | address (value : BitVec 64)
  | compute (comp dest jump : Bits)
  deriving DecidableEq

def Assembly.Instruction.coded? (d : Descriptor) (s : SymbolTable) : Instruction → Option Coded
  | address operand =>
    match operand.resolve s with
    | .ok (value, _) => some (.address value)
    | .error _ => none
  | compute dest comp jump =>
    match d.comp.code? comp, d.dest.code? dest, d.jump.code? jump with
    | some c, some e, some j => some (.compute c e j)
    | _, _, _ => none

/-- **Decoding undoes encoding**, on every machine whose words are legible and whose descriptor is
accepted, as any is that was read (`accepted_of_ofNode`). The word of an address is decoded to the
value of its operand, and the word of a computation to the codes of its mnemonics; so instructions
that differ in these have different words. -/
theorem decodes_encoded {d : Descriptor} (accepted : d.Accepted) (legible : d.Legible) :
    (∀ operand s w next, (Instruction.address operand).encode d s = (.ok w, next) →
      ∃ v rest value, operand.resolve s = .ok (v, rest) ∧ value.toNat = v.toNat ∧
        Decoded.ofWord d w = .ok (.address value)) ∧
    (∀ dest comp jump s w next, (Instruction.compute dest comp jump).encode d s = (.ok w, next) →
      ∃ c e j, d.comp.code? comp = some c ∧ d.dest.code? dest = some e ∧
        d.jump.code? jump = some j ∧ Decoded.ofWord d w = .ok (.compute c e j)) ∧
    ∀ (i i' : Instruction) s s' w next next', i.encode d s = (.ok w, next) →
      i'.encode d s' = (.ok w, next') → i.coded? d s = i'.coded? d s' := by
  refine ⟨fun _ _ _ _ => address_of_encoded accepted legible,
    fun _ _ _ _ _ _ => codes_of_encoded accepted legible, ?_⟩
  intro i i' s s' w next next' h h'
  cases i with
  | address operand =>
    obtain ⟨v, _, value, resolved, same, decoded⟩ := address_of_encoded accepted legible h
    cases i' with
    | address operand' =>
      obtain ⟨v', _, value', resolved', same', decoded'⟩ := address_of_encoded accepted legible h'
      have values : value = value' := by simpa [decoded] using decoded'
      have operands : v = v' := by
        apply BitVec.eq_of_toNat_eq
        rw [← same, ← same', values]
      simp [Instruction.coded?, resolved, resolved', operands]
    | compute dest' comp' jump' =>
      obtain ⟨_, _, _, -, -, -, decoded'⟩ := codes_of_encoded accepted legible h'
      simp [decoded] at decoded'
  | compute dest comp jump =>
    obtain ⟨c, e, j, hc, he, hj, decoded⟩ := codes_of_encoded accepted legible h
    cases i' with
    | address operand' =>
      obtain ⟨_, _, _, -, -, decoded'⟩ := address_of_encoded accepted legible h'
      simp [decoded] at decoded'
    | compute dest' comp' jump' =>
      obtain ⟨c', e', j', hc', he', hj', decoded'⟩ := codes_of_encoded accepted legible h'
      obtain ⟨rfl, rfl, rfl⟩ : c = c' ∧ e = e' ∧ j = j' := by simpa [decoded] using decoded'
      simp [Instruction.coded?, hc, he, hj, hc', he', hj']

/-- A machine of eight bits whose jump comes first. -/
def small : Descriptor where
  name := "small"
  wordSize := 8
  opcodes := .ofList [(.address, .literal "0"), (.compute, .literal "10")]
  layouts := .ofList
    [(.address, ⟨[(.opcode, 1), (.value, 7)]⟩),
     (.compute, ⟨[(.opcode, 2), (.jump, 1), (.comp, 3), (.dest, 2)]⟩)]
  comp := .ofList [("0", .literal "000"), ("X", .literal "101")]
  dest := .ofList [("null", .literal "00"), ("A", .literal "10")]
  jump := .ofList [("null", .literal "0"), ("JMP", .literal "1")]
  symbols := .ofList [("TOP", 127)]
  varBase := 16

def smallText : String := "\n".intercalate
  ["name: small", "word_size: 8", "opcodes: \x7b address: '0', compute: '10' \x7d", "formats:",
   "  address: [[opcode, 1], [value, 7]]",
   "  compute: [[opcode, 2], [jump, 1], [comp, 3], [dest, 2]]",
   "comp: \x7b '0': '000', X: '101' \x7d", "dest: \x7b 'null': '00', A: '10' \x7d",
   "jump: \x7b 'null': '0', JMP: '1' \x7d", "symbols: \x7b TOP: 127 \x7d", "var_base: 16"]

theorem small_legible : small.Legible :=
  Descriptor.legible_of (by decide) rfl rfl (by decide) (by decide) rfl rfl (by decide)

theorem decodes_encoded_small :
    Descriptor.ofText "small.yaml" smallText = .ok small ∧ small.Legible ∧
    (∃ w value, ((Instruction.address (.symbol "TOP")).encode small (.ofDescriptor small)).1 = .ok w ∧
      w.toString = "01111111" ∧ Decoded.ofWord small w = .ok (.address value) ∧
      value.toNat = 127) ∧
    ∃ w, ((Instruction.compute "A" "X" "JMP").encode small (.ofDescriptor small)).1 = .ok w ∧
      w.toString = "10110110" ∧ Decoded.ofWord small w =
        .ok (.compute (.literal "101") (.literal "10") (.literal "1")) := by
  have read : Descriptor.ofText "small.yaml" smallText = .ok small := by
    rw [smallText, Descriptor.ofText, Yaml.Node.ofText?, Yaml.Token.ofText?,
      String.toList_intercalate]
    decide +kernel
  obtain ⟨addresses, computations, -⟩ := decodes_encoded (Descriptor.accepted_of_ofText read) small_legible
  refine ⟨read, small_legible, ?_, ?_⟩
  · have encoded : ((Instruction.address (.symbol "TOP")).encode small (.ofDescriptor small)).1 =
        .ok ⟨127, 8⟩ := by decide +kernel
    obtain ⟨v, rest, value, resolved, same, decoded⟩ :=
      addresses _ _ _ _ (Prod.ext encoded rfl)
    refine ⟨_, value, encoded, by decide +kernel, decoded, ?_⟩
    have bound : Operand.resolve (.ofDescriptor small) (.symbol "TOP") =
        .ok (127, .ofDescriptor small) := by rfl
    rw [bound] at resolved
    rw [same, ← (Prod.mk.inj (Except.ok.inj resolved)).1]
    rfl
  · have encoded : ((Instruction.compute "A" "X" "JMP").encode small (.ofDescriptor small)).1 =
        .ok ⟨0xB6, 8⟩ := by decide +kernel
    obtain ⟨c, e, j, hc, he, hj, decoded⟩ := computations _ _ _ _ _ _ (Prod.ext encoded rfl)
    have comp : small.comp.code? "X" = some (.literal "101") := by decide +kernel
    have dest : small.dest.code? "A" = some (.literal "10") := by decide +kernel
    have jump : small.jump.code? "JMP" = some (.literal "1") := by decide +kernel
    obtain rfl := Option.some.inj (hc.symm.trans comp)
    obtain rfl := Option.some.inj (he.symm.trans dest)
    obtain rfl := Option.some.inj (hj.symm.trans jump)
    exact ⟨_, encoded, by decide +kernel, decoded⟩

end HackToolchain
