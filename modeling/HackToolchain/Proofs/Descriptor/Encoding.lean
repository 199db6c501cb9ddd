import HackToolchain.Proofs.Descriptor.Decoding

/-!
# What a valid descriptor encodes

A descriptor that is valid has all that the encoder looks up, as long as a layout holds the fields
of its own shape only and none of them in two widths (`Layout.Regular`).

* `error_of_encode`: why an instruction is not encoded;
* `hasBits_width`: a field is filled with as many bits as it has, but for an operand that is too
  large;
* `valid_encodes`: so an instruction with known mnemonics, or with a literal that fits, becomes a
  word of the machine;
* `irregular_layouts`: neither condition on the layout follows from validity.
-/

namespace HackToolchain

open Assembly (Error Instruction Operand SymbolTable codeOf)

/-- The fields that a word of the shape may have. -/
def Shape.fields (s : Shape) : List Field := .opcode :: s.operands

/-- Fields of the shape only, each in one width. -/
structure Layout.Regular (l : Layout) (s : Shape) : Prop where
  own : ∀ field ∈ l.fields, field.1 ∈ s.fields
  even : ∀ field ∈ l.fields, l.fieldWidth? field.1 = some field.2

instance (l : Layout) (s : Shape) : Decidable (l.Regular s) :=
  decidable_of_iff ((∀ field ∈ l.fields, field.1 ∈ s.fields) ∧
      ∀ field ∈ l.fields, l.fieldWidth? field.1 = some field.2)
    ⟨fun ⟨own, even⟩ => ⟨own, even⟩, fun ⟨own, even⟩ => ⟨own, even⟩⟩

namespace Assembly.Instruction

variable {d : Descriptor} {s next : SymbolTable} {i : Instruction} {e : Error} {b : Bits}

/-! ## Why an instruction is not encoded -/

/-- What can be wrong with a field when the opcode is there. -/
inductive FieldFault (i : Instruction) (f : Field) : Error → Prop
  | foreign (h : f ∉ i.shape.fields) : FieldFault i f (.unexpectedField f i.shape)
  | comp (m : String) : FieldFault i f (.unknownComp m)
  | dest (m : String) : FieldFault i f (.unknownDest m)
  | jump (m : String) : FieldFault i f (.unknownJump m)
  | exhausted : FieldFault i f .addressesExhausted

theorem error_of_codeOf {codes : TwoWay String Bits} {m : String} {unknown : String → Error}
    (h : (codeOf codes m unknown).map (·, s) = .error e) : e = unknown m := by
  cases hc : codes.code? m with
  | some code => simp [codeOf, hc, Except.map] at h
  | none => simpa [codeOf, hc, Except.map, eq_comm] using h

theorem error_of_resolve {operand : Operand} (h : operand.resolve s = .error e) :
    e = .addressesExhausted := by
  cases operand with
  | literal value => cases h
  | symbol name =>
    rw [Operand.resolve] at h
    by_cases bound : name ∈ s.names
    · obtain ⟨symbol, there⟩ := SymbolTable.mem_names.1 bound
      rw [SymbolTable.resolve_of_bound (congrArg (Option.map Symbol.address) there)] at h
      cases h
    · rw [SymbolTable.resolve_of_fresh bound] at h
      split at h
      · cases h
      · exact (Except.error.inj h).symm

/-- Nothing is written into a field of the other shape. -/
theorem fieldBits_of_foreign {f : Field} {width : Nat} (foreign : f ∉ i.shape.fields) :
    i.fieldBits d f width s = .error (.unexpectedField f i.shape) := by
  cases i with
  | address =>
    cases f with
    | opcode | value => simp [shape, Shape.fields, Shape.operands] at foreign
    | comp | dest | jump => rfl
  | compute =>
    cases f with
    | opcode | comp | dest | jump => simp [shape, Shape.fields, Shape.operands] at foreign
    | value => rfl

theorem own_of_hasBits {field : Field × Nat} (h : i.HasBits d s field b) :
    field.1 ∈ i.shape.fields := by
  by_contra foreign
  obtain ⟨table, h⟩ := h
  rw [fieldBits_of_foreign foreign] at h
  cases h

theorem fault_of_fieldBits {f : Field} {width : Nat} (opcode : (d.opcode? i.shape).isSome)
    (h : i.fieldBits d f width s = .error e) : FieldFault i f e := by
  by_cases own : f ∈ i.shape.fields
  case neg =>
    rw [fieldBits_of_foreign own] at h
    exact Except.error.inj h ▸ .foreign own
  obtain ⟨code, opcode⟩ := Option.isSome_iff_exists.1 opcode
  cases i with
  | address operand =>
    cases f with
    | opcode => simp [fieldBits, opcode] at h
    | value =>
      cases hr : operand.resolve s with
      | ok r => simp [fieldBits, hr, Except.map] at h
      | error e' =>
        have same : e' = e := by simpa [fieldBits, hr, Except.map] using h
        rw [← same, error_of_resolve hr]
        exact .exhausted
    | comp | dest | jump => simp [shape, Shape.fields, Shape.operands] at own
  | compute dest comp jump =>
    cases f with
    | opcode => simp [fieldBits, opcode] at h
    | comp => exact error_of_codeOf h ▸ .comp comp
    | dest => exact error_of_codeOf h ▸ .dest dest
    | jump => exact error_of_codeOf h ▸ .jump jump
    | value => simp [shape, Shape.fields, Shape.operands] at own

/-- An encoding fails at a field, or its word has the wrong width. -/
theorem error_of_encode {opcode : Bits} {layout : Layout} (shaped : d.Shaped i.shape opcode layout)
    (h : i.encode d s = (.error e, next)) :
    (∃ field ∈ layout.fields, FieldFault i field.1 e) ∨ e = .uncountableWord ∨
      ∃ word, encodeFields d i layout.fields .empty s = (.ok word, next) ∧
        word.width ≠ d.wordSize ∧ e = .wordWidth word d.wordSize := by
  have known : (d.opcode? i.shape).isSome := by rw [shaped.opcode_eq]; rfl
  cases fault_of_encode h with
  | layout none => cases none.symm.trans shaped.layout_eq
  | field there inside failed =>
    obtain rfl := Option.some.inj (there.symm.trans shaped.layout_eq)
    exact .inl ⟨_, inside, fault_of_fieldBits known failed⟩
  | uncountable _ _ => exact .inr (.inl rfl)
  | width there made wrong =>
    obtain rfl := Option.some.inj (there.symm.trans shaped.layout_eq)
    exact .inr (.inr ⟨_, made, wrong, rfl⟩)

/-! ## Fields that are filled -/

section

variable {layout : Layout}

/-- A field has as many bits as it was given room for, but for an operand that is too large. -/
theorem hasBits_width (valid : d.validate = .ok ()) (hl : d.layout? i.shape = some layout)
    (regular : layout.Regular i.shape) {field : Field × Nat} (there : field ∈ layout.fields)
    (h : i.HasBits d s field b) :
    b.width = field.2 ∨ ∃ operand v rest, i = .address operand ∧ field.1 = .value ∧
      operand.resolve s = .ok (v, rest) ∧ 2 ^ field.2 ≤ v.toNat := by
  obtain ⟨f, width⟩ := field
  obtain ⟨-, comps, dests, jumps⟩ := Descriptor.validate_eq_ok.1 valid
  have given : layout.fieldWidth? f = some width := regular.even _ there
  cases f with
  | opcode =>
    obtain ⟨opcode, shaped⟩ := Descriptor.shaped_of_layout valid hl
    obtain rfl : opcode = b := by simpa [opcode_of_hasBits h] using shaped.opcode_eq.symm
    rw [shaped.opcodeWidth, Option.some.injEq] at given
    exact .inl given
  | value =>
    cases i with
    | compute => cases h.choose_spec
    | address operand =>
      obtain ⟨v, rest, resolved, rfl⟩ := value_of_hasBits h
      by_cases small : v.toNat < 2 ^ width
      · exact .inl (Bits.width_ofVal small)
      · exact .inr ⟨operand, v, rest, rfl, rfl, resolved, Nat.le_of_not_lt small⟩
  | comp =>
    cases i with
    | address => cases h.choose_spec
    | compute => exact .inl (Descriptor.width_of_code comps hl given (codes_of_hasBits.1 h))
  | dest =>
    cases i with
    | address => cases h.choose_spec
    | compute => exact .inl (Descriptor.width_of_code dests hl given (codes_of_hasBits.2.1 h))
  | jump =>
    cases i with
    | address => cases h.choose_spec
    | compute => exact .inl (Descriptor.width_of_code jumps hl given (codes_of_hasBits.2.2 h))

/-- Fields that are filled to their widths make a word of all of them together. -/
theorem encodeFields_of_bits {fields : List (Field × Nat)} {word : Bits}
    (bits : ∀ field ∈ fields,
      ∃ b, i.fieldBits d field.1 field.2 s = .ok (b, s) ∧ b.width = field.2)
    (countable : word.width + (fields.map Prod.snd).sum < UInt64.size) :
    ∃ w, encodeFields d i fields word s = (.ok w, s) ∧
      w.width = word.width + (fields.map Prod.snd).sum := by
  induction fields generalizing word with
  | nil => exact ⟨word, rfl, rfl⟩
  | cons field rest ih =>
    obtain ⟨b, here, width⟩ := bits field List.mem_cons_self
    rw [List.map_cons, List.sum_cons] at countable
    have longer : (word ++ b).width = word.width + field.2 := by rw [Bits.width_append, width]
    obtain ⟨w, done, total⟩ : ∃ w, encodeFields d i rest (word ++ b) s = (.ok w, s) ∧
        w.width = (word ++ b).width + (rest.map Prod.snd).sum :=
      ih (fun other hother => bits other (List.mem_cons_of_mem _ hother)) (by omega)
    have short : (word ++ b).width < UInt64.size := by omega
    refine ⟨w, ?_, ?_⟩
    · rw [encodeFields, here]
      simp only [if_pos short, done]
    · rw [total, longer, List.map_cons, List.sum_cons, Nat.add_assoc]

theorem encode_of_bits {opcode : Bits} (shaped : d.Shaped i.shape opcode layout)
    (bits : ∀ field ∈ layout.fields,
      ∃ b, i.fieldBits d field.1 field.2 s = .ok (b, s) ∧ b.width = field.2) :
    ∃ w, i.encode d s = (.ok w, s) ∧ w.width = d.wordSize := by
  have countable : layout.width < UInt64.size := by simpa [Layout.countable] using shaped.countable
  rw [Layout.width_eq] at countable
  have none : Bits.empty.width = 0 := rfl
  obtain ⟨w, done, width⟩ : ∃ w, encodeFields d i layout.fields .empty s = (.ok w, s) ∧
      w.width = Bits.empty.width + (layout.fields.map Prod.snd).sum :=
    encodeFields_of_bits bits (by omega)
  have filled : w.width = d.wordSize := by
    rw [width, none, Nat.zero_add, ← Layout.width_eq, shaped.width]
  exact ⟨w, encode_eq_ok.2 ⟨layout, shaped.layout_eq, done, filled⟩, filled⟩

/-- The fields of a shape in a layout that is regular for it: the opcode is filled, and so is the
layout where the operands are. -/
theorem encode_of_operands (valid : d.validate = .ok ()) (hl : d.layout? i.shape = some layout)
    (regular : layout.Regular i.shape)
    (operands : ∀ f ∈ i.shape.operands, ∀ width, layout.fieldWidth? f = some width →
      ∃ b, i.fieldBits d f width s = .ok (b, s) ∧ b.width = width) :
    ∃ w, i.encode d s = (.ok w, s) ∧ w.width = d.wordSize := by
  obtain ⟨opcode, shaped⟩ := Descriptor.shaped_of_layout valid hl
  refine encode_of_bits shaped ?_
  rintro ⟨f, width⟩ there
  have given := regular.even _ there
  rcases List.mem_cons.1 (regular.own _ there) with rfl | operand
  · refine ⟨opcode, by simp [fieldBits, shaped.opcode_eq], ?_⟩
    rw [shaped.opcodeWidth, Option.some.injEq] at given
    exact given
  · exact operands f operand width given

/-- Known mnemonics make a word. -/
theorem encode_compute (valid : d.validate = .ok ()) (hl : d.layout? .compute = some layout)
    (regular : layout.Regular .compute) {dest comp jump : String} {c e j : Bits}
    (hc : d.comp.code? comp = some c) (he : d.dest.code? dest = some e)
    (hj : d.jump.code? jump = some j) :
    ∃ w, (compute dest comp jump).encode d s = (.ok w, s) ∧ w.width = d.wordSize := by
  obtain ⟨-, comps, dests, jumps⟩ := Descriptor.validate_eq_ok.1 valid
  refine encode_of_operands valid hl regular ?_
  intro f operand width given
  have operand : f = .comp ∨ f = .dest ∨ f = .jump := by
    simpa [shape, Shape.operands] using operand
  rcases operand with rfl | rfl | rfl
  · exact ⟨c, by simp [fieldBits, codeOf, hc, Except.map], Descriptor.width_of_code comps hl given hc⟩
  · exact ⟨e, by simp [fieldBits, codeOf, he, Except.map], Descriptor.width_of_code dests hl given he⟩
  · exact ⟨j, by simp [fieldBits, codeOf, hj, Except.map], Descriptor.width_of_code jumps hl given hj⟩

/-- A literal that its field has room for makes a word. -/
theorem encode_literal (valid : d.validate = .ok ()) (hl : d.layout? .address = some layout)
    (regular : layout.Regular .address) {v : BitVec 64}
    (small : ∀ width, layout.fieldWidth? .value = some width → v.toNat < 2 ^ width) :
    ∃ w, (address (.literal v)).encode d s = (.ok w, s) ∧ w.width = d.wordSize := by
  refine encode_of_operands valid hl regular ?_
  intro f operand width given
  obtain rfl : f = .value := by simpa [shape, Shape.operands] using operand
  exact ⟨Bits.ofVal v width, rfl, Bits.width_ofVal (small width given)⟩

/-- A word has the wrong width for an operand that is too large only. -/
theorem large_of_wordWidth (valid : d.validate = .ok ()) (hl : d.layout? i.shape = some layout)
    (regular : layout.Regular i.shape) {n : Nat}
    (h : i.encode d s = (.error (.wordWidth b n), next)) :
    ∃ operand v rest width, i = .address operand ∧ operand.resolve s = .ok (v, rest) ∧
      layout.fieldWidth? .value = some width ∧ 2 ^ width ≤ v.toNat := by
  obtain ⟨opcode, shaped⟩ := Descriptor.shaped_of_layout valid hl
  rcases error_of_encode shaped h with ⟨_, _, fault⟩ | wide | ⟨word, made, wrong, -⟩
  · cases fault
  · cases wide
  by_contra none
  obtain ⟨pieces, all, rfl⟩ := encodeFields_pieces made
  obtain ⟨length, bits⟩ := List.forall₂_iff_zip.1 all
  have widths : List.Forall₂ (fun field p => p.width = field.2) layout.fields pieces := by
    refine List.forall₂_iff_zip.2 ⟨length, fun {field p} pair => ?_⟩
    have there : field ∈ layout.fields := (List.of_mem_zip pair).1
    rcases hasBits_width valid hl regular there (bits pair) with
      filled | ⟨operand, v, rest, address, value, resolved, large⟩
    · exact filled
    · exact absurd ⟨operand, v, rest, field.2, address, resolved,
        value ▸ regular.even _ there, large⟩ none
  have same : layout.fields.map Prod.snd = pieces.map Bits.width := by
    rw [← List.forall₂_eq_eq_eq, List.forall₂_map_left_iff, List.forall₂_map_right_iff]
    exact widths.imp fun _ _ => Eq.symm
  apply wrong
  rw [← shaped.width, Layout.width_eq, same]
  exact Bits.width_concat pieces

end

end Assembly.Instruction

section

variable {d : Descriptor}

/-- **A valid descriptor is enough to encode with.** Opcodes and layouts are always found, and a
field is unexpected only where the layout has a field of the other shape; no instruction is
encoded under such a layout. Under a layout that is regular for its shape, known mnemonics and
literals that fit make words of the machine, and only an operand that is too large makes a word
of another width. -/
theorem valid_encodes (valid : d.validate = .ok ()) :
    (∀ (i : Instruction) s e next, i.encode d s = (.error e, next) →
      (∀ shape, e ≠ .noOpcode shape ∧ e ≠ .noLayout shape) ∧
      ∀ f shape, e = .unexpectedField f shape → shape = i.shape ∧ f ∉ shape.fields ∧
        ∃ layout, d.layout? shape = some layout ∧ f ∈ layout.fields.map Prod.fst) ∧
    (∀ (i : Instruction) layout f, d.layout? i.shape = some layout →
      f ∈ layout.fields.map Prod.fst → f ∉ i.shape.fields →
      ∀ s w next, i.encode d s ≠ (.ok w, next)) ∧
    (∀ layout, d.layout? .compute = some layout → layout.Regular .compute →
      ∀ dest comp jump, (d.dest.code? dest).isSome → (d.comp.code? comp).isSome →
        (d.jump.code? jump).isSome → ∀ s,
      ∃ w, (Instruction.compute dest comp jump).encode d s = (.ok w, s) ∧ w.width = d.wordSize) ∧
    (∀ layout, d.layout? .address = some layout → layout.Regular .address →
      ∀ v : BitVec 64, (∀ width, layout.fieldWidth? .value = some width → v.toNat < 2 ^ width) →
      ∀ s, ∃ w, (Instruction.address (.literal v)).encode d s = (.ok w, s) ∧
        w.width = d.wordSize) ∧
    ∀ (i : Instruction) layout, d.layout? i.shape = some layout → layout.Regular i.shape →
      ∀ s word n next, i.encode d s = (.error (.wordWidth word n), next) →
      ∃ operand v rest width, i = .address operand ∧ operand.resolve s = .ok (v, rest) ∧
        layout.fieldWidth? .value = some width ∧ 2 ^ width ≤ v.toNat := by
  refine ⟨fun i s e next h => ?_, fun i layout f hl there foreign s w next h => ?_,
    fun layout hl regular dest comp jump he hc hj s => ?_,
    fun layout hl regular v small s => Instruction.encode_literal valid hl regular small,
    fun i layout hl regular s word n next h => Instruction.large_of_wordWidth valid hl regular h⟩
  · obtain ⟨opcode, layout, shaped⟩ := (Descriptor.validate_eq_ok.1 valid).1 i.shape
    rcases Instruction.error_of_encode shaped h with
      ⟨field, there, fault⟩ | rfl | ⟨word, -, -, rfl⟩
    · refine ⟨fun shape => by cases fault <;> simp, ?_⟩
      rintro f shape rfl
      cases fault with
      | foreign foreign =>
        exact ⟨rfl, foreign, layout, shaped.layout_eq, List.mem_map_of_mem there⟩
    · exact ⟨fun shape => by simp, fun f shape h => by cases h⟩
    · exact ⟨fun shape => by simp, fun f shape h => by cases h⟩
  · obtain ⟨layout', pieces, hl', all, -, -⟩ := Instruction.encode_pieces h
    obtain rfl : layout' = layout := by simpa [hl] using hl'.symm
    obtain ⟨length, bits⟩ := List.forall₂_iff_zip.1 all
    rw [← List.map_fst_zip (Nat.le_of_eq length), List.map_map] at there
    obtain ⟨⟨field, b⟩, pair, rfl⟩ := List.mem_map.1 there
    exact foreign (Instruction.own_of_hasBits (bits pair))
  · obtain ⟨c, hc⟩ := Option.isSome_iff_exists.1 hc
    obtain ⟨e, he⟩ := Option.isSome_iff_exists.1 he
    obtain ⟨j, hj⟩ := Option.isSome_iff_exists.1 hj
    exact Instruction.encode_compute valid hl regular hc he hj

/-- Seven bits hold 127 and no more. -/
theorem valid_encodes_small :
    small.validate = .ok () ∧
    (∃ w, (Instruction.compute "A" "X" "JMP").encode small (.ofDescriptor small) =
      (.ok w, .ofDescriptor small) ∧ w.width = 8) ∧
    (∃ w, (Instruction.address (.literal 127)).encode small (.ofDescriptor small) =
      (.ok w, .ofDescriptor small) ∧ w.width = 8) ∧
    ((Instruction.address (.literal 128)).encode small (.ofDescriptor small)).1 =
      .error (.wordWidth ⟨128, 9⟩ 8) ∧
    ∃ operand v rest width, Instruction.address (.literal 128) = .address operand ∧
      operand.resolve (.ofDescriptor small) = .ok (v, rest) ∧
      (⟨[(.opcode, 1), (.value, 7)]⟩ : Layout).fieldWidth? .value = some width ∧
      2 ^ width ≤ v.toNat := by
  have valid : small.validate = .ok () := by decide +kernel
  have known : (small.dest.code? "A").isSome ∧ (small.comp.code? "X").isSome ∧
      (small.jump.code? "JMP").isSome := by decide +kernel
  have wide : ((Instruction.address (.literal 128)).encode small (.ofDescriptor small)).1 =
      .error (.wordWidth ⟨128, 9⟩ 8) := by decide +kernel
  obtain ⟨-, -, computations, literals, widths⟩ := valid_encodes valid
  refine ⟨valid, computations _ rfl (by decide) _ _ _ known.1 known.2.1 known.2.2 _,
    literals _ rfl (by decide) 127 ?_ _, wide,
    widths _ _ rfl (by decide) _ _ _ _ (Prod.ext wide rfl)⟩
  intro width given
  obtain rfl : 7 = width := Option.some.inj given
  decide

/-- A machine of four bits, with the given fields behind the opcode of a computation. -/
def tiny (fields : List (Field × Nat)) : Descriptor where
  name := "tiny"
  wordSize := 4
  opcodes := .ofList [(.address, .literal "0"), (.compute, .literal "1")]
  layouts := .ofList
    [(.address, ⟨[(.opcode, 1), (.value, 3)]⟩), (.compute, ⟨(.opcode, 1) :: fields⟩)]
  comp := .ofList [("0", .literal "0"), ("1", .literal "1")]
  dest := .ofList [("null", .literal "0"), ("A", .literal "1")]
  jump := .ofList [("null", .literal "0"), ("JMP", .literal "1")]
  symbols := .empty
  varBase := 16

/-- A field without bits is as good as none for the width of a layout: one of the other shape is
still refused, and one that was there before is filled again. -/
theorem irregular_layouts :
    (∀ fields ∈ [[(Field.comp, 1), (.dest, 1), (.jump, 1), (.value, 0)],
        [(.comp, 1), (.dest, 1), (.jump, 1), (.comp, 0)]],
      (tiny fields).validate = .ok () ∧ ((tiny fields).dest.code? "null").isSome ∧
        ((tiny fields).comp.code? "0").isSome ∧ ((tiny fields).jump.code? "null").isSome) ∧
    ((Instruction.compute "null" "0" "null").encode
        (tiny [(.comp, 1), (.dest, 1), (.jump, 1), (.value, 0)]) ⟨.empty, 16⟩).1 =
      .error (.unexpectedField .value .compute) ∧
    ((Instruction.compute "null" "0" "null").encode
        (tiny [(.comp, 1), (.dest, 1), (.jump, 1), (.comp, 0)]) ⟨.empty, 16⟩).1 =
      .error (.wordWidth ⟨16, 5⟩ 4) := by
  decide +kernel

end

end HackToolchain
