import Mathlib.Algebra.Order.BigOperators.Group.List
import Mathlib.Data.Nat.Digits.Lemmas
import HackToolchain.Proofs.Descriptor.Decoding

/-!
# The text of a word

* `Bits.toChars_ofVal`: the bits of a value are its binary digits behind zeros;
* `fieldText?_of_hasBits`: the bits of a field say what the field says;
* `encoded_text`: so the text of a word is that of its fields, one after the other, just when the
  digits in front of the last 64 are zeros.
-/

namespace HackToolchain

namespace Bits

/-- A number in binary, with zeros in front up to the width. Zero has no digits of its own. -/
def binary (n width : Nat) : List Char :=
  List.leftpad width '0' ((Nat.digits 2 n).reverse.map fun digit => if digit = 0 then '0' else '1')

theorem length_binaryDigits (v : BitVec 64) : (Nat.digits 2 v.toNat).length = bitLength v := by
  have least : ∀ n, (Nat.digits 2 v.toNat).length ≤ n ↔ bitLength v ≤ n := fun n =>
    (Nat.digits_length_le_iff (by decide) _).trans bitLength_le.symm
  exact Nat.le_antisymm ((least _).2 (Nat.le_refl _)) ((least _).1 (Nat.le_refl _))

/-- The bits of a number are its digits. -/
theorem binaryDigit_eq (v : BitVec 64) {i : Nat} (h : i < (Nat.digits 2 v.toNat).length) :
    (if (Nat.digits 2 v.toNat)[i] = 0 then '0' else '1') = if v.getLsbD i then '1' else '0' := by
  have digit : (Nat.digits 2 v.toNat)[i] = v.toNat / 2 ^ i % 2 := by
    rw [← Nat.getD_digits v.toNat i (Nat.le_refl 2), List.getD_eq_getElem?_getD,
      List.getElem?_eq_getElem h, Option.getD_some]
  have bit : v.getLsbD i = decide (v.toNat / 2 ^ i % 2 = 1) := Nat.testBit_eq_decide_div_mod_eq
  rw [digit, bit]
  rcases Nat.mod_two_eq_zero_or_one (v.toNat / 2 ^ i) with zero | one
  · simp [zero]
  · simp [one]

theorem bounded_ofVal (v : BitVec 64) (width : Nat) : (ofVal v width).Bounded :=
  bitLength_le.1 (Nat.le_max_right ..)

/-- **A value is written in binary.** -/
theorem toChars_ofVal (v : BitVec 64) (width : Nat) :
    (ofVal v width).toChars = binary v.toNat width := by
  have size := length_binaryDigits v
  have total : (binary v.toNat width).length = max width (bitLength v) := by
    simp [binary, List.leftpad, size]
    omega
  rw [(bounded_ofVal v width).toChars]
  apply List.ext_getElem
  · rw [length_digits, total]
    rfl
  intro i hi hi'
  rw [total] at hi'
  rw [getElem_digits]
  change (if v.getLsbD (max width (bitLength v) - 1 - i) then '1' else '0') = _
  simp only [binary, List.leftpad, List.length_map, List.length_reverse, size]
  by_cases front : i < width - bitLength v
  · have above : v.getLsbD (max width (bitLength v) - 1 - i) = false :=
      Nat.testBit_lt_two_pow (bitLength_le.1 (by omega))
    rw [List.getElem_append_left (by rwa [List.length_replicate]), List.getElem_replicate, above]
    rfl
  · have place : (Nat.digits 2 v.toNat).length - 1 - (i - (width - bitLength v)) =
        max width (bitLength v) - 1 - i := by omega
    rw [List.getElem_append_right (by rw [List.length_replicate]; omega), List.getElem_map,
      List.getElem_reverse, binaryDigit_eq]
    simp only [List.length_replicate, place]

end Bits

/-! ## Texts of fields -/

open Assembly (Instruction Operand SymbolTable)

/-- What a field says in a word: the opcode, the operand in binary, or a code of the tables. -/
def Assembly.Instruction.fieldText? (d : Descriptor) (s : SymbolTable) (i : Instruction)
    (field : Field × Nat) : Option (List Char) :=
  match field.1, i with
  | .opcode, i => (d.opcode? i.shape).map Bits.toChars
  | .value, .address operand =>
    (operand.resolve s).toOption.map fun v => Bits.binary v.1.toNat field.2
  | .comp, .compute _ comp _ => (d.comp.code? comp).map Bits.toChars
  | .dest, .compute dest _ _ => (d.dest.code? dest).map Bits.toChars
  | .jump, .compute _ _ jump => (d.jump.code? jump).map Bits.toChars
  | _, _ => none

section

variable {d : Descriptor} {s next : SymbolTable} {i : Instruction} {field : Field × Nat}
  {b w : Bits}

/-- The bits of a field are within their width and say what the field says. -/
theorem fieldText?_of_hasBits (accepted : d.Accepted) (h : i.HasBits d s field b) :
    b.Bounded ∧ i.fieldText? d s field = some b.toChars := by
  obtain ⟨f, width⟩ := field
  have code {codes : TwoWay String Bits} {m : String} (fit : ∀ e ∈ codes.entries, e.2.Fits)
      (known : codes.code? m = some b) :
      b.Bounded ∧ (codes.code? m).map Bits.toChars = some b.toChars :=
    ⟨(fit _ (TwoWay.code?_eq_some_iff.1 known)).bounded, by rw [known, Option.map_some]⟩
  cases f with
  | opcode =>
    have known := Assembly.Instruction.opcode_of_hasBits h
    have fits := accepted.opcodes _ (Table.get?_eq_some_iff.1 known)
    exact ⟨fits.bounded, by simp only [Instruction.fieldText?, known, Option.map_some]⟩
  | value =>
    cases i with
    | compute => cases h.choose_spec
    | address operand =>
      obtain ⟨v, rest, resolved, rfl⟩ := Assembly.Instruction.value_of_hasBits h
      refine ⟨Bits.bounded_ofVal v width, ?_⟩
      simp only [Bits.toChars_ofVal, Instruction.fieldText?, resolved, Except.toOption,
        Option.map_some]
  | comp =>
    cases i with
    | address => cases h.choose_spec
    | compute => exact code accepted.comp (Assembly.Instruction.codes_of_hasBits.1 h)
  | dest =>
    cases i with
    | address => cases h.choose_spec
    | compute => exact code accepted.dest (Assembly.Instruction.codes_of_hasBits.2.1 h)
  | jump =>
    cases i with
    | address => cases h.choose_spec
    | compute => exact code accepted.jump (Assembly.Instruction.codes_of_hasBits.2.2 h)

/-- The pieces that a layout is filled with are the texts of its fields. -/
theorem texts_of_pieces (accepted : d.Accepted) {fields : List (Field × Nat)} {pieces : List Bits}
    (all : List.Forall₂ (i.HasBits d s) fields pieces) :
    (∀ p ∈ pieces, p.Bounded) ∧
      fields.mapM (i.fieldText? d s) = some (pieces.map Bits.toChars) := by
  induction all with
  | nil => exact ⟨by simp, rfl⟩
  | cons here _ ih =>
    obtain ⟨bounded, text⟩ := fieldText?_of_hasBits accepted here
    obtain ⟨rest, texts⟩ := ih
    refine ⟨List.forall_mem_cons.2 ⟨bounded, rest⟩, ?_⟩
    rw [List.mapM_cons, text, texts]
    rfl

/-- **A word says its fields, as far as it goes.** The descriptor is accepted, as any is that was
read. Each field of the layout has its text, and the texts together are one word long. They are the
word when it has at most 64 digits; a longer word has the last 64 digits of them behind zeros. -/
theorem encoded_text (accepted : d.Accepted) (h : i.encode d s = (.ok w, next)) :
    ∃ layout texts, d.layout? i.shape = some layout ∧
      layout.fields.mapM (i.fieldText? d s) = some texts ∧ texts.flatten.length = d.wordSize ∧
      w.toString.toList.length = d.wordSize ∧
      (d.wordSize ≤ 64 → w.toString.toList = texts.flatten) ∧
      (d.wordSize < UInt32.size →
        w.toString.toList = Bits.clipped texts.flatten ∧
        (w.toString.toList = texts.flatten ↔
          ∀ c ∈ texts.flatten.take (d.wordSize - 64), c = '0')) := by
  obtain ⟨layout, pieces, hl, all, rfl, width⟩ := Assembly.Instruction.encode_pieces h
  obtain ⟨bounded, texts⟩ := texts_of_pieces accepted all
  have whole : (pieces.map Bits.toChars).flatten.length = d.wordSize := by
    rw [← List.flatMap_def, Bits.length_texts bounded, width]
  have clip : d.wordSize < UInt32.size →
      (Bits.concat pieces).toChars = Bits.clipped (pieces.map Bits.toChars).flatten := by
    intro short
    rw [Bits.toChars_concat_clipped bounded, List.flatMap_def]
    intro p hp
    rw [← width, Bits.width_concat] at short
    exact Nat.lt_of_le_of_lt (List.single_le_sum (by simp) _ (List.mem_map_of_mem hp)) short
  simp only [Bits.toString, String.toList_ofList]
  refine ⟨layout, _, hl, texts, whole, ?_, ?_, fun short => ⟨clip short, ?_⟩⟩
  · rw [(Bits.Bounded.concat bounded).length_toChars, width]
  · intro small
    rw [clip (Nat.lt_of_le_of_lt small (by decide)), Bits.clipped_of_short (by rwa [whole])]
  · rw [clip short, Bits.clipped_eq_iff, whole]

end

/-- A machine whose words have one bit more than a pattern keeps. -/
def wide : Descriptor where
  name := "wide"
  wordSize := 65
  opcodes := .ofList [(.address, .literal "1"), (.compute, ⟨0, 62⟩)]
  layouts := .ofList
    [(.address, ⟨[(.opcode, 1), (.value, 64)]⟩),
     (.compute, ⟨[(.opcode, 62), (.comp, 1), (.dest, 1), (.jump, 1)]⟩)]
  comp := .ofList [("0", .literal "0"), ("1", .literal "1")]
  dest := .ofList [("null", .literal "0"), ("A", .literal "1")]
  jump := .ofList [("null", .literal "0"), ("JMP", .literal "1")]
  symbols := .ofList []
  varBase := 16

def wideText : String := "\n".intercalate
  ["name: wide", "word_size: 65", "opcodes:", "  address: '1'",
   "  compute: '00000000000000000000000000000000000000000000000000000000000000'", "formats:",
   "  address: [[opcode, 1], [value, 64]]",
   "  compute: [[opcode, 62], [comp, 1], [dest, 1], [jump, 1]]",
   "comp: \x7b '0': '0', '1': '1' \x7d", "dest: \x7b 'null': '0', A: '1' \x7d",
   "jump: \x7b 'null': '0', JMP: '1' \x7d", "symbols: \x7b\x7d", "var_base: 16"]

theorem wide_read : Descriptor.ofText "wide.yaml" wideText = .ok wide := by
  rw [wideText, Descriptor.ofText, Yaml.Node.ofText?, Yaml.Token.ofText?,
    String.toList_intercalate]
  decide +kernel

theorem encoded_text_wide :
    ∃ w, ((Instruction.compute "A" "1" "JMP").encode wide (.ofDescriptor wide)).1 = .ok w ∧
      w.toString.toList = List.replicate 62 '0' ++ ['1', '1', '1'] := by
  have encoded : ((Instruction.compute "A" "1" "JMP").encode wide (.ofDescriptor wide)).1 =
      .ok ⟨7, 65⟩ := by decide +kernel
  obtain ⟨layout, texts, given, said, -, -, -, far⟩ :=
    encoded_text (Descriptor.accepted_of_ofText wide_read) (Prod.ext encoded rfl)
  obtain rfl := Option.some.inj given
  have known : [(Field.opcode, 62), (.comp, 1), (.dest, 1), (.jump, 1)].mapM
      ((Instruction.compute "A" "1" "JMP").fieldText? wide (.ofDescriptor wide)) =
        some [List.replicate 62 '0', ['1'], ['1'], ['1']] := by decide +kernel
  obtain rfl := Option.some.inj (said.symm.trans known)
  have front : [List.replicate 62 '0', ['1'], ['1'], ['1']].flatten.take (wide.wordSize - 64) =
      ['0'] := rfl
  refine ⟨_, encoded, (far (by decide)).2.2 ?_⟩
  rw [front]
  simp

/-- The fields of the word are the opcode and five in sixty-four digits, and the word has a zero
in place of the opcode. -/
theorem wide_word_without_opcode :
    ∃ w texts, Descriptor.ofText "wide.yaml" wideText = .ok wide ∧
      ((Instruction.address (.literal 5)).encode wide (.ofDescriptor wide)).1 = .ok w ∧
      (wide.layout? .address).bind (fun layout => layout.fields.mapM
        ((Instruction.address (.literal 5)).fieldText? wide (.ofDescriptor wide))) = some texts ∧
      texts.flatten = '1' :: List.replicate 61 '0' ++ ['1', '0', '1'] ∧
      w.toString.toList = '0' :: List.replicate 61 '0' ++ ['1', '0', '1'] :=
  ⟨⟨5, 65⟩, [['1'], List.replicate 61 '0' ++ ['1', '0', '1']], wide_read, by decide +kernel,
    by decide +kernel, rfl, by decide +kernel⟩

end HackToolchain
