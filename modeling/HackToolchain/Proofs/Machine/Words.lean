import HackToolchain.Proofs.Assembly.TwoPass
import HackToolchain.Proofs.Descriptor.Decoding
import HackToolchain.Proofs.Machine.Loading

/-!
# Words of the Hack machine

* `encode_literal`, `encode_compute`: the words of the machine;
* `ofWord_encoded`: what a word that was encoded is decoded to;
* `load_of_means`: the ROM of an assembled program holds, for each instruction, its value or
  its three codes.
-/

namespace HackToolchain

open Assembly (Instruction Program Reading)

/-- What the machine has in the place of an instruction without names. -/
def imageOf : Instruction → Decoded
  | .address (.literal v) => .address (v.setWidth 32)
  | .address (.symbol _) => .address 0
  | .compute dest comp jump =>
    .compute ((hack.comp.code? comp).getD .empty) ((hack.dest.code? dest).getD .empty)
      ((hack.jump.code? jump).getD .empty)

theorem code_fits :
    (∀ e ∈ hack.comp.entries, e.2.width = 7 ∧ e.2.val.toNat < 2 ^ 7) ∧
    (∀ e ∈ hack.dest.entries, e.2.width = 3 ∧ e.2.val.toNat < 2 ^ 3) ∧
      ∀ e ∈ hack.jump.entries, e.2.width = 3 ∧ e.2.val.toNat < 2 ^ 3 := by
  decide +kernel

theorem Bits.fits_of {b : Bits} {n : Nat} (h : b.width = n ∧ b.val.toNat < 2 ^ n)
    (small : n ≤ 64) : b.Fits := by
  obtain ⟨rfl, value⟩ := h
  exact ⟨small, value⟩

theorem hack_accepted : hack.Accepted where
  valid := by decide +kernel
  opcodes := by
    have fit : ∀ e ∈ hack.opcodes.entries, e.2.width ≤ 64 ∧ e.2.val.toNat < 2 ^ e.2.width := by
      decide +kernel
    exact fun e he => ⟨(fit e he).1, (fit e he).2⟩
  comp := fun e he => Bits.fits_of (code_fits.1 e he) (by decide)
  dest := fun e he => Bits.fits_of (code_fits.2.1 e he) (by decide)
  jump := fun e he => Bits.fits_of (code_fits.2.2 e he) (by decide)

theorem hack_legible : hack.Legible :=
  Descriptor.legible_of (by decide) rfl rfl (by decide) (by decide) rfl rfl (by decide)

section

variable {table : Assembly.SymbolTable} {w : Bits}

/-- A value of 15 bits is its own word; a wider one makes a word that is too wide. -/
theorem encode_literal (v : BitVec 64) :
    ((Instruction.address (.literal v)).encode hack table).1 =
      if v.toNat < 2 ^ 15 then .ok ⟨v, 16⟩
      else .error (.wordWidth ⟨v, 1 + Bits.bitLength v⟩ 16) := by
  have layout : hack.layout? .address = some ⟨[(.opcode, 1), (.value, 15)]⟩ := rfl
  have opcode : hack.opcode? .address = some ⟨0, 1⟩ := rfl
  have front : Bits.empty ++ (⟨0, 1⟩ : Bits) = ⟨0, 1⟩ := rfl
  have long : Bits.bitLength v ≤ 64 := Bits.bitLength_le.2 v.isLt
  have word : (⟨0, 1⟩ : Bits) ++ Bits.ofVal v 15 = ⟨v, 1 + max 15 (Bits.bitLength v)⟩ := by
    change (⟨0#64 <<< Bits.shiftAmount _ ||| v, 1 + max 15 (Bits.bitLength v)⟩ : Bits) = _
    rw [BitVec.zero_shiftLeft, BitVec.zero_or]
  have countable : 1 + max 15 (Bits.bitLength v) < UInt64.size := by
    have size : UInt64.size = 2 ^ 64 := rfl
    omega
  have checked : ((Instruction.address (.literal v)).encode hack table).1 =
      Instruction.checkWidth hack ⟨v, 1 + max 15 (Bits.bitLength v)⟩ := by
    simp only [Instruction.encode, Instruction.shape, layout, Instruction.encodeFields,
      Instruction.fieldBits, opcode, front, Assembly.Operand.resolve, Except.map, word,
      if_pos countable]
    rfl
  rw [checked, Instruction.checkWidth]
  by_cases small : v.toNat < 2 ^ 15
  · rw [if_pos small, Nat.max_eq_left (Bits.bitLength_le.2 small)]
    rfl
  · have wide : 15 < Bits.bitLength v := Nat.lt_of_not_le (mt Bits.bitLength_le.1 small)
    have size : hack.wordSize = 16 := rfl
    rw [if_neg small, Nat.max_eq_right (Nat.le_of_lt wide), if_neg (by rw [size]; dsimp only; omega)]
    rfl

/-- A value that is encoded has 15 bits, and the word is that value. -/
theorem encoded_address {v : BitVec 64}
    (h : ((Instruction.address (.literal v)).encode hack table).1 = .ok w) :
    v.toNat < 2 ^ 15 ∧ w = ⟨v, 16⟩ := by
  rw [encode_literal] at h
  split at h
  · rename_i small
    exact ⟨small, (Except.ok.inj h).symm⟩
  · cases h

/-- The parts of a computation are looked up one after the other, and the word is made of
their codes. -/
theorem encode_compute (dest comp jump : String) :
    ((Instruction.compute dest comp jump).encode hack table).1 =
      match hack.comp.code? comp, hack.dest.code? dest, hack.jump.code? jump with
      | none, _, _ => .error (.unknownComp comp)
      | some _, none, _ => .error (.unknownDest dest)
      | some _, some _, none => .error (.unknownJump jump)
      | some c, some d, some j => .ok ((⟨7, 3⟩ : Bits) ++ c ++ d ++ j) := by
  have layout : hack.layout? .compute =
      some ⟨[(.opcode, 3), (.comp, 7), (.dest, 3), (.jump, 3)]⟩ := rfl
  have opcode : hack.opcode? .compute = some ⟨7, 3⟩ := rfl
  have front : Bits.empty ++ (⟨7, 3⟩ : Bits) = ⟨7, 3⟩ := rfl
  have first : (⟨7, 3⟩ : Bits).width < UInt64.size := by decide
  obtain ⟨comps, dests, jumps⟩ := code_fits
  simp only [Instruction.encode, Instruction.shape, layout, Instruction.encodeFields,
    Instruction.fieldBits, opcode, front, Assembly.codeOf, if_pos first]
  cases hc : hack.comp.code? comp with
  | none => rfl
  | some c =>
    obtain ⟨cw, -⟩ := comps _ (TwoWay.code?_eq_some_iff.1 hc)
    have second : ((⟨7, 3⟩ : Bits) ++ c).width < UInt64.size := by
      rw [Bits.width_append, cw]
      decide
    simp only [Except.map, if_pos second]
    cases hd : hack.dest.code? dest with
    | none => rfl
    | some d =>
      obtain ⟨dw, -⟩ := dests _ (TwoWay.code?_eq_some_iff.1 hd)
      have third : ((⟨7, 3⟩ : Bits) ++ c ++ d).width < UInt64.size := by
        rw [Bits.width_append, Bits.width_append, cw, dw]
        decide
      simp only [if_pos third]
      cases hj : hack.jump.code? jump with
      | none => rfl
      | some j =>
        obtain ⟨jw, -⟩ := jumps _ (TwoWay.code?_eq_some_iff.1 hj)
        have whole : ((⟨7, 3⟩ : Bits) ++ c ++ d ++ j).width = hack.wordSize := by
          rw [Bits.width_append, Bits.width_append, Bits.width_append, cw, dw, jw]
          rfl
        have fourth : ((⟨7, 3⟩ : Bits) ++ c ++ d ++ j).width < UInt64.size := by
          rw [whole]
          decide
        simp only [if_pos fourth]
        exact if_pos whole

/-- The codes of a computation that is encoded are in the tables, and the word is made of
them. -/
theorem encoded_compute {dest comp jump : String}
    (h : ((Instruction.compute dest comp jump).encode hack table).1 = .ok w) :
    ∃ c d j, hack.comp.code? comp = some c ∧ hack.dest.code? dest = some d ∧
      hack.jump.code? jump = some j ∧ w = (⟨7, 3⟩ : Bits) ++ c ++ d ++ j := by
  rw [encode_compute] at h
  cases hc : hack.comp.code? comp with
  | none => simp [hc] at h
  | some c =>
    cases hd : hack.dest.code? dest with
    | none => simp [hc, hd] at h
    | some d =>
      cases hj : hack.jump.code? jump with
      | none => simp [hc, hd, hj] at h
      | some j => exact ⟨c, d, j, rfl, rfl, rfl, by simpa [hc, hd, hj, eq_comm] using h⟩

/-- A word of an instruction without names is decoded to the image of the instruction. -/
theorem ofWord_encoded {i : Instruction} (h : (i.encode hack table).1 = .ok w)
    (resolved : i.symbol? = none) :
    w.Fits ∧ w.width = 16 ∧ Decoded.ofWord hack w = .ok (imageOf i) := by
  have encoded : i.encode hack table = (.ok w, (i.encode hack table).2) := Prod.ext h rfl
  obtain ⟨_, _, fields⟩ := encoded_fields hack_accepted hack_legible encoded
  obtain ⟨_, _, -, -, -, width⟩ := Instruction.encode_pieces encoded
  refine ⟨fields.fits, width, ?_⟩
  cases i with
  | address operand =>
    cases operand with
    | symbol => cases resolved
    | literal v =>
      obtain ⟨v', rest, value, operand, same, decoded⟩ :=
        address_of_encoded hack_accepted hack_legible encoded
      obtain ⟨rfl, -⟩ := Prod.mk.inj (Except.ok.inj operand)
      have image : value = v.setWidth 32 := by
        apply BitVec.eq_of_toNat_eq
        rw [BitVec.toNat_setWidth, ← same, Nat.mod_eq_of_lt value.isLt]
      rw [decoded, image]
      rfl
  | compute dest comp jump =>
    obtain ⟨c, d, j, hc, hd, hj, decoded⟩ :=
      codes_of_encoded hack_accepted hack_legible encoded
    rw [decoded, imageOf, hc, hd, hj]
    rfl

end

/-! ## The ROM of a program -/

/-- The images of the instructions of a source with their names replaced by addresses. -/
def romOf (source : List Reading) : Array Decoded :=
  ((Assembly.instructions source).map fun i =>
    imageOf (i.resolved (Assembly.addressOf hack source))).toArray

section

variable {source : List Reading} {p : Program}

theorem symbol?_resolved (σ : String → Nat) (i : Instruction) :
    (i.resolved σ).symbol? = none := by
  rcases i with (_ | _) | _ <;> rfl

/-- What a word is decoded to. -/
def imageOfWord (w : Bits) : Decoded := (Decoded.ofWord hack w).toOption.getD default

theorem decoded_of_mem (means : p.Means hack source) {w : Bits} (h : w ∈ p.words) :
    w.Fits ∧ w.width = 16 ∧ Decoded.ofWord hack w = .ok (imageOfWord w) := by
  have there : (.ok w : Except Assembly.Error Bits) ∈ p.words.map .ok :=
    List.mem_map.2 ⟨w, h, rfl⟩
  rw [← means.words (.ofDescriptor hack)] at there
  obtain ⟨i, -, encoded⟩ := List.mem_map.1 there
  obtain ⟨fits, width, decoded⟩ := ofWord_encoded encoded (symbol?_resolved _ i)
  exact ⟨fits, width, by simp [imageOfWord, decoded, Except.toOption]⟩

/-- Word by word the program is decoded to the images of its instructions. -/
theorem images_of_means (means : p.Means hack source) :
    p.words.map imageOfWord = (Assembly.instructions source).map fun i =>
      imageOf (i.resolved (Assembly.addressOf hack source)) := by
  have words := means.words (.ofDescriptor hack)
  apply List.ext_getElem?
  intro k
  have at_k := congrArg (·[k]?) words
  simp only [List.getElem?_map] at at_k ⊢
  cases hi : (Assembly.instructions source)[k]? with
  | none =>
    rw [hi] at at_k
    have none : p.words[k]? = none := by simpa using at_k.symm
    rw [none]
    rfl
  | some i =>
    rw [hi] at at_k
    cases hw : p.words[k]? with
    | none => simp [hw] at at_k
    | some w =>
      have encoded : ((i.resolved (Assembly.addressOf hack source)).encode hack
          (.ofDescriptor hack)).1 = .ok w := by simpa [hw] using at_k
      obtain ⟨-, -, decoded⟩ := ofWord_encoded encoded (symbol?_resolved _ i)
      simp [imageOfWord, decoded, Except.toOption]

theorem decodeText_of_means (means : p.Means hack source) :
    Machine.decodeText hack p.toText =
      if p.words.length ≤ romSize then .ok (romOf source)
      else .error (.tooLong p.words.length) := by
  rw [Machine.decodeText_toText (fun w hw => (decoded_of_mem means hw).1)
    (fun w hw => by rw [(decoded_of_mem means hw).2.1]; decide)
      fun w hw => (decoded_of_mem means hw).2.2, images_of_means means]
  rfl

/-- **A program that fits the ROM is loaded.** -/
theorem load_of_means (means : p.Means hack source) (short : p.words.length ≤ romSize)
    (m : Machine) : m.load hack p.toText = .ok { m with rom := romOf source, pc := 0 } := by
  rw [Machine.load, decodeText_of_means means, if_pos short]
  rfl

theorem rom_of_load (means : p.Means hack source) {m loaded : Machine}
    (h : m.load hack p.toText = .ok loaded) :
    loaded.rom = romOf source ∧ p.words.length ≤ romSize := by
  rw [Machine.load, decodeText_of_means means] at h
  split at h
  · rename_i short
    obtain rfl := Except.ok.inj h
    exact ⟨rfl, short⟩
  · cases h

end

end HackToolchain
