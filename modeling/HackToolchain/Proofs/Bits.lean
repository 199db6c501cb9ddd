import Mathlib.Algebra.Group.Nat.Defs
import HackToolchain.Bits

/-!
# Patterns as numbers

A pattern that fits is its width and a number below that power of two.

* `toNat_slice`: cutting is division;
* `toChars_append_clipped`: appending keeps the last 64 digits, and turns those in front of them to
  zeros;
* `parse_toString`: the text of a pattern that fits is read back as that pattern;
* `parse_eq_ok`: and no other text is read as it.
-/

namespace HackToolchain.Bits

/-- The value is within the width, and the width within 64 bits. -/
structure Fits (b : Bits) : Prop where
  width : b.width ≤ 64
  value : b.val.toNat < 2 ^ b.width

/-- The value is within the width, however wide that is. -/
def Bounded (b : Bits) : Prop := b.val.toNat < 2 ^ b.width

theorem Fits.bounded {b : Bits} (h : b.Fits) : b.Bounded := h.value

theorem ext {a b : Bits} (val : a.val.toNat = b.val.toNat) (width : a.width = b.width) : a = b := by
  cases a
  cases b
  simp_all [BitVec.toNat_inj]

theorem bitLength_le {v : BitVec 64} {n : Nat} : bitLength v ≤ n ↔ v.toNat < 2 ^ n := by
  unfold bitLength
  split
  · rename_i zero
    have pos := Nat.two_pow_pos n
    simp [zero, pos]
  · rename_i nonzero
    have pos : v.toNat ≠ 0 := by
      simpa [← BitVec.toNat_inj] using nonzero
    rw [Nat.add_one_le_iff, Nat.log2_lt pos]

theorem shiftAmount_eq {width : Nat} (h : width ≤ 64) : shiftAmount width = width := by
  have low : width < UInt32.size := Nat.lt_of_le_of_lt h (by decide)
  rw [shiftAmount, Nat.mod_eq_of_lt low, Nat.min_eq_left h]

/-- A value that the width has room for is that wide. -/
theorem width_ofVal {v : BitVec 64} {width : Nat} (h : v.toNat < 2 ^ width) :
    (ofVal v width).width = width :=
  Nat.max_eq_left (bitLength_le.2 h)

/-! ## Appending and cutting -/

theorem width_append (b tail : Bits) : (b ++ tail).width = b.width + tail.width := rfl

theorem Bounded.append {b tail : Bits} (hb : b.Bounded) (ht : tail.Bounded) :
    (b ++ tail).Bounded := by
  have shift : shiftAmount tail.width ≤ tail.width :=
    Nat.le_trans (Nat.min_le_left ..) (Nat.mod_le ..)
  change (b.val <<< shiftAmount tail.width ||| tail.val).toNat < 2 ^ (b.width + tail.width)
  rw [BitVec.toNat_or, BitVec.toNat_shiftLeft, Nat.shiftLeft_eq]
  refine Nat.or_lt_two_pow ?_ (Nat.lt_of_lt_of_le ht (Nat.pow_le_pow_right (by decide) (by omega)))
  calc b.val.toNat * 2 ^ shiftAmount tail.width % 2 ^ 64
      ≤ b.val.toNat * 2 ^ shiftAmount tail.width := Nat.mod_le ..
    _ < 2 ^ b.width * 2 ^ shiftAmount tail.width :=
        Nat.mul_lt_mul_of_pos_right hb (Nat.two_pow_pos _)
    _ ≤ 2 ^ b.width * 2 ^ tail.width :=
        Nat.mul_le_mul_left _ (Nat.pow_le_pow_right (by decide) shift)
    _ = 2 ^ (b.width + tail.width) := (Nat.pow_add ..).symm

theorem append_fits {b tail : Bits} (hb : b.Fits) (ht : tail.Fits)
    (small : b.width + tail.width ≤ 64) : (b ++ tail).Fits :=
  ⟨small, hb.bounded.append ht.bounded⟩

theorem toNat_lowMask {width : Nat} (h : width ≤ 64) : (lowMask width).toNat = 2 ^ width - 1 := by
  rw [lowMask, shiftAmount_eq h, BitVec.toNat_ushiftRight, BitVec.toNat_allOnes,
    Nat.shiftRight_eq_div_pow]
  have split : 2 ^ 64 = 2 ^ width * 2 ^ (64 - width) := by
    rw [← Nat.pow_add, Nat.add_sub_cancel' h]
  have pos := Nat.two_pow_pos (64 - width)
  rw [split, Nat.mul_comm, Nat.div_eq_of_lt_le]
  · rw [Nat.sub_mul, Nat.mul_comm]
    omega
  · rw [Nat.sub_add_cancel (Nat.two_pow_pos width), Nat.mul_comm]
    have := Nat.mul_pos (Nat.two_pow_pos width) pos
    omega

theorem toNat_slice {b : Bits} (hb : b.width ≤ 64) {offset width : Nat} (hw : width ≤ 64) :
    (b.slice offset width).val.toNat =
      b.val.toNat / 2 ^ (b.width - (offset + width)) % 2 ^ width := by
  change ((b.val >>> shiftAmount (b.width - (offset + width))) &&& lowMask width).toNat = _
  rw [shiftAmount_eq (by omega), BitVec.toNat_and, toNat_lowMask hw, BitVec.toNat_ushiftRight,
    Nat.shiftRight_eq_div_pow, Nat.and_two_pow_sub_one_eq_mod]

/-! ## Texts -/

theorem length_digits (v : BitVec 64) (n : Nat) : (digits v n).length = n := by
  simp [digits]

theorem mem_digits {v : BitVec 64} {n : Nat} {c : Char} (h : c ∈ digits v n) :
    c = '0' ∨ c = '1' := by
  obtain ⟨i, -, rfl⟩ := List.mem_map.1 h
  split
  · exact .inr rfl
  · exact .inl rfl

theorem digits_succ (v : BitVec 64) (n : Nat) :
    digits v (n + 1) = (if v.getLsbD n then '1' else '0') :: digits v n := by
  simp [digits, List.range_succ]

/-- One more bit at the low end. -/
theorem shiftRight_eq (v : BitVec 64) (n : Nat) :
    (v >>> (n + 1)) <<< 1 ||| (if v.getLsbD n then 1 else 0) = v >>> n := by
  ext i hi
  cases i with
  | zero => cases h : v.getLsbD n <;> simp [h, ← BitVec.getLsbD_eq_getElem]
  | succ i =>
    have place : n + 1 + i = n + (i + 1) := by omega
    cases h : v.getLsbD n <;> simp [← BitVec.getLsbD_eq_getElem, hi, place]

/-- Reading the digits from the top puts the value together from above. -/
theorem foldl_digits (v : BitVec 64) (n k : Nat) :
    (digits v n).foldl pushChar ⟨v >>> n, k⟩ = ⟨v, k + n⟩ := by
  induction n generalizing k with
  | zero => simp [digits]
  | succ n ih =>
    have next : pushChar ⟨v >>> (n + 1), k⟩ (if v.getLsbD n then '1' else '0') =
        ⟨v >>> n, k + 1⟩ := by
      rw [← shiftRight_eq v n]
      split <;> rfl
    rw [digits_succ, List.foldl_cons, next, ih]
    congr 1
    omega

theorem literal_digits {v : BitVec 64} {n : Nat} (h : v.toNat < 2 ^ n) :
    literal (String.ofList (digits v n)) = ⟨v, n⟩ := by
  have above : v >>> n = 0 := by
    apply BitVec.eq_of_toNat_eq
    simp [Nat.shiftRight_eq_div_pow, Nat.div_eq_of_lt h]
  have fold := foldl_digits v n 0
  rw [above, Nat.zero_add] at fold
  rw [literal, String.toList_ofList]
  exact fold

theorem Bounded.toChars {b : Bits} (h : b.Bounded) : b.toChars = digits b.val b.width := by
  unfold Bits.toChars
  split
  · rename_i zero
    rw [zero]
    rfl
  · rw [Nat.max_eq_left (bitLength_le.2 h)]

theorem toChars_of_fits {b : Bits} (h : b.Fits) : b.toChars = digits b.val b.width :=
  h.bounded.toChars

/-- **The text of a pattern that fits says that pattern.** -/
theorem parse_toString {b : Bits} (h : b.Fits) : parse b.toString = .ok b := by
  have chars := toChars_of_fits h
  have good : (digits b.val b.width).all (fun c => c = '0' || c = '1') = true := by
    rw [List.all_eq_true]
    intro c hc
    rcases mem_digits hc with rfl | rfl <;> rfl
  rw [parse, toString, String.toList_ofList, chars, good, length_digits, literal_digits h.value]
  simp [h.width]

/-! ## Texts of appended and cut patterns -/

theorem Bounded.length_toChars {b : Bits} (h : b.Bounded) : b.toChars.length = b.width := by
  rw [h.toChars, length_digits]

theorem length_toChars {b : Bits} (h : b.Fits) : b.toChars.length = b.width :=
  h.bounded.length_toChars

/-- Patterns that fit are told apart by their texts. -/
theorem eq_of_toChars_eq {a b : Bits} (ha : a.Fits) (hb : b.Fits) (same : a.toChars = b.toChars) :
    a = b := by
  have read : parse a.toString = parse b.toString := by rw [toString, toString, same]
  rw [parse_toString ha, parse_toString hb] at read
  exact Except.ok.inj read

theorem getElem_digits {v : BitVec 64} {n i : Nat} (h : i < (digits v n).length) :
    (digits v n)[i] = if v.getLsbD (n - 1 - i) then '1' else '0' := by
  simp [digits]

/-- The last 64 digits, behind zeros. -/
def clipped (cs : List Char) : List Char :=
  List.replicate (cs.length - 64) '0' ++ cs.drop (cs.length - 64)

theorem length_clipped (cs : List Char) : (clipped cs).length = cs.length := by
  simp [clipped]

theorem getElem_clipped {cs : List Char} {i : Nat} (h : i < cs.length)
    (_ : i < (clipped cs).length) :
    (clipped cs)[i] = if i < cs.length - 64 then '0' else cs[i] := by
  simp only [clipped]
  split
  · rename_i front
    rw [List.getElem_append_left (by rwa [List.length_replicate]), List.getElem_replicate]
  · rename_i behind
    have place : cs.length - 64 + (i - (cs.length - 64)) = i := by omega
    rw [List.getElem_append_right (by rw [List.length_replicate]; omega), List.getElem_drop]
    simp only [List.length_replicate, place]

theorem clipped_of_short {cs : List Char} (short : cs.length ≤ 64) : clipped cs = cs := by
  simp [clipped, Nat.sub_eq_zero_of_le short]

/-- Digits are lost where others than zeros are in front of the last 64. -/
theorem clipped_eq_iff {cs : List Char} :
    clipped cs = cs ↔ ∀ c ∈ cs.take (cs.length - 64), c = '0' := by
  have size : (cs.take (cs.length - 64)).length = cs.length - 64 := by simp
  have split := List.take_append_drop (cs.length - 64) cs
  constructor
  · intro same
    have front : List.replicate (cs.length - 64) '0' = cs.take (cs.length - 64) :=
      List.append_cancel_right (same.trans split.symm)
    rw [← front]
    exact fun c hc => List.eq_of_mem_replicate hc
  · intro zeros
    have front : cs.take (cs.length - 64) = List.replicate (cs.length - 64) '0' :=
      List.eq_replicate_iff.2 ⟨size, zeros⟩
    rw [clipped, ← front, split]

/-- What was clipped before is clipped again. -/
theorem clipped_append (cs ds : List Char) : clipped (clipped cs ++ ds) = clipped (cs ++ ds) := by
  have size := length_clipped cs
  apply List.ext_getElem
  · simp [length_clipped]
  intro i hi hi'
  rw [length_clipped] at hi hi'
  rw [getElem_clipped hi, getElem_clipped hi']
  have total : (clipped cs ++ ds).length = (cs ++ ds).length := by simp [size]
  rw [total]
  split
  · rfl
  rename_i behind
  rw [List.length_append] at behind
  by_cases first : i < cs.length
  · rw [List.getElem_append_left (by rwa [size]), List.getElem_append_left first,
      getElem_clipped first, if_neg (by omega)]
  · rw [List.getElem_append_right (by rw [size]; omega),
      List.getElem_append_right (Nat.le_of_not_lt first)]
    simp only [size]

/-- A pattern has no digits but its last 64. -/
theorem Bounded.clipped_toChars {b : Bits} (h : b.Bounded) : clipped b.toChars = b.toChars := by
  rw [clipped_eq_iff, h.length_toChars, h.toChars]
  intro c hc
  obtain ⟨i, hi, rfl⟩ := List.mem_iff_getElem.1 hc
  rw [List.length_take, length_digits] at hi
  rw [List.getElem_take, getElem_digits, BitVec.getLsbD_of_ge _ _ (by omega)]
  rfl

/-- A bit of what is appended to, moved up, or of what is appended. -/
theorem getLsbD_append (b tail : Bits) (i : Nat) :
    (b ++ tail).val.getLsbD i =
      (decide (i < 64) && !decide (i < shiftAmount tail.width) &&
        b.val.getLsbD (i - shiftAmount tail.width) || tail.val.getLsbD i) := by
  change (b.val <<< shiftAmount tail.width ||| tail.val).getLsbD i = _
  rw [BitVec.getLsbD_or, BitVec.getLsbD_shiftLeft]

/-- **What is appended moves the digits of a pattern up**, and those above 64 bits out. -/
theorem toChars_append_clipped {b tail : Bits} (hb : b.Bounded) (ht : tail.Bounded)
    (narrow : tail.width < UInt32.size) :
    (b ++ tail).toChars = clipped (b.toChars ++ tail.toChars) := by
  have width := width_append b tail
  have shift : shiftAmount tail.width = min tail.width 64 := by
    rw [shiftAmount, Nat.mod_eq_of_lt narrow]
  have first := hb.length_toChars
  have second := ht.length_toChars
  have total : (b ++ tail).toChars.length = b.width + tail.width :=
    (hb.append ht).length_toChars.trans width
  apply List.ext_getElem
  · rw [total, length_clipped, List.length_append, first, second]
  intro i hi hi'
  rw [total] at hi
  rw [length_clipped] at hi'
  simp only [(hb.append ht).toChars]
  rw [getElem_clipped hi', getElem_digits, getLsbD_append, List.length_append, first, second,
    width, shift]
  by_cases lost : i < b.width + tail.width - 64
  · have above : 64 ≤ b.width + tail.width - 1 - i := by omega
    rw [if_pos lost, BitVec.getLsbD_of_ge _ _ above]
    simp [Nat.not_lt.2 above]
  rw [if_neg lost]
  by_cases front : i < b.width
  · have low : tail.val.getLsbD (b.width + tail.width - 1 - i) = false :=
      Nat.testBit_lt_two_pow (Nat.lt_of_lt_of_le ht (Nat.pow_le_pow_right (by decide) (by omega)))
    have place : b.width + tail.width - 1 - i - min tail.width 64 = b.width - 1 - i := by omega
    have inside : b.width + tail.width - 1 - i < 64 := by omega
    have moved : ¬ b.width + tail.width - 1 - i < min tail.width 64 := by omega
    rw [List.getElem_append_left (by rwa [first])]
    simp only [hb.toChars, getElem_digits, low, place, inside, moved]
    simp
  · have kept : tail.width - 1 - (i - b.width) < min tail.width 64 := by omega
    have place : b.width + tail.width - 1 - i = tail.width - 1 - (i - b.width) := by omega
    rw [List.getElem_append_right (by rw [first]; omega)]
    simp only [ht.toChars, getElem_digits, first, place, kept]
    simp

theorem toChars_append {b tail : Bits} (hb : b.Fits) (ht : tail.Fits)
    (small : b.width + tail.width ≤ 64) : (b ++ tail).toChars = b.toChars ++ tail.toChars := by
  have narrow : tail.width < UInt32.size := Nat.lt_of_le_of_lt ht.width (by decide)
  rw [toChars_append_clipped hb.bounded ht.bounded narrow, clipped_of_short]
  rwa [List.length_append, length_toChars hb, length_toChars ht]

theorem slice_fits {b : Bits} (hb : b.Fits) (offset : Nat) {width : Nat} (small : width ≤ 64) :
    (b.slice offset width).Fits := by
  refine ⟨small, ?_⟩
  rw [toNat_slice hb.width small]
  exact Nat.mod_lt _ (Nat.two_pow_pos width)

theorem toChars_slice {b : Bits} (hb : b.Fits) {offset width : Nat}
    (inside : offset + width ≤ b.width) :
    (b.slice offset width).toChars = (b.toChars.drop offset).take width := by
  have total := hb.width
  have small : width ≤ 64 := by omega
  have bit : ∀ j, j < width → (b.slice offset width).val.getLsbD j =
      b.val.getLsbD (b.width - (offset + width) + j) := by
    intro j hj
    change ((b.val >>> shiftAmount (b.width - (offset + width))) &&& lowMask width).getLsbD j = _
    rw [shiftAmount_eq (by omega), BitVec.getLsbD_and, lowMask, shiftAmount_eq small,
      BitVec.getLsbD_ushiftRight, BitVec.getLsbD_ushiftRight, BitVec.getLsbD_allOnes]
    have mask : 64 - width + j < 64 := by omega
    simp [mask]
  rw [toChars_of_fits (slice_fits hb offset small), toChars_of_fits hb]
  apply List.ext_getElem
  · rw [length_digits, List.length_take, List.length_drop, length_digits]
    change width = _
    omega
  intro i hi _
  rw [length_digits] at hi
  have here : i < width := hi
  have cut : (b.slice offset width).width = width := rfl
  have place : b.width - (offset + width) + (width - 1 - i) = b.width - 1 - (offset + i) := by
    omega
  rw [getElem_digits, cut, bit _ (by omega), place, List.getElem_take, List.getElem_drop,
    getElem_digits]

/-- A pattern is cut out where its text stands. -/
theorem slice_of_toChars {b p : Bits} (hb : b.Fits) (hp : p.Fits) {front back : List Char}
    (text : b.toChars = front ++ (p.toChars ++ back)) : b.slice front.length p.width = p := by
  have length := length_toChars hp
  have inside : front.length + p.width ≤ b.width := by
    rw [← length_toChars hb, text, ← length, List.length_append, List.length_append]
    omega
  apply eq_of_toChars_eq (slice_fits hb _ hp.width) hp
  rw [toChars_slice hb inside, text, List.drop_left, ← length, List.take_left]

/-- A pattern begins with those whose text its text begins with. -/
theorem startsWith_iff {b p : Bits} (hb : b.Fits) (hp : p.Fits) :
    b.startsWith p = true ↔ p.toChars <+: b.toChars := by
  have cut : p.width ≤ b.width → (b.slice 0 p.width).toChars = b.toChars.take p.width := by
    intro short
    rw [toChars_slice hb (by omega), List.drop_zero]
  rw [startsWith, Bool.and_eq_true, decide_eq_true_iff, decide_eq_true_iff,
    List.prefix_iff_eq_take, length_toChars hp]
  constructor
  · rintro ⟨short, same⟩
    rw [← cut short, same]
  · intro same
    have short : p.width ≤ b.width := by
      have length := congrArg List.length same
      rw [List.length_take, length_toChars hp, length_toChars hb] at length
      omega
    refine ⟨short, eq_of_toChars_eq (slice_fits hb 0 hp.width) hp ?_⟩
    rw [cut short, ← same]

/-! ## Texts that are read -/

/-- A binary digit is one more bit. -/
theorem pushChar_eq {c : Char} (h : c = '0' ∨ c = '1') (b : Bits) :
    b.pushChar c = b ++ (⟨if c = '1' then 1 else 0, 1⟩ : Bits) := by
  rcases h with rfl | rfl <;> rfl

/-- Binary digits that are pushed one by one stand in the text behind what was there. -/
theorem foldl_pushChar {cs : List Char} (binary : ∀ c ∈ cs, c = '0' ∨ c = '1') {b : Bits}
    (fits : b.Fits) (short : b.width + cs.length ≤ 64) :
    (cs.foldl pushChar b).Fits ∧ (cs.foldl pushChar b).toChars = b.toChars ++ cs := by
  induction cs generalizing b with
  | nil => exact ⟨fits, (List.append_nil _).symm⟩
  | cons c rest ih =>
    rw [List.length_cons] at short
    have digit := binary c List.mem_cons_self
    have bit : (⟨if c = '1' then 1 else 0, 1⟩ : Bits).Fits ∧
        (⟨if c = '1' then 1 else 0, 1⟩ : Bits).toChars = [c] := by
      rcases digit with rfl | rfl
      · exact ⟨⟨by decide, by decide⟩, rfl⟩
      · exact ⟨⟨by decide, by decide⟩, rfl⟩
    have room : b.width + 1 ≤ 64 := by omega
    obtain ⟨whole, text⟩ := ih (fun c hc => binary c (List.mem_cons_of_mem _ hc))
      (append_fits fits bit.1 room) (by rw [width_append]; dsimp only; omega)
    rw [List.foldl_cons, pushChar_eq digit]
    refine ⟨whole, ?_⟩
    rw [text, toChars_append fits bit.1 room, bit.2, List.append_assoc, List.singleton_append]

/-- A text that is read is the text of what it is read as. -/
theorem parse_eq_ok {s : String} {b : Bits} :
    parse s = .ok b ↔ b.Fits ∧ b.toChars = s.toList := by
  constructor
  · intro h
    unfold parse at h
    split at h
    · rename_i good
      obtain rfl := Except.ok.inj h
      rw [Bool.and_eq_true, decide_eq_true_iff] at good
      exact foldl_pushChar (by simpa using good.2) ⟨by decide, by decide⟩
        (Nat.le_trans (Nat.le_of_eq (Nat.zero_add _)) good.1)
    · cases h
  · rintro ⟨fits, text⟩
    have read := parse_toString fits
    rwa [toString, text, String.ofList_toList] at read

theorem fits_of_parse {s : String} {b : Bits} (h : parse s = .ok b) : b.Fits :=
  (parse_eq_ok.1 h).1

/-- As many digits as fit make a pattern. -/
theorem exists_of_digits {cs : List Char} (short : cs.length ≤ 64)
    (binary : ∀ c ∈ cs, c = '0' ∨ c = '1') : ∃ b : Bits, b.Fits ∧ b.toChars = cs := by
  obtain ⟨fits, text⟩ := foldl_pushChar binary (b := .empty) ⟨by decide, by decide⟩
    (Nat.le_trans (Nat.le_of_eq (Nat.zero_add _)) short)
  exact ⟨_, fits, text⟩

theorem digits_of_fits {b : Bits} (h : b.Fits) : ∀ c ∈ b.toChars, c = '0' ∨ c = '1' := by
  intro c hc
  rw [toChars_of_fits h] at hc
  exact mem_digits hc

end HackToolchain.Bits
