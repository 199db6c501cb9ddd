import HackToolchain.Proofs.Assembly.Fields

/-!
# Patterns are bit strings

A pattern of at most 64 bits and its text are the same thing said twice:

* `parse_eq_error`: what is refused is longer than 64 characters or holds others than binary digits;
* `Bounded.startsWith_iff`: a pattern begins with those whose text its text begins with, and with
  no longer ones;
* `slice_concat`: pieces that were put together are found at their offsets;
* `bit_strings_faithful`: reading, printing, appending and cutting are those of the texts.
-/

namespace HackToolchain.Bits

/-- At most 64 binary digits. -/
structure IsBinary (cs : List Char) : Prop where
  short : cs.length ≤ 64
  digits : ∀ c ∈ cs, c = '0' ∨ c = '1'

theorem Fits.isBinary {b : Bits} (h : b.Fits) : IsBinary b.toChars where
  short := length_toChars h ▸ h.width
  digits := digits_of_fits h

theorem exists_parse_iff {s : String} : (∃ b, parse s = .ok b) ↔ IsBinary s.toList := by
  simp only [parse_eq_ok]
  constructor
  · rintro ⟨b, fits, text⟩
    exact text ▸ fits.isBinary
  · rintro ⟨short, digits⟩
    exact exists_of_digits short digits

/-- A text that is refused is named in the error. -/
theorem parse_eq_error {s : String} {e : MalformedBits} :
    parse s = .error e ↔ ¬ IsBinary s.toList ∧ e = ⟨s⟩ := by
  rw [← exists_parse_iff]
  unfold parse
  split
  · simp
  · simp [eq_comm]

/-- One that is longer than the pattern is no prefix of it, however long it is. -/
theorem Bounded.startsWith_iff {b p : Bits} (hp : p.Bounded) (hb : b.Fits) :
    b.startsWith p = true ↔ p.toChars <+: b.toChars := by
  by_cases short : p.width ≤ 64
  · exact Bits.startsWith_iff hb ⟨short, hp⟩
  · have word := hb.width
    refine iff_of_false (fun starts => ?_) fun front => ?_
    · rw [startsWith, Bool.and_eq_true, decide_eq_true_iff] at starts
      omega
    · have inside := front.length_le
      rw [hp.length_toChars, Bits.length_toChars hb] at inside
      omega

section

variable {pieces before after : List Bits} {p : Bits}

/-- **Pieces that were put together are found again**, each behind the widths of those before it. -/
theorem slice_concat (fits : ∀ p ∈ pieces, p.Fits) (small : (pieces.map width).sum ≤ 64)
    (split : pieces = before ++ p :: after) :
    (concat pieces).slice (before.map width).sum p.width = p := by
  obtain ⟨whole, text⟩ := toChars_concat fits small
  have bounded : ∀ q ∈ before, q.Bounded := fun q hq =>
    (fits q (split ▸ List.mem_append_left _ hq)).bounded
  have offset : (before.flatMap toChars).length = (before.map width).sum := by
    rw [length_texts bounded, width_concat]
  have parts : (concat pieces).toChars =
      before.flatMap toChars ++ (p.toChars ++ after.flatMap toChars) := by
    rw [text, split, List.flatMap_append, List.flatMap_cons]
  rw [← offset]
  exact slice_of_toChars whole (fits p (by simp [split])) parts

end

/-- **Patterns are faithful bit strings.** A text is read when it has at most 64 characters, all of
them binary digits, and is refused by name otherwise. What is read fits and prints as the text that
was read; a pattern that fits is read back from what it prints. Appending joins the texts and
cutting cuts them, and a pattern starts with those whose text its text starts with. So pieces of at
most 64 bits together, empty ones among them, are cut out again at the offsets at which they were
appended. -/
theorem bit_strings_faithful :
    (∀ s : String, ((∃ b, parse s = .ok b) ↔ IsBinary s.toList) ∧
      ∀ e, parse s = .error e → e = ⟨s⟩) ∧
    (∀ s b, parse s = .ok b → b.Fits ∧ b.toString = s) ∧
    (∀ b : Bits, b.Fits → parse b.toString = .ok b) ∧
    (∀ b t : Bits, b.Fits → t.Fits → b.width + t.width ≤ 64 →
      (b ++ t).Fits ∧ (b ++ t).toString = b.toString ++ t.toString) ∧
    (∀ (b : Bits) (offset width : Nat), b.Fits → offset + width ≤ b.width →
      (b.slice offset width).Fits ∧ (b.slice offset width).width = width ∧
      (b.slice offset width).toString =
        String.ofList ((b.toString.toList.drop offset).take width)) ∧
    (∀ b p : Bits, b.Fits → p.Bounded →
      (b.startsWith p = true ↔ p.toString.toList <+: b.toString.toList)) ∧
    ∀ pieces : List Bits, (∀ p ∈ pieces, p.Fits) → (pieces.map width).sum ≤ 64 →
      (pieces.foldl (· ++ ·) empty).Fits ∧
      ∀ before p after, pieces = before ++ p :: after →
        (pieces.foldl (· ++ ·) empty).slice (before.map width).sum p.width = p := by
  refine ⟨fun s => ⟨exists_parse_iff, fun e refused => (parse_eq_error.1 refused).2⟩, ?_,
    fun b fits => parse_toString fits, ?_, ?_, ?_, ?_⟩
  · intro s b read
    obtain ⟨fits, text⟩ := parse_eq_ok.1 read
    exact ⟨fits, by rw [toString, text, String.ofList_toList]⟩
  · intro b t hb ht small
    refine ⟨append_fits hb ht small, ?_⟩
    rw [toString, toChars_append hb ht small, String.ofList_append]
    rfl
  · intro b offset width hb inside
    have small : width ≤ 64 := Nat.le_trans (Nat.le_of_add_left_le inside) hb.width
    refine ⟨slice_fits hb offset small, rfl, ?_⟩
    rw [toString, toChars_slice hb inside, toString, String.toList_ofList]
  · intro b p hb hp
    simp only [toString, String.toList_ofList]
    exact hp.startsWith_iff hb
  · intro pieces fits small
    exact ⟨(toChars_concat fits small).1, fun before p after split => slice_concat fits small split⟩

/-- Sixty-four bits in three pieces, one of them empty. -/
theorem bit_strings_faithful_full :
    let pieces : List Bits := [⟨0xABCDE, 20⟩, ⟨0, 0⟩, ⟨0xFFFFFFFFFFE, 44⟩]
    (∀ p ∈ pieces, p.Fits) ∧ (pieces.map width).sum = 64 ∧
      (pieces.foldl (· ++ ·) empty).slice 20 0 = ⟨0, 0⟩ ∧
      (pieces.foldl (· ++ ·) empty).slice 20 44 = ⟨0xFFFFFFFFFFE, 44⟩ := by
  intro pieces
  have fits : ∀ p ∈ pieces, p.Fits := by
    simp only [pieces, List.forall_mem_cons]
    exact ⟨⟨by decide, by decide⟩, ⟨by decide, by decide⟩, ⟨by decide, by decide⟩, by simp⟩
  obtain ⟨-, -, -, -, -, -, cut⟩ := bit_strings_faithful
  obtain ⟨-, found⟩ := cut pieces fits (by decide)
  have second := found [⟨0xABCDE, 20⟩] ⟨0, 0⟩ [⟨0xFFFFFFFFFFE, 44⟩] rfl
  have third := found [⟨0xABCDE, 20⟩, ⟨0, 0⟩] ⟨0xFFFFFFFFFFE, 44⟩ [] rfl
  exact ⟨fits, by decide, second, third⟩

end HackToolchain.Bits
