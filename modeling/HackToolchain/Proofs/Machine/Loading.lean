import Mathlib.Data.List.Forall2
import HackToolchain.Assembly.Program
import HackToolchain.Machine
import HackToolchain.Proofs.Assembly.Printing
import HackToolchain.Proofs.Bits

/-!
# Programs are loaded as they were assembled

* `lines_of_joined`, `lines_of_intercalated`: lines that are closed or parted by line feeds are
  read as those lines;
* `decodeLines_eq_ok_iff`: a text is decoded when each of its lines is that is not blank;
* `lines_toText`, `decodeText_toText`: so a text of words that fit is read and decoded word by word.
-/

namespace HackToolchain

namespace Text

theorem linesFrom_append {line : List Char} (h : '\n' ∉ line) (done : List (List Char))
    (back rest : List Char) :
    linesFrom done back (line ++ '\n' :: rest) =
      linesFrom (closeLine (line.reverse ++ back) :: done) [] rest := by
  induction line generalizing back with
  | nil => simp [linesFrom]
  | cons c r ih =>
    obtain ⟨hc, hr⟩ := not_or.1 (mt List.mem_cons.2 h)
    rw [List.cons_append, linesFrom, if_neg (Ne.symm hc), ih hr]
    simp

theorem closeLine_reverse {line : List Char} (h : '\r' ∉ line) : closeLine line.reverse = line := by
  unfold closeLine
  split
  · rename_i back hback
    have there : '\r' ∈ line.reverse := hback ▸ List.mem_cons_self
    exact absurd (List.mem_reverse.1 there) h
  · exact List.reverse_reverse line

theorem lines_of_joined {ls : List (List Char)} (feed : ∀ l ∈ ls, '\n' ∉ l)
    (carriage : ∀ l ∈ ls, '\r' ∉ l) : lines (ls.flatMap (· ++ ['\n'])) = ls := by
  have from_done : ∀ done, linesFrom done [] (ls.flatMap (· ++ ['\n'])) = done.reverse ++ ls := by
    induction ls with
    | nil => simp [linesFrom]
    | cons l rest ih =>
      intro done
      have later := ih (fun l hl => feed l (List.mem_cons_of_mem _ hl))
        fun l hl => carriage l (List.mem_cons_of_mem _ hl)
      have first : (l :: rest).flatMap (· ++ ['\n']) =
          l ++ '\n' :: rest.flatMap (· ++ ['\n']) := by simp
      rw [first, linesFrom_append (feed l List.mem_cons_self), List.append_nil,
        closeLine_reverse (carriage l List.mem_cons_self), later]
      simp
  exact from_done []

/-- The last line needs no line feed. -/
theorem linesFrom_last {line : List Char} (h : '\n' ∉ line) (done : List (List Char))
    (back : List Char) (filled : back.reverse ++ line ≠ []) :
    linesFrom done back line = done.reverse ++ [back.reverse ++ line] := by
  induction line generalizing back with
  | nil =>
    have some_back : back.isEmpty = false := by simpa using filled
    simp [linesFrom, some_back]
  | cons c r ih =>
    obtain ⟨hc, hr⟩ := not_or.1 (mt List.mem_cons.2 h)
    rw [linesFrom, if_neg (Ne.symm hc), ih hr (c :: back) (by simp)]
    simp

theorem lines_of_intercalated {ls : List (List Char)} (feed : ∀ l ∈ ls, '\n' ∉ l)
    (carriage : ∀ l ∈ ls, '\r' ∉ l) (filled : ∀ l ∈ ls, l ≠ []) :
    lines (['\n'].intercalate ls) = ls := by
  have from_done : ∀ done, linesFrom done [] (['\n'].intercalate ls) = done.reverse ++ ls := by
    induction ls with
    | nil => simp [linesFrom]
    | cons l rest ih =>
      intro done
      have here := List.mem_cons_self (a := l) (l := rest)
      have later := ih (fun l hl => feed l (List.mem_cons_of_mem _ hl))
        (fun l hl => carriage l (List.mem_cons_of_mem _ hl))
        fun l hl => filled l (List.mem_cons_of_mem _ hl)
      cases rest with
      | nil =>
        rw [List.intercalate_singleton]
        exact linesFrom_last (feed l here) done [] (filled l here)
      | cons next rest =>
        rw [List.intercalate_cons_cons, List.append_assoc, List.singleton_append,
          linesFrom_append (feed l here), List.append_nil, closeLine_reverse (carriage l here),
          later]
        simp
  exact from_done []

end Text

/-! ## Lines that are decoded -/

/-- The digits of the line make a word that is decoded to the instruction. -/
def Descriptor.Decodes (d : Descriptor) (line : List Char) (i : Decoded) : Prop :=
  ∃ word : Bits, word.Fits ∧ word.toChars = line ∧ Decoded.ofWord d word = .ok i

namespace Machine

open Assembly (Program)

section

variable {d : Descriptor}

/-- The lines that are not blank, without the blanks around them. -/
def filled (lines : List (List Char)) : List (List Char) :=
  (lines.map Text.trim).filter fun line => !line.isEmpty

def wordLines (text : String) : List (List Char) := filled (Text.lines text.toList)

/-- Lines that are neither blank nor begin or end with a blank. -/
theorem filled_eq {lines : List (List Char)} (trimmed : ∀ line ∈ lines, Text.trim line = line)
    (nonempty : ∀ line ∈ lines, line ≠ []) : filled lines = lines := by
  rw [filled, List.map_congr_left trimmed, List.map_id', List.filter_eq_self]
  intro line there
  simpa using nonempty line there

theorem filled_append (front back : List (List Char)) :
    filled (front ++ back) = filled front ++ filled back := by
  simp [filled]

theorem filled_cons_of_blank {raw : List Char} (blank : (Text.trim raw).isEmpty = true)
    (rest : List (List Char)) : filled (raw :: rest) = filled rest := by
  simp [filled, blank]

theorem filled_cons {raw : List Char} (text : ¬ (Text.trim raw).isEmpty = true)
    (rest : List (List Char)) : filled (raw :: rest) = Text.trim raw :: filled rest := by
  simp [filled, text]

theorem decodeLine_eq_ok {number : Nat} {line : List Char} {i : Decoded} :
    decodeLine d number line = .ok i ↔ d.Decodes line i := by
  constructor
  · intro h
    unfold decodeLine at h
    split at h
    · cases h
    rename_i word read
    split at h
    · rename_i i' decoded
      obtain rfl := Except.ok.inj h
      obtain ⟨fits, text⟩ := Bits.parse_eq_ok.1 read
      exact ⟨word, fits, text.trans String.toList_ofList, decoded⟩
    · cases h
    · cases h
  · rintro ⟨word, fits, rfl, decoded⟩
    have read : Bits.parse (String.ofList word.toChars) = .ok word := Bits.parse_toString fits
    simp only [decodeLine, read, decoded]

theorem decodeLines_eq_ok_iff {lines : List (List Char)} {done rom : Array Decoded} {start : Nat} :
    decodeLines d done (lines.zipIdx start) = .ok rom ↔
      ∃ image, List.Forall₂ d.Decodes (filled lines) image ∧ rom = done ++ image.toArray := by
  induction lines generalizing done start with
  | nil =>
    constructor
    · intro h
      obtain rfl := Except.ok.inj h
      exact ⟨[], .nil, by simp⟩
    · rintro ⟨image, all, rfl⟩
      obtain rfl := List.forall₂_nil_left_iff.1 all
      simp [decodeLines]
  | cons raw rest ih =>
    rw [List.zipIdx_cons, decodeLines]
    by_cases blank : (Text.trim raw).isEmpty = true
    · rw [if_pos blank, filled_cons_of_blank blank, ih]
    · rw [if_neg blank, filled_cons blank]
      constructor
      · intro h
        split at h
        · cases h
        rename_i i read
        obtain ⟨image, all, rfl⟩ := ih.1 h
        exact ⟨i :: image, .cons (decodeLine_eq_ok.1 read) all, by simp⟩
      · rintro ⟨image, all, rfl⟩
        obtain ⟨i, image, here, later, rfl⟩ := List.forall₂_cons_left_iff.1 all
        rw [decodeLine_eq_ok.2 here]
        exact ih.2 ⟨image, later, by simp⟩

theorem decodeText_eq {text : String} {image : List Decoded}
    (all : List.Forall₂ d.Decodes (wordLines text) image) :
    decodeText d text =
      if image.length ≤ romSize then .ok image.toArray else .error (.tooLong image.length) := by
  have decoded : decodeLines d #[] (Text.lines text.toList).zipIdx = .ok (#[] ++ image.toArray) :=
    decodeLines_eq_ok_iff.2 ⟨image, all, rfl⟩
  rw [decodeText, decoded]
  simp

end

section

variable {d : Descriptor} {p : Program} {image : Bits → Decoded}

/-- A text of words closes each of them. -/
theorem toList_toText (p : Program) :
    p.toText.toList = (p.words.map Bits.toChars).flatMap (· ++ ['\n']) := by
  rw [Program.toText, String.toList_join, List.flatMap_map, List.flatMap_map]
  congr 1
  funext w
  simp [Bits.toString]

theorem lines_toText (fits : ∀ w ∈ p.words, w.Fits) :
    Text.lines p.toText.toList = p.words.map Bits.toChars := by
  have clean : ∀ l ∈ p.words.map Bits.toChars, ∀ c ∈ l, c = '0' ∨ c = '1' := by
    intro l hl
    obtain ⟨w, hw, rfl⟩ := List.mem_map.1 hl
    exact Bits.digits_of_fits (fits w hw)
  rw [toList_toText]
  apply Text.lines_of_joined
  · intro l hl hc
    rcases clean l hl _ hc with h | h <;> cases h
  · intro l hl hc
    rcases clean l hl _ hc with h | h <;> cases h

/-- **A text of words is decoded word by word.** -/
theorem decodeText_toText (fits : ∀ w ∈ p.words, w.Fits) (wide : ∀ w ∈ p.words, w.width ≠ 0)
    (decoded : ∀ w ∈ p.words, Decoded.ofWord d w = .ok (image w)) :
    decodeText d p.toText =
      if p.words.length ≤ romSize then .ok (p.words.map image).toArray
      else .error (.tooLong p.words.length) := by
  have words : wordLines p.toText = p.words.map Bits.toChars := by
    rw [wordLines, lines_toText fits]
    apply filled_eq
    · intro l hl
      obtain ⟨w, hw, rfl⟩ := List.mem_map.1 hl
      apply Text.trim_of_no_blank
      intro c hc
      rcases Bits.digits_of_fits (fits w hw) c hc with rfl | rfl <;> decide
    · intro l hl empty
      obtain ⟨w, hw, rfl⟩ := List.mem_map.1 hl
      have length := congrArg List.length empty
      rw [Bits.length_toChars (fits w hw)] at length
      exact wide w hw length
  have all : List.Forall₂ d.Decodes (wordLines p.toText) (p.words.map image) := by
    rw [words, List.forall₂_map_left_iff, List.forall₂_map_right_iff, List.forall₂_same]
    exact fun w hw => ⟨w, fits w hw, rfl, decoded w hw⟩
  rw [decodeText_eq all, List.length_map]

end

end Machine

end HackToolchain
