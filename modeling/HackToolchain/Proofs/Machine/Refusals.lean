import HackToolchain.Proofs.Bits.Strings
import HackToolchain.Proofs.Machine.Acceptance

/-!
# Which texts are refused

* `decodeLine_eq_error`: a line is refused for its characters before it is for its opcode;
* `decodeLines_eq_error`: of the lines that are refused the first is reported, with its number
  among all lines;
* `load_eq_error`: the length of a program counts only when no line is refused.
-/

namespace HackToolchain

namespace Descriptor

variable {d : Descriptor}

/-- A valid descriptor has no layout that is too wide. -/
theorem ofWord_ne_uncountable (valid : d.validate = .ok ()) (word : Bits) :
    Decoded.ofWord d word ≠ .error .uncountableLayout := by
  obtain ⟨shapes, -⟩ := validate_eq_ok.1 valid
  unfold Decoded.ofWord
  cases d.shapeOf? word with
  | none => simp
  | some s =>
    obtain ⟨opcode, layout, shaped⟩ := shapes s
    simp only [shaped.layout_eq, shaped.countable, Bool.not_true, Bool.false_eq_true, if_false]
    cases Decoded.ofSlices? (layout.cut word) s <;> simp

/-- What is said of a line that is not decoded. -/
inductive Rejects (d : Descriptor) (number : Nat) (line : List Char) : LoadError → Prop
  | malformed : ¬ Bits.IsBinary line →
    Rejects d number line (.malformed number ⟨String.ofList line⟩)
  | undefined : Bits.IsBinary line → (¬ ∃ i, d.Decodes line i) →
    Rejects d number line (.undefined number (String.ofList line))

theorem Rejects.unique {number : Nat} {line : List Char} {e other : LoadError}
    (rejects : d.Rejects number line e) (rejects' : d.Rejects number line other) : e = other := by
  cases rejects with
  | malformed wrong =>
    cases rejects' with
    | malformed => rfl
    | undefined binary => exact absurd binary wrong
  | undefined binary =>
    cases rejects' with
    | malformed wrong => exact absurd binary wrong
    | undefined => rfl

/-- What is said of a text that is not loaded. -/
inductive Refuses (d : Descriptor) (text : String) : LoadError → Prop
  | line {before raw after e} : Text.lines text.toList = before ++ raw :: after →
    (∀ line ∈ Machine.filled before, ∃ i, d.Decodes line i) → Text.trim raw ≠ [] →
    d.Rejects (before.length + 1) (Text.trim raw) e → Refuses d text e
  | tooLong {image} : List.Forall₂ d.Decodes (Machine.wordLines text) image →
    romSize < image.length → Refuses d text (.tooLong image.length)

theorem Refuses.ne_uncountable {text : String} {e : LoadError} (refuses : d.Refuses text e) :
    e ≠ .uncountableLayout := by
  rintro rfl
  cases refuses with
  | line _ _ _ rejects => cases rejects

end Descriptor

namespace Machine

variable {d : Descriptor} {e : LoadError}

theorem rejects_of_error (valid : d.validate = .ok ()) {number : Nat} {line : List Char}
    (failed : decodeLine d number line = .error e) : d.Rejects number line e := by
  have none : ¬ ∃ i, d.Decodes line i := by
    rintro ⟨i, decodes⟩
    cases failed.symm.trans (decodeLine_eq_ok.2 decodes)
  unfold decodeLine at failed
  split at failed
  · rename_i reason refused
    obtain ⟨wrong, rfl⟩ := Bits.parse_eq_error.1 refused
    obtain rfl := Except.error.inj failed
    rw [String.toList_ofList] at wrong
    exact .malformed wrong
  · rename_i word read
    obtain ⟨fits, text⟩ := Bits.parse_eq_ok.1 read
    rw [String.toList_ofList] at text
    split at failed
    · cases failed
    · obtain rfl := Except.error.inj failed
      exact .undefined (text ▸ fits.isBinary) none
    · rename_i wide
      exact absurd wide (Descriptor.ofWord_ne_uncountable valid word)

theorem decodeLine_eq_error (valid : d.validate = .ok ()) {number : Nat} {line : List Char} :
    decodeLine d number line = .error e ↔ d.Rejects number line e := by
  refine ⟨rejects_of_error valid, fun rejects => ?_⟩
  cases done : decodeLine d number line with
  | ok i =>
    obtain ⟨word, fits, text, decoded⟩ := decodeLine_eq_ok.1 done
    cases rejects with
    | malformed wrong => exact absurd (text ▸ fits.isBinary) wrong
    | undefined _ none => exact absurd ⟨i, word, fits, text, decoded⟩ none
  | error other => rw [(rejects_of_error valid done).unique rejects]

/-- One of the lines is not decoded with this error, and all before it are decoded. -/
def Reports (d : Descriptor) (start : Nat) (lines : List (List Char)) (e : LoadError) : Prop :=
  ∃ before raw after, lines = before ++ raw :: after ∧
    (∀ line ∈ filled before, ∃ i, d.Decodes line i) ∧ Text.trim raw ≠ [] ∧
    decodeLine d (start + before.length + 1) (Text.trim raw) = .error e

/-- Behind a line that is not decoded none is looked at. -/
theorem reports_cons_of_error {start : Nat} {raw : List Char} {other : LoadError}
    (text : Text.trim raw ≠ []) (failed : decodeLine d (start + 1) (Text.trim raw) = .error other)
    (rest : List (List Char)) : Reports d start (raw :: rest) e ↔ other = e := by
  constructor
  · rintro ⟨_ | ⟨_, before⟩, bad, after, split, good, -, failed'⟩
    · obtain ⟨rfl, -⟩ := List.cons.inj split
      exact Except.error.inj (failed.symm.trans failed')
    · obtain ⟨rfl, -⟩ := List.cons.inj split
      rw [filled_cons (mt List.isEmpty_iff.1 text), List.forall_mem_cons] at good
      obtain ⟨i, decodes⟩ := good.1
      cases failed.symm.trans (decodeLine_eq_ok.2 decodes)
  · rintro rfl
    exact ⟨[], raw, rest, rfl, nofun, text, failed⟩

/-- A line that is blank or decoded is passed over, but counted. -/
theorem reports_cons_of_good {start : Nat} {raw : List Char} {rest : List (List Char)}
    (good : ∀ line ∈ filled [raw], ∃ i, d.Decodes line i) :
    Reports d start (raw :: rest) e ↔ Reports d (start + 1) rest e := by
  have number : ∀ before : List (List Char),
      start + (raw :: before).length + 1 = start + 1 + before.length + 1 := by
    intro before
    rw [List.length_cons]
    omega
  have passed : ∀ before, filled (raw :: before) = filled [raw] ++ filled before :=
    filled_append [raw]
  constructor
  · rintro ⟨_ | ⟨_, before⟩, bad, after, split, others, text, failed⟩
    · obtain ⟨rfl, -⟩ := List.cons.inj split
      have kept : filled [raw] = [Text.trim raw] := filled_cons (mt List.isEmpty_iff.1 text) []
      obtain ⟨i, decodes⟩ := good _ (kept ▸ List.mem_singleton_self _)
      cases failed.symm.trans (decodeLine_eq_ok.2 decodes)
    · obtain ⟨rfl, rfl⟩ := List.cons.inj split
      rw [passed] at others
      exact ⟨before, bad, after, rfl, fun line there => others line (List.mem_append_right _ there),
        text, number before ▸ failed⟩
  · rintro ⟨before, bad, after, rfl, others, text, failed⟩
    refine ⟨raw :: before, bad, after, rfl, ?_, text, number before ▸ failed⟩
    rw [passed, List.forall_mem_append]
    exact ⟨good, others⟩

/-- **The first line that is not decoded is reported.** -/
theorem decodeLines_eq_error {lines : List (List Char)} {done : Array Decoded} {start : Nat} :
    decodeLines d done (lines.zipIdx start) = .error e ↔ Reports d start lines e := by
  induction lines generalizing done start with
  | nil => simp [decodeLines, Reports]
  | cons raw rest ih =>
    rw [List.zipIdx_cons, decodeLines]
    by_cases blank : (Text.trim raw).isEmpty = true
    · have none : filled [raw] = [] := filled_cons_of_blank blank []
      rw [if_pos blank, ih, reports_cons_of_good (by simp [none])]
    have kept : filled [raw] = [Text.trim raw] := filled_cons blank []
    rw [if_neg blank]
    cases first : decodeLine d (start + 1) (Text.trim raw) with
    | ok i =>
      rw [reports_cons_of_good (by simpa [kept] using ⟨i, decodeLine_eq_ok.1 first⟩)]
      exact ih
    | error other =>
      rw [reports_cons_of_error (mt List.isEmpty_iff.2 blank) first]
      simp only [Except.error.injEq]

theorem decodeText_of_reports {text : String} (first : Reports d 0 (Text.lines text.toList) e) :
    decodeText d text = .error e := by
  rw [decodeText, decodeLines_eq_error.2 first]

/-- **A text is refused for its first line that is not decoded**, and for its length when every
line is decoded. -/
theorem load_eq_error (valid : d.validate = .ok ()) {m : Machine} {text : String} :
    m.load d text = .error e ↔ d.Refuses text e := by
  constructor
  · intro failed
    cases decoded : decodeLines d #[] (Text.lines text.toList).zipIdx with
    | error other =>
      have first := decodeLines_eq_error.1 decoded
      rw [load, decodeText_of_reports first] at failed
      obtain rfl := Except.error.inj failed
      obtain ⟨before, raw, after, split, good, filled, failed⟩ := first
      rw [Nat.zero_add] at failed
      exact .line split good filled ((decodeLine_eq_error valid).1 failed)
    | ok rom =>
      obtain ⟨image, all, -⟩ := decodeLines_eq_ok_iff.1 decoded
      rw [load, decodeText_eq all] at failed
      split at failed
      · cases failed
      · rename_i long
        obtain rfl := Except.error.inj failed
        exact .tooLong all (Nat.lt_of_not_le long)
  · intro refuses
    cases refuses with
    | line split good filled rejects =>
      have failed := (decodeLine_eq_error valid).2 rejects
      rw [← Nat.zero_add (List.length _)] at failed
      rw [load, decodeText_of_reports ⟨_, _, _, split, good, filled, failed⟩]
      rfl
    | tooLong all long =>
      rw [load, decodeText_eq all, if_neg (Nat.not_le.2 long)]
      rfl

end Machine

end HackToolchain
