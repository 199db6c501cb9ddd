import HackToolchain.Proofs.Vm.Written

/-!
# Commands as texts

* `toList_text`, `Wording.terms`: the text of a command is one of its wordings;
* `parse_text`: so it is read back as the command;
* `parse_comment`: so is the comment in front of the code of the command;
* `parse_accepts_grammar`: the reader accepts exactly the grammar, and printing is its inverse.
-/

namespace HackToolchain

namespace Text

/-- Words with a space between them are read back. -/
theorem words_joined {ws : List (List Char)}
    (h : ∀ w ∈ ws, w ≠ [] ∧ ∀ c ∈ w, isBlank c = false) : words ([' '].intercalate ws) = ws := by
  induction ws with
  | nil => rfl
  | cons w rest ih =>
    obtain ⟨⟨nonempty, solid⟩, later⟩ := List.forall_mem_cons.1 h
    have word := words_of_no_blank nonempty solid
    cases rest with
    | nil => simpa using word
    | cons next rest =>
      rw [List.intercalate_cons_cons, List.append_assoc, List.singleton_append,
        words_append_blank (by decide), word, ih later, List.singleton_append]

theorem mem_joined {ws : List (List Char)} {c : Char} (h : c ∈ [' '].intercalate ws) :
    c = ' ' ∨ ∃ w ∈ ws, c ∈ w := by
  induction ws with
  | nil => cases h
  | cons w rest ih =>
    cases rest with
    | nil => exact .inr ⟨w, List.mem_cons_self, by simpa using h⟩
    | cons next rest =>
      rw [List.intercalate_cons_cons, List.append_assoc, List.singleton_append, List.mem_append,
        List.mem_cons] at h
      rcases h with here | rfl | later
      · exact .inr ⟨w, List.mem_cons_self, here⟩
      · exact .inl rfl
      · exact (ih later).imp_right fun ⟨x, hx, hc⟩ => ⟨x, List.mem_cons_of_mem w hx, hc⟩

end Text

namespace Vm

namespace Command

/-- The words of the text of a command. -/
def terms : Command → List String
  | operate op => [op.name]
  | push segment index => ["push", segment.name, toString index.toNat]
  | pop segment index => ["pop", segment.name, toString index.toNat]
  | label name => ["label", name]
  | goto name => ["goto", name]
  | ifGoto name => ["if-goto", name]
  | function name locals => ["function", name, toString locals.toNat]
  | call name arguments => ["call", name, toString arguments.toNat]
  | ret => ["return"]

theorem toList_text (c : Command) : c.text.toList = [' '].intercalate (c.terms.map String.toList) := by
  cases c <;> simp [text, terms, List.intercalate_cons_cons]

end Command

theorem numberWord_toString (n : Word) : NumberWord (toString n.toNat).toList n := by
  refine ⟨_, .inl rfl, decimal?_eq_some_iff.1 ?_⟩
  rw [Text.toList_toString, Text.decimal?_toDigits]

/-- A word with no sign of the assembler in it. -/
def Solid (w : List Char) : Prop := w ≠ [] ∧ w.all Assembly.isLabelChar = true

instance (w : List Char) : Decidable (Solid w) := inferInstanceAs (Decidable (_ ∧ _))

theorem Solid.chars {w : List Char} (h : Solid w) :
    ∀ c ∈ w, Text.isBlank c = false ∧ c ≠ '/' := by
  intro c hc
  obtain ⟨blank, slash, -⟩ := Assembly.isLabelChar_iff.1 (List.all_eq_true.1 h.2 c hc)
  exact ⟨blank, slash⟩

theorem NameWord.solid {w : List Char} (h : NameWord w) : Solid w :=
  ⟨h.nonempty, List.all_eq_true.2 fun c hc =>
    isLabelChar_of_isNameChar (isNameChar_iff_ranges.2 (h.chars c hc))⟩

theorem NumberWord.solid {w : List Char} {n : Word} (h : NumberWord w n) : Solid w := by
  refine ⟨h.nonempty, List.all_eq_true.2 fun c hc => ?_⟩
  obtain ⟨digits, shape, -, all, -⟩ := h
  have digit : c ∈ digits → Assembly.isLabelChar c = true := fun there =>
    isLabelChar_of_isNameChar (isNameChar_of_isDigit (isDigit_iff.2 (all c there)))
  rcases shape with rfl | rfl
  · exact digit hc
  · rcases List.mem_cons.1 hc with rfl | there
    · decide
    · exact digit there

namespace Wording

variable {c : Command} {ws : List (List Char)}

/-- **The text of a command is one of its wordings.** -/
theorem terms (h : Wording c ws) : Wording c (c.terms.map String.toList) := by
  have number := numberWord_toString
  cases h with
  | operate op => exact .operate op
  | ret => exact .ret
  | @label w named => simpa [Command.terms] using Wording.label named
  | @goto w named => simpa [Command.terms] using Wording.goto named
  | @ifGoto w named => simpa [Command.terms] using Wording.ifGoto named
  | @function w _ n named _ => simpa [Command.terms] using Wording.function named (number n)
  | @call w _ n named _ => simpa [Command.terms] using Wording.call named (number n)
  | push counted range => exact .push (number _) range
  | pop counted range writable => exact .pop (number _) range writable

theorem solid (h : Wording c ws) : ∀ w ∈ ws, Solid w := by
  have operators : ∀ op : Operator, Solid op.name.toList := fun op => by cases op <;> decide
  have segments : ∀ x : Segment, Solid x.name.toList := fun x => by cases x <;> decide
  cases h with
  | operate op => simp [operators op]
  | ret => decide
  | label named | goto named | ifGoto named =>
    rw [List.forall_mem_cons, List.forall_mem_singleton]
    exact ⟨by decide, named.solid⟩
  | function named counted | call named counted =>
    rw [List.forall_mem_cons, List.forall_mem_cons, List.forall_mem_singleton]
    exact ⟨by decide, named.solid, counted.solid⟩
  | push counted range | pop counted range writable =>
    rw [List.forall_mem_cons, List.forall_mem_cons, List.forall_mem_singleton]
    exact ⟨by decide, segments _, counted.solid⟩

end Wording

section

variable {c : Command} {ws : List (List Char)}

/-- In the text of a command there are no other blanks than spaces, and no slashes. -/
theorem mem_text (h : Wording c ws) {ch : Char} (there : ch ∈ c.text.toList) :
    ch = ' ' ∨ Text.isBlank ch = false ∧ ch ≠ '/' := by
  rw [c.toList_text] at there
  exact (Text.mem_joined there).imp_right fun ⟨w, hw, hch⟩ => (h.terms.solid w hw).chars ch hch

theorem words_text (h : Wording c ws) : Text.words c.text.toList = c.terms.map String.toList := by
  rw [c.toList_text]
  apply Text.words_joined
  intro w hw
  have solid := h.terms.solid w hw
  exact ⟨solid.1, fun ch hch => (solid.chars ch hch).1⟩

end

namespace Command

variable {code : List Char} {c : Command}

/-- **Printing a command that was read is undone by reading it.** -/
theorem parse_text (read : parse code = .ok (some c)) : parse c.text.toList = .ok (some c) := by
  have wording := parse_eq_some_iff.1 read
  rw [parse_eq_some_iff, words_text wording]
  exact wording.terms

/-- The text of a command that was read is one line with no comment in it. -/
theorem text_plain (read : parse code = .ok (some c)) :
    (∀ ch ∈ c.text.toList, Text.isBlank ch = true → ch = ' ') ∧ OneLine c.text ∧
      ¬ ['/', '/'] <:+: c.text.toList := by
  have chars : ∀ ch ∈ c.text.toList, ch = ' ' ∨ Text.isBlank ch = false ∧ ch ≠ '/' :=
    fun ch => mem_text (parse_eq_some_iff.1 read)
  have spaces : ∀ ch ∈ c.text.toList, Text.isBlank ch = true → ch = ' ' :=
    fun ch there blank => (chars ch there).resolve_right fun solid => by simp [blank] at solid
  refine ⟨spaces, fun ch there => ⟨?_, ?_⟩, SourceLine.no_slashes_of_notMem fun slash => ?_⟩
  · rintro rfl
    exact absurd (spaces _ there (by decide)) (by decide)
  · rintro rfl
    exact absurd (spaces _ there (by decide)) (by decide)
  · rcases chars _ slash with space | ⟨-, other⟩
    · exact absurd space (by decide)
    · exact other rfl

/-- The first line of the code of a command is a comment that says the command. -/
theorem parse_comment (read : parse code = .ok (some c)) (unit : String) (n : Counters)
    (file : String) (index : Nat) :
    ∃ line rest comment, (c.expand unit n).map Item.text = line :: rest ∧
      (⟨file, index, line⟩ : SourceLine).comment? = some comment ∧
      parse comment.toList = .ok (some c) := by
  refine ⟨_, _, .ofList (' ' :: c.text.toList), rfl, ?_, ?_⟩
  · simp [SourceLine.comment?, SourceLine.splitComment, Item.text]
  · have read := parse_eq_some_iff.1 (parse_text read)
    rwa [parse_eq_some_iff, String.toList_ofList, Text.words_cons_blank (by decide)]

/-- **The reader accepts exactly the grammar of commands, and printing is its inverse.** The words of a
line are the pieces between blanks that are not empty. A line is read as no command if and only if it
is blank, as a command if and only if its words are a wording of it, and is refused otherwise. The text
of a command that was read has no other blank than spaces, so it is one line, holds no comment sign, and
is read back; so is the comment in front of the code of the command. -/
theorem parse_accepts_grammar (code : List Char) :
    (parse code = .ok none ↔ ∀ ch ∈ code, Text.isBlank ch = true) ∧
    (∀ c, parse code = .ok (some c) ↔
      Wording c ((code.splitOnP Text.isBlank).filter fun w => !w.isEmpty)) ∧
    ((∃ e, parse code = .error e) ↔ (∃ ch ∈ code, Text.isBlank ch = false) ∧
      ∀ c, ¬ Wording c ((code.splitOnP Text.isBlank).filter fun w => !w.isEmpty)) ∧
    ∀ c, parse code = .ok (some c) →
      (∀ ch ∈ c.text.toList, Text.isBlank ch = true → ch = ' ') ∧ OneLine c.text ∧
      ¬ ['/', '/'] <:+: c.text.toList ∧
      parse c.text.toList = .ok (some c) ∧
      ∀ unit n file index, ∃ line rest comment,
        (c.expand unit n).map Item.text = line :: rest ∧
        (⟨file, index, line⟩ : SourceLine).comment? = some comment ∧
        parse comment.toList = .ok (some c) := by
  rw [← Text.words_eq]
  refine ⟨parse_eq_none_iff, fun c => parse_eq_some_iff, ?_, fun c read => ?_⟩
  · have blank : (∃ ch ∈ code, Text.isBlank ch = false) ↔ parse code ≠ .ok none := by
      simp [parse_eq_none_iff]
    simp only [← parse_eq_some_iff, blank]
    cases parse code with
    | error e => simp
    | ok r => cases r <;> simp
  · obtain ⟨spaces, line, comment⟩ := text_plain read
    exact ⟨spaces, line, comment, parse_text read, parse_comment read⟩

/-- Blanks of any kind, a sign and zeros in front of a number do not matter. -/
theorem parse_accepts_grammar_signed :
    parse "\tpush  constant\u00a0+007 ".toList = .ok (some (.push .constant 7)) ∧
      parse (Command.push .constant 7).text.toList = .ok (some (.push .constant 7)) := by
  have read : parse "\tpush  constant\u00a0+007 ".toList = .ok (some (.push .constant 7)) := by
    decide
  obtain ⟨-, -, -, printed⟩ := parse_accepts_grammar "\tpush  constant\u00a0+007 ".toList
  obtain ⟨-, -, -, again, -⟩ := printed _ read
  exact ⟨read, again⟩

end Command

end Vm

end HackToolchain
