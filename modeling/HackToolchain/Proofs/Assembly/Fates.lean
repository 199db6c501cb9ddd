import HackToolchain.Proofs.Assembly.TwoPass

/-!
# What becomes of each line

* `fates`: the lines that take a word, in order, each with the word or the error that comes of it;
* `assemble_fates`: both passes together give these words, or report these errors with those of
  unreadable lines in front;
* `lines_accounted`: no line is skipped but blank ones and those that begin with a parenthesis;
* `skips_opened_lines`: which need not be labels.
-/

namespace HackToolchain

/-- What a line comes to under a table, and the table behind it. Blank lines and labels come to
nothing. -/
def SourceLine.handled? (d : Descriptor) (s : Assembly.SymbolTable) (l : SourceLine) :
    Option (Except Assembly.Error Bits × Assembly.SymbolTable) :=
  match l.reading with
  | .error e => some (.error e, s)
  | .ok (some (.instruction i)) => some (i.encode d s)
  | .ok _ => none

namespace Assembly

/-- A line that takes a word, with what became of it. -/
structure Fate where
  line : SourceLine
  result : Except Error Bits

namespace Fate

def word? (f : Fate) : Option Bits := f.result.toOption

def report? (f : Fate) : Option (Diagnostic Error) :=
  match f.result with
  | .error e => some ⟨f.line, e⟩
  | .ok _ => none

/-- The line was not read. -/
def unread (f : Fate) : Bool := f.line.reading.error?.isSome

@[simp] theorem word?_ok (l : SourceLine) (w : Bits) : word? ⟨l, .ok w⟩ = some w := rfl

@[simp] theorem word?_error (l : SourceLine) (e : Error) : word? ⟨l, .error e⟩ = none := rfl

@[simp] theorem report?_ok (l : SourceLine) (w : Bits) : report? ⟨l, .ok w⟩ = none := rfl

@[simp] theorem report?_error (l : SourceLine) (e : Error) :
    report? ⟨l, .error e⟩ = some ⟨l, e⟩ := rfl

theorem report?_eq_some {f : Fate} {r : Diagnostic Error} :
    f.report? = some r ↔ f.line = r.line ∧ f.result = .error r.error := by
  obtain ⟨l, e | w⟩ := f <;> obtain ⟨l', e'⟩ := r <;> simp

end Fate

/-- What becomes of lines one after the other. -/
def fates (d : Descriptor) : SymbolTable → List SourceLine → List Fate
  | _, [] => []
  | s, l :: rest =>
    match l.handled? d s with
    | some (result, next) => ⟨l, result⟩ :: fates d next rest
    | none => fates d s rest

/-- The table behind lines. -/
def tableAfter (d : Descriptor) : SymbolTable → List SourceLine → SymbolTable
  | s, [] => s
  | s, l :: rest =>
    match l.handled? d s with
    | some (_, next) => tableAfter d next rest
    | none => tableAfter d s rest

/-- The reports of lines that were not read, and behind them all others. -/
def reportsOf (fs : List Fate) : List (Diagnostic Error) :=
  (fs.filter Fate.unread).filterMap Fate.report? ++
    (fs.filter (!Fate.unread ·)).filterMap Fate.report?

section

variable {d : Descriptor} {s : SymbolTable} {lines : List SourceLine} {l : SourceLine}

/-- A line comes to something when it takes a word. -/
theorem handled?_isSome (d : Descriptor) (s : SymbolTable) (l : SourceLine) :
    (l.handled? d s).isSome = l.reading.takesWord := by
  unfold SourceLine.handled?
  rcases l.reading with e | _ | name | i <;> rfl

theorem fates_append (s : SymbolTable) (front back : List SourceLine) :
    fates d s (front ++ back) = fates d s front ++ fates d (tableAfter d s front) back := by
  induction front generalizing s with
  | nil => rfl
  | cons l rest ih =>
    rw [List.cons_append, fates, fates, tableAfter]
    cases l.handled? d s with
    | none => exact ih s
    | some r =>
      obtain ⟨result, next⟩ := r
      exact congrArg _ (ih next)

/-- **Every line that takes a word has its fate.** -/
theorem fates_lines (s : SymbolTable) (lines : List SourceLine) :
    (fates d s lines).map Fate.line = lines.filter fun l => l.reading.takesWord := by
  induction lines generalizing s with
  | nil => rfl
  | cons l rest ih =>
    have takes := handled?_isSome d s l
    rw [fates, List.filter_cons, ← takes]
    cases l.handled? d s with
    | none => exact ih s
    | some r =>
      obtain ⟨result, next⟩ := r
      exact congrArg _ (ih next)

/-- What became of a line is its own doing under some table. -/
theorem handled?_of_mem_fates {f : Fate} (h : f ∈ fates d s lines) :
    f.line ∈ lines ∧ ∃ t next, f.line.handled? d t = some (f.result, next) := by
  induction lines generalizing s with
  | nil => cases h
  | cons l rest ih =>
    rw [fates] at h
    cases hl : l.handled? d s with
    | none =>
      rw [hl] at h
      exact (ih h).imp_left (List.mem_cons_of_mem _)
    | some r =>
      obtain ⟨result, next⟩ := r
      rw [hl] at h
      rcases List.mem_cons.1 h with rfl | h
      · exact ⟨List.mem_cons_self, s, next, hl⟩
      · exact (ih h).imp_left (List.mem_cons_of_mem _)

/-! ## Both passes -/

/-- The second pass goes through the lines that were read. -/
theorem secondPass_fates (lines : List SourceLine) (o : Output) :
    (queued lines).foldl (Output.step d) o =
      ⟨tableAfter d o.symbols lines,
        o.words ++ ((fates d o.symbols lines).filterMap Fate.word?).toArray,
        o.errors ++
          (((fates d o.symbols lines).filter (!Fate.unread ·)).filterMap Fate.report?).toArray⟩ := by
  induction lines generalizing o with
  | nil => simp [queued, fates, tableAfter]
  | cons l rest ih =>
    rcases hr : l.reading with e | _ | name | i
    · have skip : queued (l :: rest) = queued rest := by simp [queued, hr, Reading.instruction?]
      have unread : Fate.unread ⟨l, .error e⟩ = true := by simp [Fate.unread, hr, Reading.error?]
      rw [skip, ih]
      simp [fates, tableAfter, SourceLine.handled?, hr, unread, List.filterMap_cons]
    · have skip : queued (l :: rest) = queued rest := by simp [queued, hr, Reading.instruction?]
      rw [skip, ih]
      simp [fates, tableAfter, SourceLine.handled?, hr]
    · have skip : queued (l :: rest) = queued rest := by simp [queued, hr, Reading.instruction?]
      rw [skip, ih]
      simp [fates, tableAfter, SourceLine.handled?, hr]
    · have here : queued (l :: rest) = (l, i) :: queued rest := by
        simp [queued, hr, Reading.instruction?]
      have read : ∀ result, Fate.unread ⟨l, result⟩ = false := by
        simp [Fate.unread, hr, Reading.error?]
      rw [here, List.foldl_cons, ih, Output.step]
      simp only [fates, tableAfter, SourceLine.handled?, hr]
      rcases i.encode d o.symbols with ⟨e | word, next⟩
      · simp [read, List.filterMap_cons]
      · simp [read, List.filterMap_cons]

/-- The lines that were not read are those that the first pass reports. -/
theorem unreadable_fates (s : SymbolTable) (lines : List SourceLine) :
    unreadable lines = ((fates d s lines).filter Fate.unread).filterMap Fate.report? := by
  induction lines generalizing s with
  | nil => rfl
  | cons l rest ih =>
    rw [unreadable, List.filterMap_cons, ← unreadable, fates, SourceLine.handled?]
    rcases hr : l.reading with e | _ | name | i
    · have unread : Fate.unread ⟨l, .error e⟩ = true := by simp [Fate.unread, hr, Reading.error?]
      simp [Reading.error?, unread, ih s]
    · exact ih s
    · exact ih s
    · have read : Fate.unread ⟨l, (i.encode d s).1⟩ = false := by
        simp [Fate.unread, hr, Reading.error?]
      simp [Reading.error?, read, ih (i.encode d s).2]

/-- **Assembling gives the fates of the lines.** -/
theorem assemble_fates (d : Descriptor) (lines : List SourceLine) :
    let s := (Survey.ofLines d lines).symbols
    assemble d lines =
      if reportsOf (fates d s lines) = [] then
        .ok ⟨(fates d s lines).filterMap Fate.word?, tableAfter d s lines⟩
      else .error (reportsOf (fates d s lines)) := by
  intro s
  have survey := survey_describes d lines
  have errors : (Survey.ofLines d lines).errors =
      (((fates d s lines).filter Fate.unread).filterMap Fate.report?).toArray := by
    rw [← unreadable_fates, ← survey.errors, Array.toArray_toList]
  have output : Output.ofSurvey d (Survey.ofLines d lines) =
      ⟨tableAfter d s lines, ((fates d s lines).filterMap Fate.word?).toArray,
        (reportsOf (fates d s lines)).toArray⟩ := by
    rw [ofSurvey_eq, survey.queue, secondPass_fates, errors]
    simp [reportsOf, s]
  rw [assemble, output]
  simp

theorem reportsOf_perm (fs : List Fate) : (reportsOf fs).Perm (fs.filterMap Fate.report?) := by
  rw [reportsOf, ← List.filterMap_append]
  exact (List.filter_append_perm _ fs).filterMap _

end

/-! ## Lines that are skipped -/

/-- A name in parentheses, with nothing behind them and none within. -/
def isLabelText : List Char → Bool
  | '(' :: rest => rest.getLast? = some ')' && rest.dropLast.all fun c => c ≠ '(' && c ≠ ')'
  | _ => false

theorem isLabelText_iff {code : List Char} :
    isLabelText code = true ↔ ∃ name, code = '(' :: (name ++ [')']) ∧ '(' ∉ name ∧ ')' ∉ name := by
  constructor
  · intro h
    unfold isLabelText at h
    split at h
    · rename_i rest
      rw [Bool.and_eq_true, decide_eq_true_iff] at h
      obtain ⟨last, plain⟩ := h
      obtain ⟨name, rfl⟩ := List.getLast?_eq_some_iff.1 last
      rw [List.dropLast_concat] at plain
      refine ⟨name, rfl, ?_, ?_⟩
      · exact fun there => by simpa using List.all_eq_true.1 plain _ there
      · exact fun there => by simpa using List.all_eq_true.1 plain _ there
    · cases h
  · rintro ⟨name, rfl, opening, closing⟩
    rw [isLabelText, List.getLast?_concat, List.dropLast_concat, Bool.and_eq_true,
      List.all_eq_true]
    refine ⟨by simp, fun c hc => ?_⟩
    have first : c ≠ '(' := fun same => opening (same ▸ hc)
    have second : c ≠ ')' := fun same => closing (same ▸ hc)
    simp [first, second]

/-- Neither blank nor a label. -/
def isCode (code : List Char) : Bool := code ≠ [] && !isLabelText code

/-- Begins like a label. -/
def isOpened (code : List Char) : Bool := code.head? = some '('

theorem isOpened_of_isLabelText {code : List Char} (h : isLabelText code = true) :
    isOpened code = true := by
  obtain ⟨name, rfl, -⟩ := isLabelText_iff.1 h
  rfl

/-- A line takes a word by its first character. -/
theorem takesWord_eq (l : SourceLine) :
    l.reading.takesWord = (l.code ≠ [] && !isOpened l.code) := by
  have instruction : ∀ r : Except Error Instruction,
      Reading.takesWord (r.map fun i => some (.instruction i)) = true := by
    rintro (e | i) <;> rfl
  change Reading.takesWord (Statement.parse l.code) = _
  cases l.code with
  | nil => rfl
  | cons c rest =>
    by_cases opened : c = '('
    · rw [opened]
      rfl
    · rw [Statement.parse, instruction]
      · simp [isOpened, opened]
      · simp
      · simpa using opened

/-- Of the lines that are neither blank nor labels some begin like a label. -/
theorem countP_isCode (lines : List SourceLine) :
    lines.countP (fun l => isCode l.code) =
      lines.countP (fun l => l.code ≠ [] && !isOpened l.code) +
        lines.countP fun l => isOpened l.code && !isLabelText l.code := by
  rw [List.countP_eq_countP_filter_add _ _ fun l : SourceLine => !isOpened l.code,
    List.countP_filter, List.countP_filter]
  congr 1
  · apply List.countP_congr
    intro l _
    cases label : isLabelText l.code with
    | true => simp [isCode, label, isOpened_of_isLabelText label]
    | false => simp [isCode, label]
  · apply List.countP_congr
    intro l _
    cases code : l.code with
    | nil => simp [isCode, isOpened]
    | cons c rest => simp [isCode, and_comm]

/-- With nothing to report every result is a word. -/
theorem results_of_reportsOf {fs : List Fate} (none : reportsOf fs = []) :
    fs.map Fate.result = (fs.filterMap Fate.word?).map .ok := by
  have perm := reportsOf_perm fs
  rw [none, List.nil_perm, List.filterMap_eq_nil_iff] at perm
  clear none
  induction fs with
  | nil => rfl
  | cons f rest ih =>
    obtain ⟨l, e | w⟩ := f
    · cases perm _ List.mem_cons_self
    · rw [List.filterMap_cons_some (Fate.word?_ok l w), List.map_cons, List.map_cons,
        ih fun g hg => perm g (List.mem_cons_of_mem _ hg)]

/-- **No line is skipped but what a parenthesis opens.** Each other line that is not blank comes to
one word or to one error. A program that comes out has these words; an error that comes out is
these errors. So a program has as many words as there are lines that are neither blank nor labels,
less those that begin like a label and go on otherwise. -/
theorem lines_accounted (d : Descriptor) (lines : List SourceLine) :
    ∃ fs : List Fate,
      fs.map Fate.line = lines.filter (fun l => l.code ≠ [] && !isOpened l.code) ∧
      (∀ f ∈ fs, ∃ s next, f.line.handled? d s = some (f.result, next)) ∧
      (∀ p, assemble d lines = .ok p → fs.map Fate.result = p.words.map .ok) ∧
      (∀ ds, assemble d lines = .error ds → ds ≠ [] ∧ ds.Perm (fs.filterMap Fate.report?)) ∧
      (∀ p, assemble d lines = .ok p →
        p.words.length + lines.countP (fun l => isOpened l.code && !isLabelText l.code) =
          lines.countP fun l => isCode l.code) ∧
      ((∀ l ∈ lines, isOpened l.code → isLabelText l.code) →
        fs.map Fate.line = lines.filter fun l => isCode l.code) := by
  let fs := fates d (Survey.ofLines d lines).symbols lines
  have whole := assemble_fates d lines
  have mapped : fs.map Fate.line = lines.filter fun l => l.code ≠ [] && !isOpened l.code := by
    rw [fates_lines]
    exact List.filter_congr fun l _ => takesWord_eq l
  have words : ∀ p, assemble d lines = .ok p → fs.map Fate.result = p.words.map .ok := by
    intro p assembled
    rw [whole] at assembled
    split at assembled
    · rename_i none
      obtain rfl := Except.ok.inj assembled
      exact results_of_reportsOf none
    · cases assembled
  refine ⟨fs, mapped, fun f hf => (handled?_of_mem_fates hf).2, words, ?_, ?_, ?_⟩
  · intro ds failed
    rw [whole] at failed
    split at failed
    · cases failed
    · rename_i some
      obtain rfl := Except.error.inj failed
      exact ⟨some, reportsOf_perm fs⟩
  · intro p assembled
    have size := congrArg List.length (words p assembled)
    rw [List.length_map, List.length_map, ← List.length_map Fate.line, mapped,
      ← List.countP_eq_length_filter] at size
    rw [countP_isCode, size]
  · intro labels
    rw [mapped]
    apply List.filter_congr
    intro l hl
    cases opened : isOpened l.code with
    | true => simp [isCode, labels l hl opened]
    | false =>
      have unlabelled : isLabelText l.code = false :=
        Bool.eq_false_iff.2 fun h => by simp [isOpened_of_isLabelText h] at opened
      simp [isCode, unlabelled]

/-- Instructions behind a label, and lines that only begin like one. -/
def openedLines : List SourceLine :=
  SourceLine.ofRaws "opened.asm" ["(LOOP) D=M", "(FOO", "@LOOP", "0;JMP"]

/-- The first two lines are neither words nor errors. -/
theorem skips_opened_lines :
    openedLines.map (fun l => isCode l.code) = [true, true, true, true] ∧
      ∃ p, assemble hack openedLines = .ok p ∧ p.words.map Bits.toString =
        ["0000000000000000", "1110101010000111"] := by
  refine ⟨by decide +kernel, ?_⟩
  have shown : ((assemble hack openedLines).toOption.map fun p => p.words.map Bits.toString) =
      some ["0000000000000000", "1110101010000111"] := by decide +kernel
  cases assembled : assemble hack openedLines with
  | error ds => simp [assembled, Except.toOption] at shown
  | ok p => exact ⟨p, rfl, by simpa [assembled, Except.toOption] using shown⟩

end Assembly

end HackToolchain
