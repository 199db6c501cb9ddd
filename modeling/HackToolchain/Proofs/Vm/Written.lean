import HackToolchain.Proofs.Assembly.TwoPass
import HackToolchain.Proofs.Machine.Loading
import HackToolchain.Proofs.Vm.Lines

/-!
# The output through a file

* `assemble_map`: of a line assembling takes only what it says, and reports it as it is;
* `ofText_joinLines`: lines without line breaks are read back from their text;
* `output_oneLine`: the lines of the output hold no line breaks if the names of the units and
  the entry hold none;
* `written_output_agrees`: so the text of the output is assembled as the output itself.
-/

namespace HackToolchain

/-! ## What assembling takes from a line -/

/-- The report with its line replaced. -/
def Diagnostic.onLine {ε : Type} (φ : SourceLine → SourceLine) (r : Diagnostic ε) : Diagnostic ε :=
  { r with line := φ r.line }

namespace Assembly

section

variable {d : Descriptor} (φ : SourceLine → SourceLine)

def Survey.onLine (s : Survey) : Survey :=
  { s with
    queue := s.queue.map fun q => (φ q.1, q.2)
    errors := s.errors.map (Diagnostic.onLine φ) }

def Output.onLine (o : Output) : Output :=
  { o with errors := o.errors.map (Diagnostic.onLine φ) }

variable {φ}

theorem Survey.step_onLine (same : ∀ l, (φ l).reading = l.reading) (s : Survey) (l : SourceLine) :
    (s.onLine φ).step (φ l) = (s.step l).onLine φ := by
  rw [survey_step_eq, survey_step_eq, same]
  rcases l.reading with e | _ | name | i
  · simp [onLine, Diagnostic.onLine]
  · rfl
  · rfl
  · simp [onLine]

theorem Output.step_onLine (o : Output) (q : SourceLine × Instruction) :
    (o.onLine φ).step d (φ q.1, q.2) = (o.step d q).onLine φ := by
  simp only [step, onLine]
  split
  · rfl
  · simp [Diagnostic.onLine]

/-- **Of a line assembling takes only what it says.** -/
theorem assemble_map (same : ∀ l, (φ l).reading = l.reading) (lines : List SourceLine) :
    assemble d (lines.map φ) = (assemble d lines).mapError (List.map (Diagnostic.onLine φ)) := by
  have survey : Survey.ofLines d (lines.map φ) = (Survey.ofLines d lines).onLine φ := by
    have start : (Survey.start d).onLine φ = Survey.start d := by simp [Survey.onLine, Survey.start]
    have hom : lines.foldl (fun s l => s.step (φ l)) ((Survey.start d).onLine φ) =
        (lines.foldl Survey.step (Survey.start d)).onLine φ :=
      List.foldl_hom (Survey.onLine φ) fun s l => Survey.step_onLine same s l
    rwa [start, ← List.foldl_map] at hom
  have output : Output.ofSurvey d ((Survey.ofLines d lines).onLine φ) =
      (Output.ofSurvey d (Survey.ofLines d lines)).onLine φ := by
    generalize Survey.ofLines d lines = s
    rw [ofSurvey_eq, ofSurvey_eq]
    have queue : (s.onLine φ).queue.toList = s.queue.toList.map fun q => (φ q.1, q.2) := by
      simp [Survey.onLine]
    have hom : s.queue.toList.foldl (fun o q => o.step d (φ q.1, q.2))
        ((⟨s.symbols, #[], s.errors⟩ : Output).onLine φ) =
          (s.queue.toList.foldl (Output.step d) ⟨s.symbols, #[], s.errors⟩).onLine φ :=
      List.foldl_hom (Output.onLine φ) fun o q => Output.step_onLine o q
    rw [queue, List.foldl_map]
    exact hom
  unfold assemble
  rw [survey, output]
  generalize Output.ofSurvey d (Survey.ofLines d lines) = o
  by_cases clean : o.errors = #[]
  · simp [Output.onLine, clean, Except.mapError]
  · simp [Output.onLine, clean, Except.mapError]

end

end Assembly

/-! ## Texts of lines -/

/-- Nothing in the text ends a line. -/
def OneLine (text : String) : Prop := ∀ c ∈ text.toList, c ≠ '\n' ∧ c ≠ '\r'

instance (text : String) : Decidable (OneLine text) :=
  List.decidableBAll _ text.toList

section

variable {a b text : String}

theorem oneLine_append : OneLine (a ++ b) ↔ OneLine a ∧ OneLine b := by
  rw [OneLine, String.toList_append, List.forall_mem_append]
  rfl

theorem oneLine_of_no_blank (h : ∀ c ∈ text.toList, Text.isBlank c = false) : OneLine text := by
  intro c hc
  constructor
  · rintro rfl
    exact absurd (h _ hc) (by decide)
  · rintro rfl
    exact absurd (h _ hc) (by decide)

theorem oneLine_toString (n : Nat) : OneLine (toString n) := by
  apply oneLine_of_no_blank
  rw [Text.toList_toString]
  exact fun c hc => Text.isBlank_of_isDigit (Text.isDigit_of_mem_toDigits hc)

end

open CommandLine (SourceUnit joinLines translateUnits textOf?)

/-- A text of lines closes each of them. -/
theorem toList_joinLines {lines : List String} (nonempty : lines ≠ []) :
    (joinLines lines).toList = (lines.map String.toList).flatMap (· ++ ['\n']) := by
  have closed : ∀ ls : List (List Char), ls ≠ [] →
      ['\n'].intercalate ls ++ ['\n'] = ls.flatMap (· ++ ['\n']) := by
    intro ls some_line
    induction ls with
    | nil => exact absurd rfl some_line
    | cons l rest ih =>
      cases rest with
      | nil => simp
      | cons next rest =>
        rw [List.intercalate_cons_cons, List.flatMap_cons, ← ih (List.cons_ne_nil _ _)]
        simp
  rw [joinLines, String.toList_append, String.toList_intercalate]
  exact closed _ (by simpa using nonempty)

/-- **Lines without line breaks are read back from their text.** -/
theorem ofText_joinLines (file : String) {lines : List String} (nonempty : lines ≠ [])
    (clean : ∀ line ∈ lines, OneLine line) :
    SourceLine.ofText file (joinLines lines) = SourceLine.ofRaws file lines := by
  have cut : Text.lines (joinLines lines).toList = lines.map String.toList := by
    rw [toList_joinLines nonempty]
    apply Text.lines_of_joined
    · rintro l hl feed
      obtain ⟨line, hline, rfl⟩ := List.mem_map.1 hl
      exact (clean line hline _ feed).1 rfl
    · rintro l hl carriage
      obtain ⟨line, hline, rfl⟩ := List.mem_map.1 hl
      exact (clean line hline _ carriage).2 rfl
  have back : (lines.map String.toList).map String.ofList = lines := by simp
  rw [SourceLine.ofText, cut, back]

namespace Vm

open Expansion

/-! ## Lines of the output -/

theorem IsIdentifier.oneLine {name : String} (h : IsIdentifier name) : OneLine name := by
  apply oneLine_of_no_blank
  intro c hc
  exact (Assembly.isLabelChar_iff.1 (isLabelChar_of_isNameChar (h.chars c hc))).1

theorem Segment.oneLine_name (segment : Segment) : OneLine segment.name := by
  cases segment <;> decide

/-- The note of a command is one line if the name in it is one. -/
theorem Command.oneLine_text {c : Command} (named : ∀ name, c.name? = some name → OneLine name) :
    OneLine c.text := by
  cases c with
  | operate op => cases op <;> decide
  | push segment index | pop segment index =>
    simp only [text, oneLine_append]
    exact ⟨⟨⟨by decide, segment.oneLine_name⟩, by decide⟩, oneLine_toString _⟩
  | label name | goto name | ifGoto name => exact oneLine_append.2 ⟨by decide, named name rfl⟩
  | function name n | call name n =>
    simp only [text, oneLine_append]
    exact ⟨⟨⟨by decide, named name rfl⟩, by decide⟩, oneLine_toString _⟩
  | ret => decide

section

variable {name : String}

theorem oneLine_symbol (h : OneLine name) : OneLine (symbol name).text :=
  oneLine_append.2 ⟨by decide, h⟩

theorem oneLine_literal (n : Nat) : OneLine (literal n).text :=
  oneLine_append.2 ⟨by decide, oneLine_toString _⟩

theorem oneLine_label (h : OneLine name) : OneLine (label name).text :=
  oneLine_append.2 ⟨oneLine_append.2 ⟨by decide, h⟩, by decide⟩

theorem oneLine_returnLabel (h : OneLine name) (id : Nat) : OneLine (returnLabel name id) :=
  oneLine_append.2 ⟨oneLine_append.2 ⟨h, by decide⟩, oneLine_toString id⟩

end

theorem Item.Emitted.oneLine {unit : String} {c : Command} {item : Item}
    (h : item.Emitted unit c) (name : OneLine unit) (text : OneLine c.text) :
    OneLine item.text := by
  cases h with
  | note h =>
    rcases h with rfl | rfl
    · exact oneLine_append.2 ⟨by decide, text⟩
    · decide
  | compute known =>
    have spelled := Assembly.spelling_text
    exact oneLine_of_no_blank fun ch hch =>
      (Assembly.chars_of_spelling (plain_compute known) (spelled _ _ _) ch hch).1
  | number => exact oneLine_literal _
  | index => exact oneLine_literal _
  | arguments => exact oneLine_literal _
  | symbol h => exact oneLine_symbol h.oneLine
  | static index =>
    exact oneLine_symbol (oneLine_append.2 ⟨oneLine_append.2 ⟨name, by decide⟩, oneLine_toString _⟩)
  | label h => exact oneLine_label h.oneLine

section

variable {entry : Option String} {units : List SourceUnit} {t : Translator}

/-- **The lines of the output are lines**, whatever else the entry is called. -/
theorem output_oneLine (translated : translateUnits (.started entry) units = .ok t)
    (entry_line : ∀ name ∈ entry, OneLine name) (unit_lines : ∀ u ∈ units, OneLine u.name) :
    ∀ line ∈ t.lines, OneLine line := by
  intro line hline
  obtain ⟨item, hitem, rfl⟩ := List.mem_map.1 hline
  rw [output_of_translateUnits translated, List.mem_append] at hitem
  rcases hitem with hitem | hitem
  · exact (preamble_emitted entry "" .ret item hitem).oneLine (by decide) (by decide)
  obtain ⟨⟨unit, c⟩, hc, n, hitem⟩ := mem_expansion hitem
  have unit_line : OneLine unit := by
    rcases unit_of_mem_program hc with none | ⟨u, hu, some⟩
    · obtain rfl : unit = "" := none
      decide
    · obtain rfl : unit = u.name := some
      exact unit_lines u hu
  rcases valid_or_entry hc with valid | ⟨name, hname, rfl⟩
  · have note := Command.oneLine_text fun name named => (valid.named name named).oneLine
    exact (expand_emitted valid unit n item hitem).oneLine unit_line note
  · -- The entry need not be an identifier.
    have whole := entry_line name hname
    have note : OneLine (Command.call name 0).text := by
      apply Command.oneLine_text
      intro other named
      obtain rfl : name = other := Option.some.inj named
      exact whole
    rcases List.mem_cons.1 hitem with rfl | hitem
    · exact oneLine_append.2 ⟨by decide, note⟩
    · rcases mem_call hitem with rfl | rfl | rfl | emitted
      · exact oneLine_symbol (oneLine_returnLabel whole _)
      · exact oneLine_symbol whole
      · exact oneLine_label (oneLine_returnLabel whole _)
      · exact emitted.oneLine (by decide) note

/-- A text is read back from its bytes. -/
theorem textOf?_toUTF8 (text : String) : textOf? (.file text.toUTF8) = some text :=
  dif_pos text.isValidUTF8

/-- A blank line is assembled as no line. -/
theorem assemble_blank (d : Descriptor) (file : String) :
    Assembly.assemble d (SourceLine.ofText file "\n") = Assembly.assemble d [] :=
  rfl

/-- **The pipeline in memory and the pipeline through a file agree.** -/
theorem written_output_agrees (translated : translateUnits (.started entry) units = .ok t)
    (entry_line : ∀ name ∈ entry, OneLine name) (unit_lines : ∀ u ∈ units, OneLine u.name)
    (d : Descriptor) (file written : String) :
    ∃ text, textOf? (.file (joinLines t.lines).toUTF8) = some text ∧
      Assembly.assemble d (SourceLine.ofText written text) =
        (Assembly.assemble d (SourceLine.ofRaws file t.lines)).mapError
          (List.map (Diagnostic.onLine fun l => { l with file := written })) := by
  refine ⟨_, textOf?_toUTF8 _, ?_⟩
  have renamed := Assembly.assemble_map (d := d)
    (φ := fun l => { l with file := written }) (fun _ => rfl) (SourceLine.ofRaws file t.lines)
  rw [← renamed]
  by_cases empty : t.lines = []
  · rw [empty]
    exact assemble_blank d written
  · have lines := output_oneLine translated entry_line unit_lines
    rw [ofText_joinLines written empty lines]
    congr 1
    simp [SourceLine.ofRaws, Function.comp_def]

end

/-- A unit whose static cells are cut at a comment when they are read. -/
def remarked : SourceUnit := ⟨"a//b", SourceLine.ofRaws "a//b.vm" ["push static 0"]⟩

/-- A call of nothing fails in the file where it fails in memory. -/
theorem written_output_agrees_remarked :
    ∃ t text ds, translateUnits (.started (some "")) [remarked] = .ok t ∧
      textOf? (.file (joinLines t.lines).toUTF8) = some text ∧
      Assembly.assemble hack (SourceLine.ofText "out.asm" text) = .error ds ∧
      ds.map (fun r => (r.line.file, r.line.number, r.error)) =
        [("out.asm", 52, .missingOperand)] := by
  let t := ((Translator.empty.bootstrap "").translate remarked.name remarked.lines).2
  have translated : translateUnits (.started (some "")) [remarked] = .ok t := by rfl
  have entry_line : ∀ name ∈ some "", OneLine name := by decide
  have unit_lines : ∀ u ∈ [remarked], OneLine u.name := by decide
  obtain ⟨text, read, agrees⟩ :=
    written_output_agrees translated entry_line unit_lines hack "in memory" "out.asm"
  have fails : (match Assembly.assemble hack (SourceLine.ofRaws "in memory" t.lines) with
      | .ok _ => []
      | .error ds => ds.map fun r => (r.line.number, r.error)) = [(52, .missingOperand)] := by
    decide +kernel
  cases outcome : Assembly.assemble hack (SourceLine.ofRaws "in memory" t.lines) with
  | ok p =>
    rw [outcome] at fails
    cases fails
  | error ds =>
    rw [outcome] at agrees fails
    refine ⟨t, text, _, translated, read, agrees, ?_⟩
    have placed := congrArg (List.map fun x => ("out.asm", x)) fails
    rw [List.map_map] at placed ⊢
    exact placed

end Vm

end HackToolchain
