import Mathlib.Data.List.Nodup
import HackToolchain.Proofs.Vm.Numbering

/-!
# Runs with units that fail

One translator takes any number of calls, and some of them fail:

* `Translator.translate_failed`: a call fails at the first line that is no command;
* `failed_units_leave_no_trace`: the output is that of the other calls alone, but for the numbers
  of made-up labels;
* `made_labels_unique`: no two comparisons or calls ever have a label in common.
-/

namespace HackToolchain.Vm

open Numbered (placed?)

/-! ## What a call expands -/

namespace Call

/-- The commands that are expanded in a call, which need not keep them. -/
def expanded : Call → List Placed
  | bootstrap entry => [("", .call entry 0)]
  | translate unit lines => (commandsOf lines).map fun c => (unit, c)

def refused? : Call → Option (Diagnostic Error)
  | bootstrap _ => none
  | translate _ lines => lines.findSome? refusal?

theorem commandsOf_of_accepted {lines : List SourceLine} (h : lines.findSome? refusal? = none) :
    commandsOf lines = lines.filterMap commandOf? := by
  have all : lines.takeWhile (fun line => (refusal? line).isNone) = lines := by
    apply List.takeWhile_eq_self_iff.2
    intro line hline
    rw [List.findSome?_eq_none_iff.1 h line hline]
    rfl
  rw [commandsOf, all]

theorem program_of_accepted {call : Call} (h : call.refused? = none) :
    call.program = call.expanded := by
  cases call with
  | bootstrap entry => rfl
  | translate unit lines =>
    have h : lines.findSome? refusal? = none := h
    rw [program, h, expanded, commandsOf_of_accepted h]
    rfl

theorem program_of_refused {call : Call} {d : Diagnostic Error} (h : call.refused? = some d) :
    call.program = [] := by
  cases call with
  | bootstrap entry => cases h
  | translate unit lines =>
    have h : lines.findSome? refusal? = some d := h
    rw [program, h]

theorem preamble_of_refused {call : Call} {d : Diagnostic Error} (h : call.refused? = some d) :
    call.preamble = [] := by
  cases call with
  | bootstrap entry => cases h
  | translate unit lines => rfl

/-- The lines that a call adds at given counters. -/
def numbered (n : Counters) (call : Call) : List Numbered :=
  call.preamble.map .plain ++ Vm.numbered n call.program

end Call

namespace Translator

theorem adds_extend (t : Translator) (unit : String) (commands : List Command) :
    t.Extends (commands.map fun c => (unit, c)) (commands.foldl (fun t c => t.add unit c) t) := by
  induction commands generalizing t with
  | nil => exact .nil t
  | cons c rest ih => exact (add_extends t unit c).trans (ih (t.add unit c))

theorem translate_eq (t : Translator) (unit : String) (lines : List SourceLine) :
    (t.translate unit lines).1 = lines.findSome? refusal? := by
  rw [translate, t.addLines_eq]
  cases lines.findSome? refusal? <;> rfl

/-- Numbers stay used whether the call fails or not. -/
theorem perform_counters (t : Translator) (call : Call) :
    (t.perform call).counters = countersAfter t.counters call.expanded := by
  cases call with
  | bootstrap entry => rfl
  | translate unit lines =>
    have used := (t.adds_extend unit (commandsOf lines)).counters
    rw [perform, translate, t.addLines_eq]
    cases lines.findSome? refusal? with
    | none => exact used
    | some d => exact used

theorem perform_numbered (t : Translator) (call : Call) :
    (t.perform call).output.toList =
      t.output.toList ++ (call.numbered t.counters).map Numbered.item := by
  rw [perform_output, Call.numbered, List.map_append, Numbered.map_item_plain, numbered_items]

theorem perform_refused (t : Translator) {call : Call} {d : Diagnostic Error}
    (h : call.refused? = some d) : (t.perform call).output = t.output := by
  apply Array.toList_inj.1
  rw [perform_output, Call.preamble_of_refused h, Call.program_of_refused h]
  exact List.append_nil _

end Translator

/-! ## Runs -/

/-- The lines of a run from given counters on. -/
def numberedRun (n : Counters) : List Call → List Numbered
  | [] => []
  | call :: rest => call.numbered n ++ numberedRun (countersAfter n call.expanded) rest

theorem Translator.performAll_numbered (t : Translator) (calls : List Call) :
    (t.performAll calls).output.toList =
      t.output.toList ++ (numberedRun t.counters calls).map Numbered.item := by
  induction calls generalizing t with
  | nil => exact (List.append_nil _).symm
  | cons call rest ih =>
    have later := ih (t.perform call)
    rw [perform_numbered, perform_counters, List.append_assoc, ← List.map_append] at later
    exact later

/-! ## Failures -/

namespace Translator

/-- The call is carried out. -/
def accepts (t : Translator) : Call → Bool
  | .bootstrap _ => true
  | .translate unit lines => (t.translate unit lines).1.isNone

/-- The calls of a run that do not fail. -/
def kept (t : Translator) : List Call → List Call
  | [] => []
  | call :: rest =>
    if t.accepts call then call :: (t.perform call).kept rest else (t.perform call).kept rest

theorem accepts_eq (t : Translator) (call : Call) : t.accepts call = call.refused?.isNone := by
  cases call with
  | bootstrap entry => rfl
  | translate unit lines => rw [accepts, translate_eq]; rfl

/-- A call fails at the first line that is no command, and keeps nothing. -/
theorem translate_failed {t next : Translator} {unit : String} {lines : List SourceLine}
    {d : Diagnostic Error} (h : t.translate unit lines = (some d, next)) :
    next.output = t.output ∧ ∃ front back, lines = front ++ d.line :: back ∧
      (∀ line ∈ front, ∃ read, Command.parse line.code = .ok read) ∧
      Command.parse d.line.code = .error d.error := by
  have first : lines.findSome? refusal? = some d := by rw [← t.translate_eq unit, h]
  have nothing : (t.perform (.translate unit lines)).output = t.output := t.perform_refused first
  rw [perform, h] at nothing
  refine ⟨nothing, ?_⟩
  obtain ⟨front, line, back, split, refused, before⟩ := List.findSome?_eq_some_iff.1 first
  unfold refusal? at refused
  cases hp : Command.parse line.code with
  | ok read => simp [hp] at refused
  | error e =>
    simp only [hp, Option.some.injEq] at refused
    subst refused
    refine ⟨front, back, split, fun l hl => ?_, hp⟩
    have taken := before l hl
    unfold refusal? at taken
    cases hl : Command.parse l.code with
    | ok read => exact ⟨read, rfl⟩
    | error e => simp [hl] at taken

end Translator

theorem Renumbering.Moves.call {r : Renumbering} {n m : Counters} (h : r.Moves n m) (call : Call) :
    (call.numbered n).map r.line = call.numbered m := by
  rw [Call.numbered, Call.numbered, List.map_append, map_line_plain, h.program]

/-- A translator that made calls which failed, beside one that made only the others: the lines of
both, and how the numbers of the second become those of the first. -/
structure Follows (t alone : Translator) (lines : List Numbered) (r : Renumbering) : Prop where
  output : t.output.toList = lines.map fun l => (r.line l).item
  alone_output : alone.output.toList = lines.map Numbered.item
  used : ∀ l ∈ lines, ∀ g, l.made? = some g → ¬ g.Since alone.counters
  moves : r.Moves alone.counters t.counters

namespace Follows

variable {t alone : Translator} {lines : List Numbered} {r : Renumbering} {call : Call}

theorem accepted (h : Follows t alone lines r) (taken : call.refused? = none) :
    Follows (t.perform call) (alone.perform call) (lines ++ call.numbered alone.counters) r where
  output := by
    rw [t.perform_numbered, h.output, List.map_append, ← h.moves.call call, List.map_map]
    rfl
  alone_output := by rw [alone.perform_numbered, h.alone_output, List.map_append]
  used := by
    intro l hl g made
    rw [alone.perform_counters]
    rcases List.mem_append.1 hl with earlier | here
    · exact fun since => h.used l earlier g made since.of_countersAfter
    · rw [← Call.program_of_accepted taken]
      apply not_since_of_mem_generated
      rcases List.mem_append.1 here with front | code
      · obtain ⟨item, -, rfl⟩ := List.mem_map.1 front
        cases made
      · exact made_numbered _ _ (List.mem_filterMap.2 ⟨l, code, made⟩)
  moves := by
    rw [t.perform_counters, alone.perform_counters]
    exact h.moves.after call.expanded

/-- After a failure the numbers that come are greater by those that were used up. -/
theorem refused (h : Follows t alone lines r) {d : Diagnostic Error}
    (failed : call.refused? = some d) :
    ∃ r', Follows (t.perform call) alone lines r' := by
  obtain ⟨k, after⟩ := countersAfter_eq call.expanded
  refine ⟨r.putOff alone.counters k, ?_, h.alone_output, h.used, ?_⟩
  · rw [t.perform_refused failed, h.output]
    apply List.map_congr_left
    intro l hl
    rw [Renumbering.line_putOff k (h.used l hl)]
  · rw [t.perform_counters, after]
    exact h.moves.putOff k

theorem run (h : Follows t alone lines r) (calls : List Call) :
    ∃ r', Follows (t.performAll calls) (alone.performAll (t.kept calls))
      (lines ++ numberedRun alone.counters (t.kept calls)) r' := by
  induction calls generalizing t alone lines r with
  | nil => exact ⟨r, by simpa [Translator.performAll, Translator.kept, numberedRun] using h⟩
  | cons call rest ih =>
    cases taken : call.refused? with
    | none =>
      have keeps : t.kept (call :: rest) = call :: (t.perform call).kept rest := by
        rw [Translator.kept, t.accepts_eq, taken]
        rfl
      obtain ⟨r', done⟩ := ih (h.accepted taken)
      rw [alone.perform_counters, List.append_assoc] at done
      exact ⟨r', keeps ▸ done⟩
    | some d =>
      have keeps : t.kept (call :: rest) = (t.perform call).kept rest := by
        rw [Translator.kept, t.accepts_eq, taken]
        rfl
      obtain ⟨r', after⟩ := h.refused taken
      obtain ⟨r', done⟩ := ih after
      exact ⟨r', keeps ▸ done⟩

end Follows

/-- A unit is translated as by a translator that has seen nothing, with its numbers moved to where
the counters stand. -/
theorem Translator.translate_alone {t next : Translator} {unit : String} {lines : List SourceLine}
    (h : t.translate unit lines = (none, next)) :
    let added := (Call.translate unit lines).numbered ⟨0, 0⟩
    ∃ alone, empty.translate unit lines = (none, alone) ∧ alone.lines = added.map Numbered.text ∧
      next.lines = t.lines ++
        added.map fun l => ((Renumbering.startingAt t.counters).line l).text := by
  intro added
  have taken : lines.findSome? refusal? = none := by rw [← t.translate_eq unit, h]
  have first : (empty.translate unit lines).1 = none := by rw [translate_eq, taken]
  have here := t.perform_numbered (.translate unit lines)
  have there := empty.perform_numbered (.translate unit lines)
  rw [perform, h, ← (Renumbering.startingAt_moves t.counters).call] at here
  refine ⟨(empty.translate unit lines).2, Prod.ext first rfl, ?_, ?_⟩
  · change ((empty.perform (.translate unit lines)).output.toList.map Item.text) = _
    rw [there]
    exact List.map_map
  · change next.output.toList.map Item.text = t.output.toList.map Item.text ++ _
    rw [here, List.map_append, List.map_map, List.map_map]
    rfl

/-- **A unit that fails leaves no trace.** A call fails at the first line that holds no command,
with the error of that line, and leaves the output as it was; a unit without such a line is
translated as if it stood alone, but for the numbers of its made-up labels. In the end the output
is, line by line, that of a translator which made only the calls that did not fail. Only the
numbers in made-up labels are others, and in the same order: one increasing function takes those
of comparisons to the new ones, and one those of calls. -/
theorem failed_units_leave_no_trace (calls : List Call) :
    (∀ (t : Translator) (unit : String) (lines : List SourceLine),
      (∀ d next, t.translate unit lines = (some d, next) →
        next.output = t.output ∧ ∃ front back, lines = front ++ d.line :: back ∧
          (∀ line ∈ front, ∃ read, Command.parse line.code = .ok read) ∧
          Command.parse d.line.code = .error d.error) ∧
      ∀ next, t.translate unit lines = (none, next) →
        let added := (Call.translate unit lines).numbered ⟨0, 0⟩
        ∃ alone, Translator.empty.translate unit lines = (none, alone) ∧
          alone.lines = added.map Numbered.text ∧
          next.lines = t.lines ++
            added.map fun l => ((Renumbering.startingAt t.counters).line l).text) ∧
    let kept := Translator.empty.kept calls
    ∃ r : Renumbering,
      (Translator.empty.performAll kept).lines = (numberedRun ⟨0, 0⟩ kept).map Numbered.text ∧
      (Translator.empty.performAll calls).lines =
        (numberedRun ⟨0, 0⟩ kept).map fun l => (r.line l).text := by
  refine ⟨fun t unit lines => ⟨fun d next => Translator.translate_failed,
    fun next => Translator.translate_alone⟩, ?_⟩
  intro kept
  have start : Follows .empty .empty [] .refl :=
    ⟨rfl, rfl, fun _ hl => absurd hl List.not_mem_nil, fun _ => rfl, fun _ => rfl⟩
  obtain ⟨r, done⟩ := start.run calls
  rw [List.nil_append] at done
  refine ⟨r, ?_, ?_⟩
  · rw [Translator.lines, done.alone_output]
    exact List.map_map
  · rw [Translator.lines, done.output]
    exact List.map_map

/-! ## Labels of a run -/

/-- The labels that a run makes up for the commands that it keeps, in order. -/
def madeUp (n : Counters) : List Call → List Generated
  | [] => []
  | call :: rest => generated n call.program ++ madeUp (countersAfter n call.expanded) rest

theorem placed_numberedRun (n : Counters) (calls : List Call) :
    (numberedRun n calls).filterMap placed? = madeUp n calls := by
  induction calls generalizing n with
  | nil => rfl
  | cons call rest ih =>
    rw [numberedRun, Call.numbered, List.filterMap_append, List.filterMap_append,
      Numbered.placed_plain, placed_numbered, ih]
    rfl

theorem defined_numberedRun (n : Counters) (calls : List Call) :
    (numberedRun n calls).filterMap Numbered.defined? = definedNames (programOf calls) := by
  induction calls generalizing n with
  | nil => rfl
  | cons call rest ih =>
    have front : (call.preamble.map Numbered.plain).filterMap Numbered.defined? = [] := by
      rw [List.filterMap_map]
      cases call with
      | bootstrap entry => exact labelsOf_preamble (some entry)
      | translate unit lines => rfl
    rw [numberedRun, Call.numbered, List.filterMap_append, List.filterMap_append, front,
      defined_numbered, ih, List.nil_append]
    exact List.filterMap_append.symm

theorem since_of_mem_madeUp {n : Counters} {calls : List Call} {g : Generated}
    (h : g ∈ madeUp n calls) : g.Since n := by
  induction calls generalizing n with
  | nil => cases h
  | cons call rest ih =>
    rcases List.mem_append.1 h with here | later
    · exact since_of_mem_generated here
    · exact (ih later).of_countersAfter

/-- What a call makes up is numbered before anything that comes after it, kept or not. -/
theorem madeUp_nodup (n : Counters) (calls : List Call) : (madeUp n calls).Nodup := by
  induction calls generalizing n with
  | nil => exact List.nodup_nil
  | cons call rest ih =>
    refine List.nodup_append.2 ⟨generated_nodup n call.program, ih _, ?_⟩
    rintro g here _ later rfl
    have since := since_of_mem_madeUp later
    cases taken : call.refused? with
    | none =>
      rw [Call.program_of_accepted taken] at here
      exact not_since_of_mem_generated here since
    | some d =>
      rw [Call.program_of_refused taken] at here
      cases here

theorem isIdentifier_of_mem_madeUp {n : Counters} {calls : List Call} {g : Generated}
    (named : ∀ call ∈ calls, call.Named) (h : g ∈ madeUp n calls) : IsIdentifier g.text := by
  induction calls generalizing n with
  | nil => cases h
  | cons call rest ih =>
    rcases List.mem_append.1 h with here | later
    · exact isIdentifier_of_mem_labels
        (fun c hc => Call.valid_of_mem_program (named call List.mem_cons_self) hc)
        (.inr (List.mem_map_of_mem here))
    · exact ih (fun other hother => named other (List.mem_cons_of_mem _ hother)) later

/-- **No label is made up twice**, whatever is called and whether it fails. The output has label
lines of two kinds: those of `label` and `function` commands, and those of comparisons and calls.
The names of the second kind are pairwise distinct, so each of them stands in a single line of that
kind, and there the assembler reads it as it is. -/
theorem made_labels_unique {calls : List Call} (named : ∀ call ∈ calls, call.Named) :
    let made := madeUp ⟨0, 0⟩ calls
    let lines := numberedRun ⟨0, 0⟩ calls
    (Translator.empty.performAll calls).output.toList = lines.map Numbered.item ∧
    lines.filterMap Numbered.defined? = definedNames (programOf calls) ∧
    lines.filterMap Numbered.placed? = made ∧
    (made.map Generated.text).Nodup ∧
    ∀ g ∈ made, ∃ before after, lines = before ++ .place g :: after ∧
      (∀ h, .place h ∈ before ++ after → h.text ≠ g.text) ∧
      (Numbered.place g).item.reading.label? = some g.text := by
  intro made lines
  have placed : lines.filterMap placed? = made := placed_numberedRun _ _
  have once : made.Nodup := madeUp_nodup _ _
  refine ⟨Translator.performAll_numbered .empty calls, defined_numberedRun _ _, placed,
    List.Pairwise.map _ (fun _ _ ne same => ne (Generated.text_injective same)) once, ?_⟩
  intro g hg
  obtain ⟨line, hline, mark⟩ := List.mem_filterMap.1 (placed ▸ hg)
  obtain rfl : line = .place g := by
    cases line with
    | place h => rw [Option.some.inj mark]
    | plain item => cases mark
    | load h => cases mark
  obtain ⟨before, after, split⟩ := List.append_of_mem hline
  have plain := plain_label (isIdentifier_of_mem_madeUp named hg)
  refine ⟨before, after, split, ?_, (Item.Plain.faithful plain).label⟩
  intro h hh same
  obtain rfl := Generated.text_injective same
  have parts : lines.filterMap placed? =
      before.filterMap placed? ++ h :: after.filterMap placed? := by
    rw [split]
    exact List.filterMap_append
  rw [← placed, parts, List.nodup_middle, ← List.filterMap_append] at once
  exact (List.nodup_cons.1 once).1 (List.mem_filterMap.2 ⟨_, hh, rfl⟩)

/-- A unit between two others fails, but not before its comparison and its call are numbered. The
function that is called last has the name of a label. -/
def interrupted : List Call :=
  [.bootstrap "Sys.init", .translate "A" (SourceLine.ofRaws "A.vm" ["eq"]),
   .translate "B" (SourceLine.ofRaws "B.vm" ["eq", "call f 0", "jump"]),
   .translate "C" (SourceLine.ofRaws "C.vm" ["eq", "call f$ret.1 0"])]

theorem made_labels_unique_interrupted :
    (∀ call ∈ interrupted, call.Named) ∧
    (madeUp ⟨0, 0⟩ interrupted).map Generated.text =
      ["Sys.init$ret.0", "NOT_EQ_0", "END_EQ_0", "NOT_EQ_2", "END_EQ_2", "f$ret.1$ret.2"] ∧
    ((madeUp ⟨0, 0⟩ interrupted).map Generated.text).Nodup ∧
    ∃ before after, numberedRun ⟨0, 0⟩ interrupted = before ++ .place (.no "EQ" 2) :: after ∧
      ∀ h, .place h ∈ before ++ after → h.text ≠ "NOT_EQ_2" := by
  have named : ∀ call ∈ interrupted, call.Named := by decide +kernel
  obtain ⟨-, -, -, nodup, single⟩ := made_labels_unique named
  obtain ⟨before, after, split, others, -⟩ := single (.no "EQ" 2) (by decide +kernel)
  exact ⟨named, by decide +kernel, nodup, before, after, split, others⟩

end HackToolchain.Vm
