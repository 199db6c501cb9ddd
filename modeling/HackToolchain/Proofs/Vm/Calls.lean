import HackToolchain.Proofs.Vm.Lines

/-!
# Calls of the translator

One translator takes any number of calls, and its output grows with them:

* `addLines_eq`: what a call adds are the commands of its lines up to the first that is none;
* `perform_output`: a call that fails keeps nothing, and another the code of all its commands;
* `output_emitted`: so every line of the output belongs to a command that was kept, whatever
  was called before.
-/

namespace HackToolchain.Vm

inductive Call
  | bootstrap (entry : String)
  | translate (unit : String) (lines : List SourceLine)
  deriving DecidableEq, Repr

/-- Why a line holds no command. -/
def refusal? (line : SourceLine) : Option (Diagnostic Error) :=
  match Command.parse line.code with
  | .ok _ => none
  | .error e => some ⟨line, e⟩

/-- The commands up to the first line that is refused. -/
def commandsOf (lines : List SourceLine) : List Command :=
  (lines.takeWhile fun line => (refusal? line).isNone).filterMap commandOf?

namespace Translator

def perform (t : Translator) : Call → Translator
  | .bootstrap entry => t.bootstrap entry
  | .translate unit lines => (t.translate unit lines).2

def performAll (t : Translator) (calls : List Call) : Translator := calls.foldl perform t

end Translator

namespace Call

/-- The commands that stay in the output. -/
def program : Call → List Placed
  | bootstrap entry => [("", .call entry 0)]
  | translate unit lines =>
    match lines.findSome? refusal? with
    | none => unitProgram unit lines
    | some _ => []

/-- The lines in front of the commands. -/
def preamble : Call → List Item
  | bootstrap entry => Vm.preamble (some entry)
  | translate .. => []

/-- An entry function has the name of a function. -/
def Named : Call → Prop
  | bootstrap entry => IsIdentifier entry
  | translate .. => True

instance (call : Call) : Decidable call.Named :=
  match call with
  | bootstrap entry => inferInstanceAs (Decidable (IsIdentifier entry))
  | translate .. => inferInstanceAs (Decidable True)

/-- Nor does the name of a unit begin a comment. -/
def Proper : Call → Prop
  | bootstrap entry => IsIdentifier entry
  | translate unit _ => ¬ ['/', '/'] <:+: unit.toList

instance (call : Call) : Decidable call.Proper :=
  match call with
  | bootstrap entry => inferInstanceAs (Decidable (IsIdentifier entry))
  | translate unit _ => inferInstanceAs (Decidable (¬ ['/', '/'] <:+: unit.toList))

end Call

/-- The commands of calls that stay in the output. -/
def programOf (calls : List Call) : List Placed := calls.flatMap Call.program

/-! ## One call -/

section

variable {line : SourceLine} {lines : List SourceLine} {unit : String}

theorem commandsOf_cons_of_refused {d : Diagnostic Error} (h : refusal? line = some d) :
    commandsOf (line :: lines) = [] := by
  simp [commandsOf, h]

theorem commandsOf_cons (h : refusal? line = none) :
    commandsOf (line :: lines) = (commandOf? line).toList ++ commandsOf lines := by
  cases hc : commandOf? line <;> simp [commandsOf, h, hc]

/-- **What is added in a call.** The commands come one by one in the order of their lines, and
after the first line that is refused there are no more. -/
theorem Translator.addLines_eq (t : Translator) (unit : String) (lines : List SourceLine) :
    t.addLines unit lines =
      (lines.findSome? refusal?, (commandsOf lines).foldl (fun t c => t.add unit c) t) := by
  induction lines generalizing t with
  | nil => rfl
  | cons line rest ih =>
    rw [addLines]
    cases hp : Command.parse line.code with
    | error e =>
      have refused : refusal? line = some ⟨line, e⟩ := by rw [refusal?, hp]
      simp [refused, commandsOf_cons_of_refused refused]
    | ok read =>
      have taken : refusal? line = none := by rw [refusal?, hp]
      have command : commandOf? line = read := by simp [commandOf?, hp, Except.toOption]
      rw [commandsOf_cons taken, command, List.findSome?_cons, taken]
      cases read with
      | none => exact ih t
      | some c => exact ih (t.add unit c)

/-- Nothing that was read pops into a constant. -/
theorem pop_constant_notMem (lines : List SourceLine) (index : Word) :
    Command.pop .constant index ∉ commandsOf lines := by
  intro h
  obtain ⟨line, -, read⟩ := List.mem_filterMap.1 h
  cases (valid_of_commandOf? read).check

end

/-- **A call adds its commands or nothing.** -/
theorem Translator.perform_output (t : Translator) (call : Call) :
    (t.perform call).output.toList =
      t.output.toList ++ (call.preamble ++ expansion t.counters call.program) := by
  cases call with
  | bootstrap entry =>
    simp [perform, bootstrap, add, Call.preamble, preamble, Call.program, expansion]
  | translate unit lines =>
    have added := t.addLines_eq unit lines
    cases refused : lines.findSome? refusal? with
    | some d =>
      have same : (t.perform (.translate unit lines)).output = t.output := by
        simp [perform, translate, added, refused]
      simp [same, Call.preamble, Call.program, refused, expansion]
    | none =>
      have done : (t.addLines unit lines) = (none, t.perform (.translate unit lines)) := by
        simp [perform, translate, added, refused]
      simpa [Call.preamble, Call.program, refused] using (addLines_extends done).output

namespace Call

variable {call : Call} {c : Placed}

theorem Proper.named (proper : call.Proper) : call.Named := by
  cases call with
  | bootstrap entry => exact proper
  | translate unit lines => trivial

theorem valid_of_mem_program (named : call.Named) (h : c ∈ call.program) : c.2.Valid := by
  cases call with
  | bootstrap entry =>
    obtain rfl := List.mem_singleton.1 h
    exact Command.valid_call named 0
  | translate unit lines =>
    simp only [program] at h
    split at h
    · obtain ⟨command, hcommand, rfl⟩ := List.mem_map.1 h
      obtain ⟨line, -, read⟩ := List.mem_filterMap.1 hcommand
      exact valid_of_commandOf? read
    · cases h

/-- The unit of an entry function has no name. -/
theorem no_slashes_of_mem_program (proper : call.Proper) (h : c ∈ call.program) :
    ¬ ['/', '/'] <:+: c.1.toList := by
  cases call with
  | bootstrap entry =>
    obtain rfl := List.mem_singleton.1 h
    change ¬ ['/', '/'] <:+: "".toList
    decide
  | translate unit lines =>
    simp only [program] at h
    split at h
    · obtain ⟨command, -, rfl⟩ := List.mem_map.1 h
      exact proper
    · cases h

end Call

/-! ## Any number of calls -/

section

variable {program : List Placed}

/-- Every line belongs to a command. -/
def Translator.Emits (t : Translator) (program : List Placed) : Prop :=
  ∀ item ∈ t.output.toList, ∃ c ∈ program, item.Emitted c.1 c.2

theorem Translator.Emits.perform {t : Translator} (h : t.Emits program) {call : Call}
    (proper : call.Proper) : (t.perform call).Emits (program ++ call.program) := by
  intro item hitem
  rw [perform_output, List.mem_append, List.mem_append] at hitem
  rcases hitem with earlier | front | code
  · obtain ⟨c, hc, emitted⟩ := h item earlier
    exact ⟨c, List.mem_append_left _ hc, emitted⟩
  · cases call with
    | translate => cases front
    | bootstrap entry =>
      exact ⟨_, List.mem_append_right _ List.mem_cons_self,
        preamble_emitted (some entry) _ _ item front⟩
  · obtain ⟨c, hc, n, hitem⟩ := mem_expansion code
    have valid := Call.valid_of_mem_program proper.named hc
    exact ⟨c, List.mem_append_right _ hc, expand_emitted valid c.1 n item hitem⟩

theorem Translator.Emits.performAll {t : Translator} (h : t.Emits program) {calls : List Call}
    (proper : ∀ call ∈ calls, call.Proper) :
    (t.performAll calls).Emits (program ++ programOf calls) := by
  induction calls generalizing t program with
  | nil => simpa [Translator.performAll, programOf] using h
  | cons call rest ih =>
    have next := h.perform (proper call List.mem_cons_self)
    have run := ih next fun other hother => proper other (List.mem_cons_of_mem _ hother)
    rwa [List.append_assoc] at run

/-- **Every line of the output belongs to a command that was kept.** -/
theorem output_emitted {calls : List Call} (proper : ∀ call ∈ calls, call.Proper) :
    (Translator.empty.performAll calls).Emits (programOf calls) := by
  have start : Translator.empty.Emits [] := by
    intro item hitem
    cases hitem
  exact start.performAll proper

end

end HackToolchain.Vm
