import HackToolchain.Proofs.CommandLine.Options
import HackToolchain.Proofs.Machine.Execution

/-!
# What the emulator says of a run

* `Hook.Keeps`: a hook that gives the machine back as it was, as `trace` and `dump` do;
* `Progress.run_agrees`: a watched run takes the steps of the run, whatever such hooks watch it;
* `Prints`, `Closes`: a tool that reads a disk, prints lines and gives a value;
* `watchRun_prints`: steps that are taken in batches are those of one run;
* `stepping_composes`: runs go on where others have stopped, and the last line of the emulator is
  about the one run that its limit allows.
-/

namespace HackToolchain

/-! ## Hooks -/

namespace Hook

/-- The hook never gives another machine back. -/
structure Keeps (hook : Hook) : Prop where
  init : ∀ m, (hook.init m).2 = m
  exec : ∀ time address i m, (hook.exec time address i m).2 = m

theorem trace_keeps (on : Bool) : (trace on).Keeps := ⟨fun _ => rfl, fun _ _ _ _ => rfl⟩

theorem dump_keeps (file : Option String) (all : Bool) (plan : DumpPlan) :
    (dump file all plan).Keeps := ⟨fun _ => rfl, fun _ _ _ _ => rfl⟩

/-- Where each hook keeps the machine, all in turn do. -/
theorem inTurn_keeps {call : Hook → Machine → List String × Machine} {hooks : List Hook}
    (keep : ∀ hook ∈ hooks, ∀ m, (call hook m).2 = m) (m : Machine) :
    (inTurn call hooks m).2 = m := by
  induction hooks generalizing m with
  | nil => rfl
  | cons hook rest ih =>
    have here := keep hook List.mem_cons_self m
    have later := ih (fun other there => keep other (List.mem_cons_of_mem _ there)) (call hook m).2
    exact later.trans here

end Hook

/-- **Hooks that keep the machine do not change a run.** -/
theorem Progress.run_agrees {hooks : List Hook} (keep : ∀ hook ∈ hooks, hook.Keeps) (limit : Nat)
    (p : Progress) :
    (Progress.run hooks limit p).steps = p.steps + (p.machine.run limit).1 ∧
      (Progress.run hooks limit p).machine = (p.machine.run limit).2 := by
  induction limit generalizing p with
  | zero => exact ⟨rfl, rfl⟩
  | succ limit ih =>
    obtain ⟨steps, m, output⟩ := p
    rw [Machine.run_succ, Machine.step?, Progress.run]
    cases m.rom[m.pc.toNat]? with
    | none => exact ⟨rfl, rfl⟩
    | some i =>
      have same : (Hook.inTurn (fun hook => hook.exec steps m.pc i) hooks (m.execute i)).2 =
          m.execute i :=
        Hook.inTurn_keeps (fun hook there => (keep hook there).exec steps m.pc i) _
      dsimp only
      rw [same]
      obtain ⟨taken, last⟩ := ih ⟨steps + 1, m.execute i, _⟩
      exact ⟨taken.trans (Nat.add_right_comm ..), last⟩

namespace CommandLine

/-! ## Tools that print -/

/-- Lines as they are printed, each closed by a line feed. -/
def printed (lines : List String) : String := String.join (lines.map (· ++ "\n"))

theorem printed_append (front back : List String) :
    printed (front ++ back) = printed front ++ printed back := by
  simp [printed]

/-- The run leaves the disk as it is, prints the lines and gives the value. -/
def Prints {α : Type} (disk : Disk) (x : Run (StateM Session) α) (lines : List String) (a : α) :
    Prop :=
  ∀ shown, x.run.run ⟨disk, shown⟩ = (.ok a, ⟨disk, shown ++ printed lines⟩)

/-- The same, when only the last of the lines are told. -/
def Closes {α : Type} (disk : Disk) (x : Run (StateM Session) α) (lines : List String) (a : α) :
    Prop :=
  ∃ front, Prints disk x (front ++ lines) a

section

variable {α β : Type} {disk : Disk}

namespace Prints

theorem pure (a : α) : Prints disk (Pure.pure a) [] a := by
  intro shown
  rw [printed, List.map_nil, String.join_nil, String.append_empty]
  rfl

theorem bind {x : Run (StateM Session) α} {f : α → Run (StateM Session) β} {a : α} {b : β}
    {front back : List String} (first : Prints disk x front a) (next : Prints disk (f a) back b) :
    Prints disk (x >>= f) (front ++ back) b := by
  intro shown
  rw [ExceptT.run_bind, StateT.run_bind, first shown, printed_append, ← String.append_assoc]
  exact next _

theorem closes {x : Run (StateM Session) α} {a : α} {lines : List String}
    (h : Prints disk x lines a) : Closes disk x lines a := ⟨[], h⟩

theorem next {x : Run (StateM Session) α} {f : α → Run (StateM Session) β} {a : α} {b : β}
    {front lines : List String} (first : Prints disk x front a)
    (rest : Closes disk (f a) lines b) : Closes disk (x >>= f) lines b := by
  obtain ⟨middle, rest⟩ := rest
  exact ⟨front ++ middle, List.append_assoc .. ▸ first.bind rest⟩

theorem say (line : String) : Prints disk (CommandLine.say line) [line] () := by
  intro shown
  have closed : printed [line] = line ++ "\n" := by simp [printed]
  rw [closed, ← String.append_assoc]
  rfl

theorem forM_say (lines : List String) : Prints disk (lines.forM CommandLine.say) lines () := by
  induction lines with
  | nil => exact pure ()
  | cons line rest ih => exact (say line).bind ih

theorem look (path : String) : Prints disk (CommandLine.look path) [] (disk.look path) := by
  intro shown
  rw [printed, List.map_nil, String.join_nil, String.append_empty]
  rfl

theorem execute {tool : Run (StateM Session) Unit} {lines : List String}
    (h : Prints disk tool lines ()) (shown : String) :
    (CommandLine.execute tool).run ⟨disk, shown⟩ = (.success, ⟨disk, shown ++ printed lines⟩) := by
  rw [CommandLine.execute, StateT.run_bind, h shown]
  rfl

end Prints

/-! ## The emulator -/

variable {read : String → Option DumpPlan}

/-- The dumps that are asked for, as `read` makes them out. -/
def planIn? (read : String → Option DumpPlan) (look : String → Entry) :
    Option String → Option DumpPlan
  | none => some .empty
  | some path => (textOf? (look path)).bind read

theorem loadProgram_prints {path text : String} {machine : Machine}
    (found : textOf? (disk.look path) = some text)
    (loaded : Machine.initial.load hack text = .ok machine) :
    Prints disk (loadProgram path) [] machine := by
  change Prints disk _ ([] ++ []) machine
  refine (Prints.look path).bind ?_
  rw [found]
  dsimp only
  rw [loaded]
  exact Prints.pure machine

theorem loadPlan_prints {path : Option String} {plan : DumpPlan}
    (planned : planIn? read disk.look path = some plan) :
    Prints disk (loadPlan read path) [] plan := by
  cases path with
  | none =>
    obtain rfl := Option.some.inj planned
    exact Prints.pure _
  | some path =>
    obtain ⟨text, found, parsed⟩ := Option.bind_eq_some_iff.1 planned
    change Prints disk _ ([] ++ []) plan
    refine (Prints.look path).bind ?_
    rw [found]
    dsimp only
    rw [parsed]
    exact Prints.pure plan

/-- **Batch after batch, the steps are those of one run.** -/
theorem watchRun_prints {hooks : List Hook} (keep : ∀ hook ∈ hooks, hook.Keeps) (limit : Nat)
    (p : Progress) :
    ∃ rows done, Prints disk (watchRun hooks limit p) rows done ∧
      done.steps = p.steps + (p.machine.run limit).1 ∧
      done.machine = (p.machine.run limit).2 := by
  induction limit using Nat.strongRecOn generalizing p with
  | ind limit ih =>
    unfold watchRun
    split
    · rename_i halted
      rw [Machine.run_of_halted halted]
      exact ⟨[], p, Prints.pure p, rfl, rfl⟩
    cases limit with
    | zero => exact ⟨[], p, Prints.pure p, rfl, rfl⟩
    | succ limit =>
      dsimp only
      generalize hnow : min (limit + 1) batch = now
      have some_step : 0 < batch := by decide
      obtain ⟨steps, machine⟩ := Progress.run_agrees keep now { p with output := #[] }
      generalize Progress.run hooks now { p with output := #[] } = q at steps machine ⊢
      dsimp only at steps machine
      obtain ⟨rows, done, prints, taken, last⟩ := ih (limit + 1 - now) (by omega) q
      have whole := Machine.run_run now (limit + 1 - now) p.machine
      rw [Nat.add_sub_cancel' (by omega)] at whole
      refine ⟨q.output.toList ++ rows, done, ?_, ?_, ?_⟩
      · refine Prints.bind (a := ()) ?_ prints
        rw [List.forM_toArray' _ _ rfl]
        exact Prints.forM_say _
      · rw [taken, steps, machine, whole, Nat.add_assoc]
      · rw [last, machine, whole]

/-- The emulator ends with its verdict on one run within the limit. -/
theorem emulator_closes {o : EmulatorOptions} {text : String} {machine : Machine} {plan : DumpPlan}
    (found : textOf? (disk.look o.input) = some text)
    (loaded : Machine.initial.load hack text = .ok machine)
    (planned : planIn? read disk.look o.plan = some plan) :
    ∃ done, Closes disk (emulator read o)
        ["=================================================", verdict done] () ∧
      done.steps = (machine.run o.limit).1 ∧ done.machine = (machine.run o.limit).2 := by
  have keep : ∀ hook ∈ [Hook.trace o.trace, Hook.dump o.plan o.dumpAll plan], hook.Keeps := by
    simp only [List.forall_mem_cons, List.not_mem_nil, false_implies, implies_true, and_true]
    exact ⟨Hook.trace_keeps _, Hook.dump_keeps _ _ _⟩
  have same := Hook.inTurn_keeps (fun hook there => (keep hook there).init) machine
  obtain ⟨rows, done, watched, steps, last⟩ := watchRun_prints keep o.limit ⟨0, machine, #[]⟩
  refine ⟨done, ?_, steps.trans (Nat.zero_add _), last⟩
  unfold emulator
  refine (Prints.say _).next ((Prints.say _).next ?_)
  refine (Prints.say _).next ((Prints.say _).next ?_)
  refine (loadProgram_prints found loaded).next ((Prints.say _).next ?_)
  refine (loadPlan_prints planned).next ?_
  dsimp only
  rw [same]
  exact (Prints.forM_say _).next (watched.next ((Prints.say _).bind (Prints.say _)).closes)

end

/-- A run of the emulator succeeds, leaves the disk as it is and prints, behind whatever it has
printed before, the verdict on so many steps that ended in this machine. -/
def Concludes (disk : Disk) (outcome : Nat × Machine) (run : ExitStatus × Session) : Prop :=
  ∃ shown, run = (.success, ⟨disk,
    shown ++ "=================================================\n" ++
      if outcome.2.halted then "halted after " ++ toString outcome.1 ++ " steps\n"
      else "stopped after " ++ toString outcome.1 ++ " steps at pc " ++
        Text.hex4 outcome.2.pc.toNat ++ "\n"⟩)

/-- **Stepping composes, and the emulator tells of one run.** A run of `n + k` steps is one of `n`
steps and one of `k` from where it has stopped. A run that takes fewer steps than it may has halted,
and no run goes on from there. Whatever is watched and however a plan is read, the last line that the
emulator prints has the number of steps, the verdict and the program counter of the run of the loaded
machine within the limit; and the tool does on its arguments what the emulator does with the options
that they give. -/
theorem stepping_composes :
    (∀ (m : Machine) (n k : Nat),
      m.run (n + k) = ((m.run n).1 + ((m.run n).2.run k).1, ((m.run n).2.run k).2)) ∧
    (∀ (m : Machine) (n : Nat), (m.run n).1 < n →
      (m.run n).2.halted = true ∧ ∀ k, (m.run n).2.run k = (0, (m.run n).2)) ∧
    (∀ (read : String → Option DumpPlan) (o : EmulatorOptions) (disk : Disk) (text : String)
      (machine : Machine) (plan : DumpPlan), textOf? (disk.look o.input) = some text →
      Machine.initial.load hack text = .ok machine → planIn? read disk.look o.plan = some plan →
      Concludes disk (machine.run o.limit)
        ((execute (emulator read o) : StateM Session ExitStatus).run ⟨disk, ""⟩)) ∧
    ∀ (args : List String) (o : EmulatorOptions) (disk : Disk),
      EmulatorOptions.parse args = some o →
      (∃ arguments, Argument.parse EmulatorOptions.specs args = some arguments ∧
        o.GivenBy arguments) ∧
      Tool.emulator.run? args disk =
        some ((execute (emulator DumpPlan.ofText? o) : StateM Session ExitStatus).run
          ⟨disk, ""⟩) := by
  refine ⟨fun m n k => Machine.run_run n k m, fun m n short => ?_, ?_, ?_⟩
  · have halted := Machine.halted_of_run_lt short
    exact ⟨halted, Machine.run_of_halted halted⟩
  · intro read o disk text machine plan found loaded planned
    obtain ⟨done, ⟨front, prints⟩, steps, last⟩ := emulator_closes found loaded planned
    have told : verdict done ++ "\n" =
        if (machine.run o.limit).2.halted
        then "halted after " ++ toString (machine.run o.limit).1 ++ " steps\n"
        else "stopped after " ++ toString (machine.run o.limit).1 ++ " steps at pc " ++
          Text.hex4 (machine.run o.limit).2.pc.toNat ++ "\n" := by
      rw [verdict, steps, last]
      split
      · exact String.append_assoc ..
      · rfl
    have lines : "" ++ printed (front ++ ["=================================================",
        verdict done]) = printed front ++ "=================================================\n" ++
          (verdict done ++ "\n") := by
      simp [printed, String.append_assoc]
    refine ⟨printed front, ?_⟩
    rw [← told, ← lines, prints.execute ""]
  · intro args o disk parsed
    refine ⟨EmulatorOptions.givenBy_of_parse parsed, ?_⟩
    rw [Tool.run?, Tool.command?, parsed]
    rfl

/-- A program that never halts, and a plan that dumps the stack after its jump. -/
def looping : Disk :=
  (Disk.empty.addFile ["main.hack"] "0000000000000000\n1110101010000111\n".toUTF8).addFile
    ["dump.yaml"] "1: \x7b stack: true \x7d\n".toUTF8

theorem stepping_composes_looping :
    EmulatorOptions.parse ["-t", "5", "-v", "-d", "dump.yaml"] =
      some ⟨"main.hack", 5, some "dump.yaml", false, true⟩ ∧
    (planIn? DumpPlan.ofText? looping.look (some "dump.yaml")).isSome ∧
    ∃ shown, Tool.emulator.run? ["-t", "5", "-v", "-d", "dump.yaml"] looping =
      some (.success, ⟨looping, shown ++ "=================================================\n" ++
        "stopped after 5 steps at pc 0001\n"⟩) := by
  let m : Machine :=
    { Machine.initial with rom := #[.address 0, .compute ⟨0x2A, 7⟩ ⟨0, 3⟩ ⟨7, 3⟩], pc := 0 }
  have parsed : EmulatorOptions.parse ["-t", "5", "-v", "-d", "dump.yaml"] =
      some ⟨"main.hack", 5, some "dump.yaml", false, true⟩ := by decide +kernel
  have found : textOf? (looping.look "main.hack") =
      some "0000000000000000\n1110101010000111\n" := by decide +kernel
  have decoded : Machine.decodeText hack "0000000000000000\n1110101010000111\n" = .ok m.rom := by
    decide +kernel
  have loaded : Machine.initial.load hack "0000000000000000\n1110101010000111\n" = .ok m := by
    rw [Machine.load, decoded]
    rfl
  have planned : (planIn? DumpPlan.ofText? looping.look (some "dump.yaml")).isSome := by decide +kernel
  obtain ⟨plan, there⟩ := Option.isSome_iff_exists.1 planned
  have steps : (m.run 5).1 = 5 := by decide +kernel
  have going : (m.run 5).2.halted = false := by decide +kernel
  have pc : (m.run 5).2.pc = 1 := by decide +kernel
  have line : "stopped after " ++ toString 5 ++ " steps at pc " ++ Text.hex4 (1 : Word).toNat ++
      "\n" = "stopped after 5 steps at pc 0001\n" := by decide +kernel
  obtain ⟨-, -, told, tool⟩ := stepping_composes
  obtain ⟨shown, ran⟩ := told DumpPlan.ofText?
    ⟨"main.hack", 5, some "dump.yaml", false, true⟩ looping _ m plan found loaded there
  rw [steps, going, pc, if_neg Bool.false_ne_true, line] at ran
  exact ⟨parsed, planned, shown, by rw [(tool _ _ looping parsed).2, ran]⟩

end CommandLine

end HackToolchain
