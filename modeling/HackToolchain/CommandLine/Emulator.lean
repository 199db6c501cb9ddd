import HackToolchain.CommandLine.Arguments
import HackToolchain.CommandLine.Host
import HackToolchain.Machine.Watch

/-!
# The emulator's command line

A program is loaded and run until it halts or has taken a number of steps. What the hooks have to
print is printed in batches, so that a program that never halts shows what it does.
-/

namespace HackToolchain.CommandLine

structure EmulatorOptions where
  input : String
  limit : Nat
  plan : Option String
  dumpAll : Bool
  trace : Bool
  deriving DecidableEq, Repr

namespace EmulatorOptions

def specs : List OptionSpec :=
  [⟨"tmax", some 't', true⟩, ⟨"dump-cfg", some 'd', true⟩, ⟨"dump-all", some 'a', false⟩,
   ⟨"trace", some 'v', false⟩]

/-- The greatest number of steps. -/
def maxLimit : Nat := UInt64.size - 1

/-- Decimal digits, after a plus sign or not. -/
def limitOf? : Option String → Option Nat
  | none => some maxLimit
  | some s =>
    let digits := match s.toList with
      | '+' :: r => r
      | r => r
    (Text.decimal? digits).filter (· ≤ maxLimit)

def parse (args : List String) : Option EmulatorOptions :=
  (Argument.parse specs args).bind fun arguments =>
    (limitOf? (value? arguments "tmax")).bind fun limit =>
      match positionals arguments with
      | _ :: _ :: _ => none
      | inputs => some
        { input := inputs.head?.getD "main.hack"
          limit
          plan := value? arguments "dump-cfg"
          dumpAll := hasFlag arguments "dump-all"
          trace := hasFlag arguments "trace" }

end EmulatorOptions

def bannerRule : String := "+-----------------------------------------------+"

/-- How many steps are taken between two times of printing. -/
def batch : Nat := 4096

section

variable {m : Type → Type} [Monad m] [Host m]

def loadProgram (path : String) : Run m Machine := do
  match textOf? (← look path) with
  | none => throw (failure ("Failed to open file: " ++ path))
  | some text =>
    match Machine.initial.load hack text with
    | .ok machine => pure machine
    | .error .uncountableLayout => throw .overflow
    | .error e => throw (failure e.message)

/-- The plan in a file, as `read` makes it out; without a file nothing is planned. -/
def loadPlan (read : String → Option DumpPlan) : Option String → Run m DumpPlan
  | none => pure .empty
  | some path => do
    match textOf? (← look path) with
    | none => throw (failure ("Failed to open file: " ++ path))
    | some text =>
      match read text with
      | none => throw (failure ("Failed to parse dump config: " ++ path))
      | some plan => pure plan

/-- The run goes on in batches for `limit` steps at most. -/
def watchRun (hooks : List Hook) (limit : Nat) (p : Progress) : Run m Progress := do
  if p.machine.halted then pure p
  else
    match limit with
    | 0 => pure p
    | limit + 1 =>
      let now := min (limit + 1) batch
      let p := Progress.run hooks now { p with output := #[] }
      p.output.forM say
      watchRun hooks (limit + 1 - now) p
termination_by limit
decreasing_by
  have : 0 < batch := by decide
  omega

def verdict (p : Progress) : String :=
  if p.machine.halted then "halted after " ++ toString p.steps ++ " steps"
  else "stopped after " ++ toString p.steps ++ " steps at pc " ++ Text.hex4 p.machine.pc.toNat

def emulator (read : String → Option DumpPlan) (o : EmulatorOptions) : Run m Unit := do
  say "Hack Emulator"
  say bannerRule
  say ("| " ++ Text.padRight 45 ' ' o.input ++ " |")
  say bannerRule
  let machine ← loadProgram o.input
  say ("[INIT] " ++ toString machine.rom.size ++ " words")
  let plan ← loadPlan read o.plan
  let hooks := [Hook.trace o.trace, Hook.dump o.plan o.dumpAll plan]
  let (rows, machine) := Hook.inTurn Hook.init hooks machine
  rows.forM say
  let done ← watchRun hooks o.limit ⟨0, machine, #[]⟩
  say "================================================="
  say (verdict done)

end

end HackToolchain.CommandLine
