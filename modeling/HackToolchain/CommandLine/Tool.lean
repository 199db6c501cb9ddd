import HackToolchain.CommandLine.Emulator
import HackToolchain.CommandLine.Translator

/-!
# Tools

A tool has a name and reads its own options; a command line that its options do not fit is
refused before anything is done.
-/

namespace HackToolchain.CommandLine

inductive Tool
  | assembler | translator | emulator
  deriving DecidableEq, Repr

namespace Tool

def all : List Tool := [assembler, translator, emulator]

def name : Tool → String
  | assembler => "hasm"
  | translator => "hvmt"
  | emulator => "hemu"

def ofName? (s : String) : Option Tool := all.find? fun t => t.name = s

variable {m : Type → Type} [Monad m] [Host m]

/-- What a tool does on these arguments; `none` if they do not fit its options. -/
def command? (t : Tool) (args : List String) : Option (m ExitStatus) :=
  match t with
  | assembler => (AssemblerOptions.parse args).map fun o => execute (CommandLine.assembler o)
  | translator => (TranslatorOptions.parse args).map fun o => execute (CommandLine.translator o)
  | emulator =>
    (EmulatorOptions.parse args).map fun o => execute (CommandLine.emulator DumpPlan.ofText? o)

/-- The same on a disk: how the run ends, and the session it leaves. -/
def run? (t : Tool) (args : List String) (disk : Disk) : Option (ExitStatus × Session) :=
  (t.command? args).map fun run => Id.run (StateT.run run ⟨disk, ""⟩)

end Tool

end HackToolchain.CommandLine
