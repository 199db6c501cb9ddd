import HackToolchain.Source
import HackToolchain.Vm.Expansion

/-!
# Translation of units

The units of a program are translated one after the other and share the counters, so that
generated labels differ. A unit with a line that is no command adds nothing to the output.
-/

namespace HackToolchain.Vm

structure Translator where
  output : Array Item
  counters : Counters

namespace Translator

def empty : Translator := ⟨#[], ⟨0, 0⟩⟩

instance : Inhabited Translator := ⟨empty⟩

def add (t : Translator) (unit : String) (c : Command) : Translator :=
  ⟨t.output ++ c.expand unit t.counters, t.counters.next c⟩

/-- The stack is set to its base, then `entry` is called without arguments. -/
def bootstrap (t : Translator) (entry : String) : Translator :=
  let start : List Item :=
    [.note "bootstrap", Expansion.literal Hack.stackBase, Expansion.assign "D" "A",
     Expansion.cell .sp, Expansion.assign "M" "D"]
  add ⟨t.output ++ start, t.counters⟩ "" (.call entry 0)

/-- The commands of the lines up to the first that is none. -/
def addLines (t : Translator) (unit : String) :
    List SourceLine → Option (Diagnostic Error) × Translator
  | [] => (none, t)
  | line :: rest =>
    match Command.parse line.code with
    | .ok none => t.addLines unit rest
    | .ok (some c) => (t.add unit c).addLines unit rest
    | .error e => (some ⟨line, e⟩, t)

/-- Static cells are named `unit.index`. After an error the output is as before, but the
numbers that the unit has used up stay used. -/
def translate (t : Translator) (unit : String) (lines : List SourceLine) :
    Option (Diagnostic Error) × Translator :=
  match t.addLines unit lines with
  | (none, next) => (none, next)
  | (some d, next) => (some d, ⟨t.output, next.counters⟩)

/-- The lines of assembly that make up the output. -/
def lines (t : Translator) : List String :=
  t.output.toList.map Item.text

end Translator

/-- The translation of a single unit, with the call of an entry function in front or not. -/
def generate (unit : String) (lines : List SourceLine) (entry : Option String) :
    Except (Diagnostic Error) (List String) :=
  let t := match entry with
    | some entry => Translator.empty.bootstrap entry
    | none => Translator.empty
  match t.translate unit lines with
  | (none, t) => .ok t.lines
  | (some d, _) => .error d

end HackToolchain.Vm
