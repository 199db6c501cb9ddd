import HackToolchain.Machine
import HackToolchain.Text.Quoted
import HackToolchain.Yaml.Node

/-!
# Watching a run

Hooks watch a run: one prints each instruction as it is executed, one the registers, the stack and
chosen cells after it. Which addresses are dumped, and what, is read from a document.
-/

namespace HackToolchain

open Yaml (Node)

structure Dump where
  stack : Bool
  cells : List Word
  deriving DecidableEq, Repr

abbrev DumpPlan := Table Word Dump

namespace DumpPlan

def wordOfNode? (n : Node) : Option Word := (n.nat? UInt16.size).map (BitVec.ofNat 16)

/-- Both members may be missing. -/
def dumpOfNode? (n : Node) : Option Dump := do
  let members ← n.members? ["stack", "ram"]
  let stack ← match members.lookup "stack" with
    | some n => n.bool?
    | none => some false
  let cells ← match members.lookup "ram" with
    | some n => n.listOf? wordOfNode?
    | none => some []
  return ⟨stack, cells⟩

/-- Dumps by instruction address; of two for one address the later counts. -/
def ofText? (text : String) : Option DumpPlan :=
  (Node.ofText? text).bind fun n => (n.pairsOf? wordOfNode? dumpOfNode?).map .ofList

end DumpPlan

namespace Watch

def word (w : Word) : String := Text.hex4 w.toNat

def cell (m : Machine) (c : Hack.Cell) : String := word (m.ram.read (BitVec.ofNat 16 c.address))

def registerRule : String := " +-----------+-----------+-----------+-----------+"

def tableRule : String := " +-----------------------------------------------+"

def registerRows (m : Machine) : List String :=
  [registerRule,
   " |  pc: " ++ word m.pc ++ " |   a: " ++ word m.a ++ " |   d: " ++ word m.d ++ " |  sp: " ++
     cell m .sp ++ " |",
   " | lcl: " ++ cell m .lcl ++ " | arg: " ++ cell m .arg ++ " | this: " ++ cell m .this ++
     "| that: " ++ cell m .that ++ "|",
   registerRule]

/-- An address and its word, in hexadecimal and as a signed number. -/
def cellRow (address : Nat) (w : Word) : String :=
  " | " ++ Text.hex4 address ++ " : " ++ word w ++ " (" ++ Text.padLeft 6 ' ' (toString w.toInt) ++
    ")" ++ Text.padLeft 26 ' ' "" ++ "|"

def stackRows (m : Machine) : List String :=
  (m.stack.zipIdx.map fun (w, i) => cellRow (Hack.stackBase + i) w) ++ [tableRule]

def cellRows (m : Machine) (cells : List Word) : List String :=
  if cells.isEmpty then []
  else (cells.map fun a => cellRow a.toNat (m.ram.read a)) ++ [tableRule]

def dumpRows (m : Machine) (d : Dump) : List String :=
  registerRows m ++ (if d.stack then stackRows m else []) ++ cellRows m d.cells

end Watch

/-- A hook is called with the machine before the first step and after each one. It prints lines and
gives the machine back. -/
structure Hook where
  init : Machine → List String × Machine
  /-- Called with the number of the step, the address of its instruction and the instruction. -/
  exec : Nat → Word → Decoded → Machine → List String × Machine

namespace Hook

/-- All hooks in turn, each with the machine that the one before it has given back. -/
def inTurn (call : Hook → Machine → List String × Machine) : List Hook → Machine → List String × Machine
  | [], m => ([], m)
  | hook :: rest, m =>
    let (rows, m) := call hook m
    let (more, m) := inTurn call rest m
    (rows ++ more, m)

/-- Prints each instruction. -/
def trace (on : Bool) : Hook where
  init m := (if on then [" * Trace"] else [], m)
  exec time address i m :=
    (if on then
      ["[" ++ Text.padLeft 6 '0' (toString time) ++ "] " ++ Watch.word address ++ " " ++
        i.styled hack]
     else [], m)

/-- Prints what the plan, which comes from `file`, asks for at an address, or the registers at all
others. -/
def dump (file : Option String) (all : Bool) (plan : DumpPlan) : Hook where
  init m :=
    ((if all then [" * Dump all"] else []) ++
      match file with
      | some path => [" * Dump[" ++ toString plan.entries.length ++ "] " ++ Text.quoted path]
      | none => [], m)
  exec _ address _ m :=
    (match plan.get? address with
      | some d => Watch.dumpRows m d
      | none => if all then Watch.registerRows m else [], m)

end Hook

/-- How far a watched run has come, and what it has printed. -/
structure Progress where
  steps : Nat
  machine : Machine
  output : Array String

/-- At most `limit` further steps, with the hooks after each one. -/
def Progress.run (hooks : List Hook) : Nat → Progress → Progress
  | 0, p => p
  | limit + 1, ⟨steps, m, output⟩ =>
    match m.rom[m.pc.toNat]? with
    | none => ⟨steps, m, output⟩
    | some i =>
      let (rows, next) := Hook.inTurn (fun hook => hook.exec steps m.pc i) hooks (m.execute i)
      Progress.run hooks limit ⟨steps + 1, next, output ++ rows⟩

end HackToolchain
