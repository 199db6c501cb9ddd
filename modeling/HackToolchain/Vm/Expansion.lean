import HackToolchain.Assembly.Statement
import HackToolchain.Vm.Command

/-!
# Expansion of commands

Each command becomes a note of its text and a fixed sequence of assembly statements.
Comparisons and calls carry a number in the labels they define, counted over the whole
program.
-/

namespace HackToolchain.Vm

open Assembly (Statement)
open Hack (Cell)

/-- A line of output: a comment or a statement. -/
inductive Item
  | note (text : String)
  | code (s : Statement)
  deriving DecidableEq, Repr

def Item.text : Item → String
  | note text => "// " ++ text
  | code s => s.text

/-- How many comparisons and calls have been expanded. -/
structure Counters where
  comparisons : Nat
  calls : Nat
  deriving DecidableEq, Repr, Inhabited

namespace Counters

def next (n : Counters) : Command → Counters
  | .operate .eq | .operate .lt | .operate .gt => { n with comparisons := n.comparisons + 1 }
  | .call .. => { n with calls := n.calls + 1 }
  | _ => n

end Counters

namespace Expansion

def symbol (name : String) : Item := .code (.instruction (.address (.symbol name)))

def cell (c : Cell) : Item := symbol c.name

def literal (n : Nat) : Item := .code (.instruction (.address (.literal (BitVec.ofNat 64 n))))

def assign (dest comp : String) : Item := .code (.instruction (.compute dest comp "null"))

def branch (comp jump : String) : Item := .code (.instruction (.compute "null" comp jump))

def label (name : String) : Item := .code (.label name)

/-- `*SP = D`, then `SP` goes up. -/
def pushD : List Item :=
  [cell .sp, assign "A" "M", assign "M" "D", cell .sp, assign "M" "M+1"]

/-- `SP` goes down, then `D = *SP`. -/
def popD : List Item :=
  [cell .sp, assign "AM" "M-1", assign "D" "M"]

/-- How the cell of a segment is reached. -/
inductive Access
  | immediate
  | through (base : Cell)
  | direct (operand : Item)

def access (unit : String) (index : Word) : Segment → Access
  | .constant => .immediate
  | .locals => .through .lcl
  | .arguments => .through .arg
  | .this => .through .this
  | .that => .through .that
  | .temp => .direct (literal (Hack.tempBase + index.toNat))
  | .pointer => .direct (cell (if index = 0 then .this else .that))
  | .static => .direct (symbol (unit ++ "." ++ toString index.toNat))

def push (unit : String) (segment : Segment) (index : Word) : List Item :=
  (match access unit index segment with
    | .immediate => [literal index.toNat, assign "D" "A"]
    | .through base =>
      [literal index.toNat, assign "D" "A", cell base, assign "A" "D+M", assign "D" "M"]
    | .direct operand => [operand, assign "D" "M"]) ++
    pushD

/-- There is nothing to pop into for a constant; no such command can be read. -/
def pop (unit : String) (segment : Segment) (index : Word) : List Item :=
  match access unit index segment with
  | .immediate => []
  | .through base =>
    [literal index.toNat, assign "D" "A", cell base, assign "D" "D+M", cell .r13, assign "M" "D"] ++
      popD ++ [cell .r13, assign "A" "M", assign "M" "D"]
  | .direct operand => popD ++ [operand, assign "M" "D"]

/-- The second operand in `D`, the first at the top of the stack. -/
def binary (comp : String) : List Item :=
  popD ++ [assign "A" "A-1", assign "M" comp]

def unary (comp : String) : List Item :=
  [cell .sp, assign "A" "M-1", assign "M" comp]

/-- `name` is that of the comparison in capitals, and `skip` the jump that is taken on the
difference of the operands when they do not compare. -/
def compare (name skip : String) (id : Nat) : List Item :=
  let no := "NOT_" ++ name ++ "_" ++ toString id
  let done := "END_" ++ name ++ "_" ++ toString id
  popD ++ [assign "A" "A-1", assign "D" "M-D", symbol no, branch "D" skip] ++ unary "-1" ++
    [symbol done, branch "0" "JMP", label no] ++ unary "0" ++ [label done]

def operate (id : Nat) : Operator → List Item
  | .add => binary "D+M"
  | .sub => binary "M-D"
  | .and => binary "D&M"
  | .or => binary "D|M"
  | .neg => unary "-M"
  | .not => unary "!M"
  | .eq => compare "EQ" "JNE" id
  | .lt => compare "LT" "JGE" id
  | .gt => compare "GT" "JLE" id

/-- `LCL = SP`, then a zero for each local. -/
def function (name : String) (locals : Word) : List Item :=
  [label name, cell .sp, assign "D" "M", cell .lcl, assign "M" "D"] ++
    if locals = 0 then [] else assign "D" "0" :: (List.replicate locals.toNat pushD).flatten

def pushCell (c : Cell) : List Item :=
  [cell c, assign "D" "M"] ++ pushD

def returnLabel (name : String) (id : Nat) : String :=
  name ++ "$ret." ++ toString id

/-- The return address and the caller's four pointers are pushed; `ARG` is set below them
and the arguments, `LCL` above. -/
def call (name : String) (arguments : Word) (id : Nat) : List Item :=
  let back := returnLabel name id
  [symbol back, assign "D" "A"] ++ pushD ++
    pushCell .lcl ++ pushCell .arg ++ pushCell .this ++ pushCell .that ++
    [cell .sp, assign "D" "M", literal (5 + arguments.toNat), assign "D" "D-A",
     cell .arg, assign "M" "D", cell .sp, assign "D" "M", cell .lcl, assign "M" "D",
     symbol name, branch "0" "JMP", label back]

/-- `R13` runs down the frame. -/
def restore (c : Cell) : List Item :=
  [cell .r13, assign "AM" "M-1", assign "D" "M", cell c, assign "M" "D"]

/-- The frame is kept in `R13` and the return address in `R14`; the result takes the place
of the first argument. -/
def ret : List Item :=
  [cell .lcl, assign "D" "M", cell .r13, assign "M" "D",
   literal 5, assign "A" "D-A", assign "D" "M", cell .r14, assign "M" "D"] ++
    popD ++
    [cell .arg, assign "A" "M", assign "M" "D", cell .arg, assign "D" "M+1", cell .sp,
     assign "M" "D"] ++
    restore .that ++ restore .this ++ restore .arg ++ restore .lcl ++
    [cell .r14, assign "A" "M", branch "0" "JMP"]

end Expansion

namespace Command

/-- The statements of a command in a unit. -/
def statements (unit : String) (n : Counters) : Command → List Item
  | operate op => Expansion.operate n.comparisons op
  | push segment index => Expansion.push unit segment index
  | pop segment index => Expansion.pop unit segment index
  | label name => [Expansion.label name]
  | goto name => [Expansion.symbol name, Expansion.branch "0" "JMP"]
  | ifGoto name => Expansion.popD ++ [Expansion.symbol name, Expansion.branch "D" "JLT"]
  | function name locals => Expansion.function name locals
  | call name arguments => Expansion.call name arguments n.calls
  | ret => Expansion.ret

def expand (unit : String) (n : Counters) (c : Command) : List Item :=
  .note c.text :: c.statements unit n

end Command

end HackToolchain.Vm
