import HackToolchain.Proofs.Vm.Stack
import HackToolchain.Vm.Command

/-!
# The meaning of commands

What a command does to memory and where the program goes on, with no word of the code that it is
translated to:

* `Command.effect`: the memory after a command;
* `Command.continues`: the address at which the program goes on;
* `Command.touched`: the addresses of the stack, of frames and of the first argument that a
  command uses.

Static cells and the places of labels and functions are given by their addresses. `lt` and `gt`
look at the sign of the difference, which wraps around like every word; a conditional jump is
taken on a word below zero.
-/

namespace HackToolchain.Vm

open Hack (Cell)

/-- The name of a static cell. -/
def staticName (unit : String) (index : Word) : String := unit ++ "." ++ toString index.toNat

/-- The word for a decision. -/
def truth (b : Bool) : Word := if b then -1 else 0

namespace Operator

def unary (f : Word → Word) (m : Memory) : Memory := m.drop.push (f m.top)

/-- The first operand lies under the second. -/
def binary (f : Word → Word → Word) (m : Memory) : Memory :=
  m.drop.drop.push (f m.drop.top m.top)

def effect : Operator → Memory → Memory
  | add => binary (· + ·)
  | sub => binary (· - ·)
  | and => binary (· &&& ·)
  | or => binary (· ||| ·)
  | neg => unary (- ·)
  | not => unary (~~~ ·)
  | eq => binary fun x y => truth (x = y)
  | lt => binary fun x y => truth ((x - y).toInt < 0)
  | gt => binary fun x y => truth (0 < (x - y).toInt)

/-- How many words are taken off the stack. -/
def operands : Operator → Nat
  | neg | not => 1
  | _ => 2

end Operator

/-- Where the cells of a segment are. A constant has none. -/
def slot? (addressOf : String → Word) (unit : String) (index : Word) (m : Memory) :
    Segment → Option Word
  | .constant => none
  | .locals => some (m.cell .lcl + index)
  | .arguments => some (m.cell .arg + index)
  | .this => some (m.cell .this + index)
  | .that => some (m.cell .that + index)
  | .temp => some (BitVec.ofNat 16 Hack.tempBase + index)
  | .pointer => some (Cell.this.word + index)
  | .static => some (addressOf (staticName unit index))

/-- The address to return to and the caller's four pointers. -/
def pushFrame (back : Word) (m : Memory) : Memory :=
  m.pushAll [back, m.cell .lcl, m.cell .arg, m.cell .this, m.cell .that]

/-- The pointers of the caller, from the end of its frame down. -/
def restoreFrame (frame : Word) (m : Memory) : Memory :=
  (((m.setCell .that (m.read (frame - 1))).setCell .this (m.read (frame - 2))).setCell .arg
    (m.read (frame - 3))).setCell .lcl (m.read (frame - 4))

namespace Command

/-- The memory after a command; a call returns to `back`. -/
def effect (addressOf : String → Word) (unit : String) (back : Word) :
    Command → Memory → Memory
  | operate op, m => op.effect m
  | push segment index, m =>
    m.push (((slot? addressOf unit index m segment).map m.read).getD index)
  | pop segment index, m =>
    match slot? addressOf unit index m segment with
    | some address => m.drop.write address m.top
    | none => m
  | label _, m | goto _, m => m
  | ifGoto _, m => m.drop
  | function _ locals, m =>
    (m.setCell .lcl (m.cell .sp)).pushAll (List.replicate locals.toNat 0)
  | call _ arguments, m =>
    let framed := pushFrame back m
    (framed.setCell .arg (framed.cell .sp - (5 + arguments))).setCell .lcl (framed.cell .sp)
  | ret, m =>
    restoreFrame (m.cell .lcl)
      ((m.drop.write (m.cell .arg) m.top).setCell .sp (m.cell .arg + 1))

/-- Where the program goes on: at the `following` command, at a name, or where the frame
says. -/
def continues (addressOf : String → Word) (following : Word) (m : Memory) : Command → Word
  | goto name | call name _ => addressOf name
  | ifGoto name => if m.top.toInt < 0 then addressOf name else following
  | ret => m.read (m.cell .lcl - 5)
  | _ => following

/-- The addresses that a command uses on the stack, in a frame and for its result. -/
def touched (m : Memory) : Command → List Word
  | operate op => (List.range op.operands).map fun k => m.cell .sp - BitVec.ofNat 16 (k + 1)
  | push .. => [m.cell .sp]
  | pop .. | ifGoto _ => [m.cell .sp - 1]
  | label _ | goto _ => []
  | function _ locals => (List.range locals.toNat).map fun k => m.cell .sp + BitVec.ofNat 16 k
  | call .. => (List.range 5).map fun k => m.cell .sp + BitVec.ofNat 16 k
  | ret =>
    (m.cell .sp - 1) :: m.cell .arg ::
      (List.range 5).map fun k => m.cell .lcl - BitVec.ofNat 16 (k + 1)

end Command

end HackToolchain.Vm
