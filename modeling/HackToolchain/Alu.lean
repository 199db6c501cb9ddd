/-!
# Arithmetic unit

Machine words have 16 bits. The control bits `zx nx zy ny f no`, most significant first,
choose one of the functions of two words; the condition bits choose when to jump.
-/

namespace HackToolchain

abbrev Word := BitVec 16

namespace Alu

/-- One operand, zeroed and then inverted as its two control bits say. -/
def operand (zero invert : Bool) (x : Word) : Word :=
  let x := if zero then 0 else x
  if invert then ~~~x else x

def eval (control : BitVec 6) (x y : Word) : Word :=
  let x := operand (control.getLsbD 5) (control.getLsbD 4) x
  let y := operand (control.getLsbD 3) (control.getLsbD 2) y
  let out := if control.getLsbD 1 then x + y else x &&& y
  if control.getLsbD 0 then ~~~out else out

/-- Taken on a negative, a zero or a positive word, as the three condition bits say. -/
def jumps (condition : BitVec 3) (out : Word) : Bool :=
  condition.getLsbD 2 && out.toInt < 0 ||
  condition.getLsbD 1 && out.toInt = 0 ||
  condition.getLsbD 0 && 0 < out.toInt

end Alu

end HackToolchain
