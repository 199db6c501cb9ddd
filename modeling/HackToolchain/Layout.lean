/-!
# Instruction shapes and field layouts
-/

namespace HackToolchain

/-- `address` is written `@value`, `compute` is written `dest=comp;jump`. -/
inductive Shape
  | address | compute
  deriving DecidableEq, Repr

namespace Shape

def all : List Shape := [address, compute]

def name : Shape → String
  | address => "address"
  | compute => "compute"

def ofName? (s : String) : Option Shape := all.find? fun x => x.name = s

end Shape

inductive Field
  | opcode | value | comp | dest | jump
  deriving DecidableEq, Repr

namespace Field

def all : List Field := [opcode, value, comp, dest, jump]

def name : Field → String
  | opcode => "opcode"
  | value => "value"
  | comp => "comp"
  | dest => "dest"
  | jump => "jump"

def ofName? (s : String) : Option Field := all.find? fun x => x.name = s

end Field

/-- The fields of a word and their widths, most significant field first. -/
structure Layout where
  fields : List (Field × Nat)
  deriving DecidableEq, Repr, Inhabited

namespace Layout

def width (l : Layout) : Nat := l.fields.foldr (fun f n => f.2 + n) 0

/-- Widths are counted in 64 bits. -/
def countable (l : Layout) : Bool := l.width < UInt64.size

/-- The width of the first such field. -/
def fieldWidth? (l : Layout) (f : Field) : Option Nat := l.fields.lookup f

end Layout

end HackToolchain
