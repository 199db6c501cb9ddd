import HackToolchain.Bits
import HackToolchain.Layout
import HackToolchain.Table

/-!
# Machine descriptors

A descriptor is all that encoding and decoding know of a machine: opcodes and layouts per
shape, code tables per field, predefined symbols. A valid one has layouts of one word each
and codes that fill their fields.
-/

namespace HackToolchain

structure Descriptor where
  name : String
  wordSize : Nat
  opcodes : Table Shape Bits
  layouts : Table Shape Layout
  comp : TwoWay String Bits
  dest : TwoWay String Bits
  jump : TwoWay String Bits
  /-- Names bound before any source is read. -/
  symbols : Table String Nat
  /-- The first address handed out to variables. -/
  varBase : Nat
  deriving DecidableEq

inductive DescriptorError
  | cannotOpen (path : String)
  | unreadable (name : String)
  | missingOpcode (shape : Shape)
  | missingLayout (shape : Shape)
  | uncountableLayout (shape : Shape)
  | layoutWidth (shape : Shape) (width wordSize : Nat)
  | opcodeWidth (shape : Shape) (opcode : Bits) (fieldWidth : Nat)
  | codeWidth (field : Field) (name : String) (width fieldWidth : Nat)
  deriving DecidableEq, Repr

def DescriptorError.message : DescriptorError → String
  | cannotOpen path => "Failed to open file: " ++ path
  | unreadable name => "Failed to parse descriptor: " ++ name
  | missingOpcode shape => "No opcode for `" ++ shape.name ++ "` instructions"
  | missingLayout shape => "No field layout for `" ++ shape.name ++ "` instructions"
  | uncountableLayout shape => "`" ++ shape.name ++ "` layout is too wide to count"
  | layoutWidth shape width wordSize =>
    "`" ++ shape.name ++ "` layout is " ++ toString width ++ " bits wide, word is " ++
      toString wordSize ++ " bits"
  | opcodeWidth shape opcode fieldWidth =>
    "`" ++ shape.name ++ "` opcode `" ++ opcode.toString ++ "` does not fit its " ++
      toString fieldWidth ++ "-bit field"
  | codeWidth field name width fieldWidth =>
    "`" ++ field.name ++ "` code for `" ++ name ++ "` is " ++ toString width ++
      " bits, field is " ++ toString fieldWidth ++ " bits"

namespace Descriptor

def opcode? (d : Descriptor) (s : Shape) : Option Bits := d.opcodes.get? s

def layout? (d : Descriptor) (s : Shape) : Option Layout := d.layouts.get? s

/-- The first shape whose opcode the word begins with. -/
def shapeOf? (d : Descriptor) (word : Bits) : Option Shape :=
  (d.opcodes.entries.find? fun p => word.startsWith p.2).map Prod.fst

/-- The layout fills one word and gives the opcode a field of its width. -/
def checkShape (d : Descriptor) (s : Shape) : Except DescriptorError Unit :=
  match d.opcode? s, d.layout? s with
  | none, _ => .error (.missingOpcode s)
  | some _, none => .error (.missingLayout s)
  | some opcode, some layout =>
    if !layout.countable then .error (.uncountableLayout s)
    else if layout.width ≠ d.wordSize then .error (.layoutWidth s layout.width d.wordSize)
    else if layout.fieldWidth? .opcode ≠ some opcode.width then
      .error (.opcodeWidth s opcode ((layout.fieldWidth? .opcode).getD 0))
    else .ok ()

/-- Each code is as wide as its field in the compute layout; a field that is not there has
width zero. -/
def checkCodes (d : Descriptor) (f : Field) (codes : TwoWay String Bits) :
    Except DescriptorError Unit :=
  let width := ((d.layout? .compute).bind (·.fieldWidth? f)).getD 0
  match codes.entries.find? fun p => p.2.width ≠ width with
  | some (name, code) => .error (.codeWidth f name code.width width)
  | none => .ok ()

def validate (d : Descriptor) : Except DescriptorError Unit := do
  d.checkShape .address
  d.checkShape .compute
  d.checkCodes .comp d.comp
  d.checkCodes .dest d.dest
  d.checkCodes .jump d.jump

end Descriptor

end HackToolchain
