import HackToolchain.Assembly.SymbolTable

/-!
# Encoding

The word of an instruction is put together field by field in the order of its layout. An
operand is resolved when its field is reached, so a name can be bound although a later
field fails.
-/

namespace HackToolchain.Assembly

namespace Operand

def resolve (s : SymbolTable) : Operand → Except Error (BitVec 64 × SymbolTable)
  | literal value => .ok (value, s)
  | symbol name => (s.resolve name).map fun (address, s) => (BitVec.ofNat 64 address, s)

end Operand

/-- The code of a mnemonic, or the error that names it. -/
def codeOf (codes : TwoWay String Bits) (mnemonic : String) (unknown : String → Error) :
    Except Error Bits :=
  match codes.code? mnemonic with
  | some code => .ok code
  | none => .error (unknown mnemonic)

namespace Instruction

def fieldBits (d : Descriptor) (i : Instruction) (f : Field) (width : Nat) (s : SymbolTable) :
    Except Error (Bits × SymbolTable) :=
  match f, i with
  | .opcode, i =>
    match d.opcode? i.shape with
    | some opcode => .ok (opcode, s)
    | none => .error (.noOpcode i.shape)
  | .value, address operand => (operand.resolve s).map fun (v, s) => (Bits.ofVal v width, s)
  | .comp, compute _ comp _ => (codeOf d.comp comp .unknownComp).map (·, s)
  | .dest, compute dest _ _ => (codeOf d.dest dest .unknownDest).map (·, s)
  | .jump, compute _ _ jump => (codeOf d.jump jump .unknownJump).map (·, s)
  | f, i => .error (.unexpectedField f i.shape)

def encodeFields (d : Descriptor) (i : Instruction) :
    List (Field × Nat) → Bits → SymbolTable → Except Error Bits × SymbolTable
  | [], word, s => (.ok word, s)
  | (f, width) :: r, word, s =>
    match i.fieldBits d f width s with
    | .error e => (.error e, s)
    | .ok (bits, s) =>
      if (word ++ bits).width < UInt64.size then encodeFields d i r (word ++ bits) s
      else (.error .uncountableWord, s)

/-- A word of any other width than the machine's is an error. -/
def checkWidth (d : Descriptor) (word : Bits) : Except Error Bits :=
  if word.width = d.wordSize then .ok word else .error (.wordWidth word d.wordSize)

def encode (d : Descriptor) (i : Instruction) (s : SymbolTable) : Except Error Bits × SymbolTable :=
  match d.layout? i.shape with
  | none => (.error (.noLayout i.shape), s)
  | some layout =>
    let (word, s) := encodeFields d i layout.fields .empty s
    (word.bind (checkWidth d), s)

end Instruction

end HackToolchain.Assembly
