import HackToolchain.Bits
import HackToolchain.Layout
import HackToolchain.Source

/-!
# Assembly statements

A line of assembly binds a label, loads an address or computes. The mnemonics of a
computation are kept as written; whether a machine knows them shows when they are encoded.
-/

namespace HackToolchain.Assembly

inductive Error
  | unknownComp (mnemonic : String)
  | unknownDest (mnemonic : String)
  | unknownJump (mnemonic : String)
  | missingOperand
  | literalTooLarge (digits : String)
  | wordWidth (word : Bits) (wordSize : Nat)
  | noOpcode (shape : Shape)
  | noLayout (shape : Shape)
  | unexpectedField (field : Field) (shape : Shape)
  /-- The last address has been handed out to a variable. -/
  | addressesExhausted
  | uncountableWord
  deriving DecidableEq, Repr

def Error.message : Error → String
  | unknownComp m => "Unknown computation: `" ++ m ++ "`"
  | unknownDest m => "Unknown destination: `" ++ m ++ "`"
  | unknownJump m => "Unknown jump condition: `" ++ m ++ "`"
  | missingOperand => "More argument required"
  | literalTooLarge digits => "Cannot parse `" ++ digits ++ "` as address"
  | wordWidth word wordSize =>
    "Encoded word `" ++ word.toString ++ "` is " ++ toString word.width ++ " bits, expected " ++
      toString wordSize
  | noOpcode shape => "No opcode for `" ++ shape.name ++ "` instructions"
  | noLayout shape => "No field layout for `" ++ shape.name ++ "` instructions"
  | unexpectedField field shape =>
    "Field `" ++ field.name ++ "` has no value in `" ++ shape.name ++ "` instructions"
  | addressesExhausted => "No address is left for another variable"
  | uncountableWord => "Encoded word is too wide to count"

/-- A count left its range. Such an error ends the whole run. -/
def Error.isOverflow : Error → Bool
  | addressesExhausted | uncountableWord => true
  | _ => false

inductive Operand
  | literal (value : BitVec 64)
  | symbol (name : String)
  deriving DecidableEq, Repr

inductive Instruction
  | address (operand : Operand)
  | compute (dest comp jump : String)
  deriving DecidableEq, Repr

inductive Statement
  | label (name : String)
  | instruction (i : Instruction)
  deriving DecidableEq, Repr

namespace Operand

/-- Only decimal digits make a literal; anything else names a symbol. -/
def parse (s : List Char) : Except Error Operand :=
  if s.isEmpty then .error .missingOperand
  else
    match Text.decimal? s with
    | none => .ok (symbol (String.ofList s))
    | some n => if n < UInt64.size then .ok (literal (BitVec.ofNat 64 n)) else .error (.literalTooLarge (String.ofList s))

def text : Operand → String
  | literal value => toString value.toNat
  | symbol name => name

def styled : Operand → String
  | literal value => Style.paint [.yellow] (toString value.toNat)
  | symbol name => Style.paint [.green] name

end Operand

namespace Instruction

/-- `dest=` and `;jump` may be missing, which is to write `null` for them. -/
def parseCompute (s : List Char) : Instruction :=
  let (dest, rest) := (Text.splitAtFirst '=' s).getD ("null".toList, s)
  let (comp, jump) := (Text.splitAtFirst ';' rest).getD (rest, "null".toList)
  compute (String.ofList dest) (String.ofList comp) (String.ofList jump)

def parse : List Char → Except Error Instruction
  | '@' :: operand => (Operand.parse (Text.trim operand)).map address
  | s => .ok (parseCompute (s.filter fun c => !Text.isBlank c))

def shape : Instruction → Shape
  | address _ => .address
  | compute .. => .compute

def text : Instruction → String
  | address operand => "@" ++ operand.text
  | compute dest comp jump =>
    (if dest = "null" then "" else dest ++ "=") ++ comp ++
      (if jump = "null" then "" else ";" ++ jump)

def styled : Instruction → String
  | address operand => Style.paint [.yellow] "@" ++ operand.styled
  | compute dest comp jump =>
    (if dest = "null" then "" else Style.paint [.blue] dest ++ "=") ++ Style.paint [.red] comp ++
      (if jump = "null" then "" else ";" ++ Style.paint [.magenta] jump)

end Instruction

namespace Statement

/-- The name of a label reaches to the first closing parenthesis. -/
def parse : List Char → Except Error (Option Statement)
  | [] => .ok none
  | '(' :: r => .ok (some (label (String.ofList (Text.trim (r.takeWhile (· ≠ ')'))))))
  | s => (Instruction.parse s).map fun i => some (instruction i)

def text : Statement → String
  | label name => "(" ++ name ++ ")"
  | instruction i => i.text

end Statement

end HackToolchain.Assembly
