import HackToolchain.Alu
import HackToolchain.Descriptor.Hack

/-!
# VM commands

A command is an operator word and at most two arguments, separated by blanks. Reading
refuses whatever is not exactly one command; printing gives the form with single spaces.
-/

namespace HackToolchain.Vm

inductive Segment
  | constant | locals | arguments | this | that | temp | pointer | static
  deriving DecidableEq, Repr

namespace Segment

def all : List Segment := [constant, locals, arguments, this, that, temp, pointer, static]

def name : Segment → String
  | constant => "constant"
  | locals => "local"
  | arguments => "argument"
  | this => "this"
  | that => "that"
  | temp => "temp"
  | pointer => "pointer"
  | static => "static"

def ofName? (s : String) : Option Segment := all.find? fun x => x.name = s

end Segment

inductive Operator
  | add | sub | neg | and | or | not | eq | lt | gt
  deriving DecidableEq, Repr

namespace Operator

def all : List Operator := [add, sub, neg, and, or, not, eq, lt, gt]

def name : Operator → String
  | add => "add"
  | sub => "sub"
  | neg => "neg"
  | and => "and"
  | or => "or"
  | not => "not"
  | eq => "eq"
  | lt => "lt"
  | gt => "gt"

def ofName? (s : String) : Option Operator := all.find? fun x => x.name = s

end Operator

inductive Command
  | operate (op : Operator)
  | push (segment : Segment) (index : Word)
  | pop (segment : Segment) (index : Word)
  | label (name : String)
  | goto (name : String)
  | ifGoto (name : String)
  | function (name : String) (locals : Word)
  | call (name : String) (arguments : Word)
  | ret
  deriving DecidableEq, Repr

inductive Error
  | unknownCommand (word : String)
  | unknownSegment (word : String)
  | badName (word : String)
  | missingArgument
  | unexpectedArgument (word : String)
  | badNumber (word : String)
  | indexOutOfRange (segment : Segment) (index : Word)
  | popConstant
  deriving DecidableEq, Repr

def Error.message : Error → String
  | unknownCommand word => "Unknown command: `" ++ word ++ "`"
  | unknownSegment word => "Unknown segment: `" ++ word ++ "`"
  | badName word => "Invalid label or function name: `" ++ word ++ "`"
  | missingArgument => "More argument required"
  | unexpectedArgument word => "Unexpected argument: `" ++ word ++ "`"
  | badNumber word => "Cannot parse `" ++ word ++ "` as u16"
  | indexOutOfRange segment index =>
    "Index " ++ toString index.toNat ++ " is out of range for segment `" ++ segment.name ++ "`"
  | popConstant => "Cannot pop into `constant`"

/-- Letters, digits and `_ . $ :` of ASCII. -/
def isNameChar (c : Char) : Bool :=
  c.isAlphanum || c = '_' || c = '.' || c = '$' || c = ':'

/-- A label or function name does not start with a digit. -/
def isName : List Char → Bool
  | [] => true
  | c :: r => (c :: r).all isNameChar && !c.isDigit

/-- Decimal digits of a 16-bit number, after a plus sign or not. -/
def number? (s : List Char) : Option Word :=
  let digits := match s with
    | '+' :: r => r
    | s => s
  (Text.decimal? digits).bind fun n => if n < UInt16.size then some (BitVec.ofNat 16 n) else none

def segmentOf (word : List Char) : Except Error Segment :=
  match Segment.ofName? (String.ofList word) with
  | some segment => .ok segment
  | none => .error (.unknownSegment (String.ofList word))

def nameOf (word : List Char) : Except Error String :=
  if isName word then .ok (String.ofList word) else .error (.badName (String.ofList word))

def numberOf (word : List Char) : Except Error Word :=
  match number? word with
  | some n => .ok n
  | none => .error (.badNumber (String.ofList word))

namespace Command

/-- The arguments left over after a command has taken its own. -/
def finish (c : Command) : List (List Char) → Except Error Command
  | [] => .ok c
  | extra :: _ => .error (.unexpectedArgument (String.ofList extra))

/-- One argument, read before a second one is looked for. -/
def take {α : Type} (read : List Char → Except Error α)
    (next : α → List (List Char) → Except Error Command) : List (List Char) → Except Error Command
  | [] => .error .missingArgument
  | word :: rest => (read word).bind fun a => next a rest

def takeSegmentIndex (make : Segment → Word → Command) : List (List Char) → Except Error Command :=
  take segmentOf fun segment => take numberOf fun index => finish (make segment index)

def takeName (make : String → Command) : List (List Char) → Except Error Command :=
  take nameOf fun name => finish (make name)

def takeNameNumber (make : String → Word → Command) : List (List Char) → Except Error Command :=
  take nameOf fun name => take numberOf fun n => finish (make name n)

/-- The arguments that go with an operator word. -/
def parseArguments (word : String) : List (List Char) → Except Error Command :=
  if word = "push" then takeSegmentIndex push
  else if word = "pop" then takeSegmentIndex pop
  else if word = "label" then takeName label
  else if word = "goto" then takeName goto
  else if word = "if-goto" then takeName ifGoto
  else if word = "function" then takeNameNumber function
  else if word = "call" then takeNameNumber call
  else if word = "return" then finish ret
  else
    match Operator.ofName? word with
    | some op => finish (operate op)
    | none => fun _ => .error (.unknownCommand word)

/-- Nothing is popped into a constant; `temp` has eight cells and `pointer` two. -/
def check : Command → Except Error Unit
  | pop .constant _ => .error .popConstant
  | push .temp index | pop .temp index =>
    if index.toNat < Hack.tempSize then .ok () else .error (.indexOutOfRange .temp index)
  | push .pointer index | pop .pointer index =>
    if index.toNat ≤ 1 then .ok () else .error (.indexOutOfRange .pointer index)
  | _ => .ok ()

/-- The command in one comment-free line; a blank line has none. -/
def parse (code : List Char) : Except Error (Option Command) :=
  match Text.words code with
  | [] => .ok none
  | word :: arguments =>
    (parseArguments (String.ofList word) arguments).bind fun c => c.check.map fun _ => some c

def text : Command → String
  | operate op => op.name
  | push segment index => "push " ++ segment.name ++ " " ++ toString index.toNat
  | pop segment index => "pop " ++ segment.name ++ " " ++ toString index.toNat
  | label name => "label " ++ name
  | goto name => "goto " ++ name
  | ifGoto name => "if-goto " ++ name
  | function name locals => "function " ++ name ++ " " ++ toString locals.toNat
  | call name arguments => "call " ++ name ++ " " ++ toString arguments.toNat
  | ret => "return"

end Command

end HackToolchain.Vm
