import HackToolchain.Assembly.Program

/-!
# Listings

A listing shows source lines beside the words they were encoded to, and after them the
labels and variables of the program. Its rows are made first and printed afterwards.
-/

namespace HackToolchain.Assembly

inductive Row
  | fileHead (file : String)
  | word (counter : Nat) (word : Option Bits) (line : SourceLine) (i : Instruction)
  | label (line : SourceLine) (name : String) (address : Nat)
  | plain (line : SourceLine)
  | rule
  | symbol (name : String) (s : Symbol)
  deriving DecidableEq, Repr

namespace Row

def dashes (n : Nat) : String := String.ofList (List.replicate n '-')

def comment (line : SourceLine) : String :=
  match line.comment? with
  | some c => Style.paint [.dim] ("//" ++ c)
  | none => ""

/-- The empty left column and the line number. -/
def margin (line : SourceLine) : String :=
  Text.padLeft 24 ' ' "" ++ "| " ++ Text.padLeft 4 ' ' (toString line.number) ++ ": "

/-- Exclamation marks stand where the program has no word for the line. -/
def wordText : Option Bits → String
  | some w => w.toString
  | none => Style.paint [.red, .bold] "!!!!!!!!!!!!!!!!"

def text : Row → String
  | fileHead file => dashes 24 ++ "+------[" ++ file ++ "]" ++ dashes (45 - file.utf8ByteSize)
  | word counter w line i =>
    "[" ++ Text.hex4 counter ++ "] " ++ wordText w ++ " | " ++
      Text.padLeft 4 ' ' (toString line.number) ++ ":   " ++ i.styled ++ " " ++ comment line
  | label line name address =>
    margin line ++ Style.paint [.green] ("(" ++ name ++ ")") ++ " = " ++ Text.hex4 address ++ " " ++
      comment line
  | plain line => margin line ++ comment line
  | rule => dashes 24 ++ "+" ++ dashes 55
  | symbol name s =>
    "  " ++ Text.hex4 s.address ++ " " ++
      Style.paint [if s.kind = .label then .green else .cyan] name

end Row

/-- The rows so far, the number of instructions in them and the words not yet shown. -/
structure Listing where
  rows : Array Row
  counter : Nat
  rest : List Bits

namespace Listing

def step (symbols : SymbolTable) (l : Listing) (line : SourceLine) : Listing :=
  let rows := if line.index = 0 then l.rows.push (.fileHead line.file) else l.rows
  match Statement.parse line.code with
  | .ok (some (.instruction i)) =>
    ⟨rows.push (.word l.counter l.rest.head? line i), l.counter + 1, l.rest.tail⟩
  | .ok (some (.label name)) =>
    { l with rows := rows.push (.label line name ((symbols.address? name).getD 0)) }
  | _ => { l with rows := rows.push (.plain line) }

def rowsOf (p : Program) (lines : List SourceLine) : List Row :=
  (lines.foldl (step p.symbols) ⟨#[], 0, p.words⟩).rows.toList ++
    .rule :: p.symbols.defined.map fun (name, s) => .symbol name s

end Listing

/-- The listing of lines against a program, each row on a line of its own. -/
def listing (p : Program) (lines : List SourceLine) : String :=
  String.join ((Listing.rowsOf p lines).map fun row => row.text ++ "\n")

end HackToolchain.Assembly
