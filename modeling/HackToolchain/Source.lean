import HackToolchain.Text
import HackToolchain.Text.Style

/-!
# Source lines

Assembly and VM sources are read line by line. Everything from `//` on is a comment; the
code is what stands before it, trimmed. An error found in a line is reported with the line.
-/

namespace HackToolchain

structure SourceLine where
  file : String
  index : Nat
  raw : String
  deriving DecidableEq, Repr, Inhabited

namespace SourceLine

/-- The text before the first `//`, and the text after it. -/
def splitComment : List Char → List Char × Option (List Char)
  | [] => ([], none)
  | '/' :: '/' :: r => ([], some r)
  | c :: r => (c :: (splitComment r).1, (splitComment r).2)

def code (l : SourceLine) : List Char :=
  Text.trim (splitComment l.raw.toList).1

def comment? (l : SourceLine) : Option String :=
  (splitComment l.raw.toList).2.map String.ofList

/-- Lines are counted from one. -/
def number (l : SourceLine) : Nat := l.index + 1

def position (l : SourceLine) : String := l.file ++ ":" ++ toString l.number

/-- The given texts as the lines of a file. -/
def ofRaws (file : String) (raws : List String) : List SourceLine :=
  raws.zipIdx.map fun (raw, index) => ⟨file, index, raw⟩

def ofText (file : String) (text : String) : List SourceLine :=
  ofRaws file ((Text.lines text.toList).map String.ofList)

end SourceLine

structure Diagnostic (ε : Type) where
  line : SourceLine
  error : ε
  deriving DecidableEq, Repr

namespace Diagnostic

variable {ε : Type}

def display (message : ε → String) (d : Diagnostic ε) : String :=
  d.line.position ++ ": " ++ message d.error

/-- The report shows the error, the position and the line itself in a margin. -/
def report (message : ε → String) (d : Diagnostic ε) : List String :=
  let bar := "      " ++ Style.paint [.blue] "|"
  [Style.paint [.red, .bold] "error" ++ ": " ++ message d.error,
   "     " ++ Style.paint [.blue] "-->" ++ " " ++ Style.paint [.underline] d.line.position,
   bar,
   " " ++ Style.paint [.blue] (Text.padLeft 4 ' ' (toString d.line.number) ++ " |") ++ " " ++
     d.line.raw,
   bar]

end Diagnostic

end HackToolchain
