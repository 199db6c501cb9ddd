import HackToolchain.Assembly.Encoding

/-!
# Assembling a program

The first pass binds each label to the number of instructions before it; the second
resolves operands and encodes. A program comes out only if no line fails; otherwise all
failing lines are reported, those that do not parse before those that do not encode.
-/

namespace HackToolchain.Assembly

structure Program where
  words : List Bits
  symbols : SymbolTable

/-- What the first pass knows after some lines. A line that does not parse counts as one
instruction. -/
structure Survey where
  symbols : SymbolTable
  counter : Nat
  queue : Array (SourceLine × Instruction)
  errors : Array (Diagnostic Error)

namespace Survey

def start (d : Descriptor) : Survey := ⟨.ofDescriptor d, 0, #[], #[]⟩

def step (s : Survey) (line : SourceLine) : Survey :=
  match Statement.parse line.code with
  | .ok none => s
  | .ok (some (.label name)) => { s with symbols := (s.symbols.bindLabel name s.counter).2 }
  | .ok (some (.instruction i)) =>
    { s with queue := s.queue.push (line, i), counter := s.counter + 1 }
  | .error e => { s with errors := s.errors.push ⟨line, e⟩, counter := s.counter + 1 }

def ofLines (d : Descriptor) (lines : List SourceLine) : Survey :=
  lines.foldl step (start d)

end Survey

/-- What the second pass has made of the instructions so far. -/
structure Output where
  symbols : SymbolTable
  words : Array Bits
  errors : Array (Diagnostic Error)

namespace Output

def step (d : Descriptor) (o : Output) (q : SourceLine × Instruction) : Output :=
  match q.2.encode d o.symbols with
  | (.ok word, symbols) => { o with symbols, words := o.words.push word }
  | (.error e, symbols) => { o with symbols, errors := o.errors.push ⟨q.1, e⟩ }

def ofSurvey (d : Descriptor) (s : Survey) : Output :=
  s.queue.foldl (step d) ⟨s.symbols, #[], s.errors⟩

end Output

def assemble (d : Descriptor) (lines : List SourceLine) :
    Except (List (Diagnostic Error)) Program :=
  let o := Output.ofSurvey d (Survey.ofLines d lines)
  if o.errors.isEmpty then .ok ⟨o.words.toList, o.symbols⟩ else .error o.errors.toList

namespace Program

/-- One bit string a line. -/
def toText (p : Program) : String :=
  String.join (p.words.map fun w => w.toString ++ "\n")

/-- The low `count` bytes of a value of 64 bits, lowest first. -/
def bytesOf (v : BitVec 64) (count : Nat) : List UInt8 :=
  (List.range (min count 8)).map fun i => UInt8.ofBitVec ((v >>> (8 * i)).setWidth 8)

/-- Little-endian words in as many bytes as hold the word size, at most eight each. -/
def toBytes (p : Program) (wordSize : Nat) : List UInt8 :=
  p.words.flatMap fun w => bytesOf w.val ((wordSize + 7) / 8)

end Program

end HackToolchain.Assembly
