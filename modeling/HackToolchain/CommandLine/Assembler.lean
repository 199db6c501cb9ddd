import HackToolchain.Assembly.Listing
import HackToolchain.CommandLine.Arguments
import HackToolchain.CommandLine.Host
import HackToolchain.Descriptor.Document
import HackToolchain.Descriptor.Hack

/-!
# The assembler's command line

All inputs are assembled as one program, for the Hack machine or one with a descriptor of
its own, and written as text or as bytes.
-/

namespace HackToolchain.CommandLine

inductive OutputFormat
  | text | binary
  deriving DecidableEq, Repr

structure AssemblerOptions where
  inputs : List String
  output : Option String
  format : OutputFormat
  descriptor : Option String
  listing : Bool
  deriving DecidableEq, Repr

namespace AssemblerOptions

def specs : List OptionSpec :=
  [⟨"output", some 'o', true⟩, ⟨"format", some 'f', true⟩, ⟨"isa", none, true⟩,
   ⟨"dump", some 'd', false⟩]

def formatOf? : Option String → Option OutputFormat
  | none => some .text
  | some s => if s = "text" then some .text else if s = "bin" then some .binary else none

def parse (args : List String) : Option AssemblerOptions :=
  (Argument.parse specs args).bind fun arguments =>
    (formatOf? (value? arguments "format")).map fun format =>
      { inputs := match positionals arguments with
          | [] => ["main.asm"]
          | inputs => inputs
        output := value? arguments "output"
        format
        descriptor := value? arguments "isa"
        listing := hasFlag arguments "dump" }

/-- Without an output path the first input's is used, with the ending of the format in
place of `.asm`. -/
def outputPath (o : AssemblerOptions) : String :=
  match o.output with
  | some path => path
  | none =>
    let input := (o.inputs.head?.getD "").toList
    let stem := if ".asm".toList.isSuffixOf input then input.take (input.length - 4) else input
    String.ofList stem ++ match o.format with
      | .text => ".hack"
      | .binary => ".bin"

def serialize (o : AssemblerOptions) (d : Descriptor) (p : Assembly.Program) : ByteArray :=
  match o.format with
  | .text => p.toText.toUTF8
  | .binary => ⟨(p.toBytes d.wordSize).toArray⟩

end AssemblerOptions

section

variable {m : Type → Type} [Monad m] [Host m]

def loadDescriptor (path : String) : Run m Descriptor := do
  match textOf? (← look path) with
  | none => throw (failure (DescriptorError.cannotOpen path).message)
  | some text =>
    match Descriptor.ofText path text with
    | .ok d => pure d
    | .error (.uncountableLayout _) => throw .overflow
    | .error e => throw (failure e.message)

/-- The machine with the given descriptor, or the Hack machine. -/
def descriptorOf : Option String → Run m Descriptor
  | some path => loadDescriptor path
  | none => pure hack

/-- The lines of an input; one that is there but holds no text has no lines to read. -/
def readSource (path : String) : Run m (List SourceLine) := do
  say ("  < " ++ path)
  match ← look path with
  | .absent => throw (failure ("Failed to open file: " ++ path))
  | entry =>
    match textOf? entry with
    | none => throw (failure "Failed to read line")
    | some text => pure (SourceLine.ofText path text)

/-- All diagnostics, and how many there are. -/
def assemblyFault (ds : List (Diagnostic Assembly.Error)) : Fault :=
  if ds.any (·.error.isOverflow) then .overflow
  else
    .report (ds.flatMap (Diagnostic.report Assembly.Error.message) ++
      [Style.paint [.red, .bold] "error" ++ ": " ++ toString ds.length ++
        " line(s) failed, no output written"])

def assembleLines (d : Descriptor) (lines : List SourceLine) : Run m Assembly.Program := do
  match Assembly.assemble d lines with
  | .error ds => throw (assemblyFault ds)
  | .ok p =>
    say ("  - " ++ toString p.words.length ++ " words")
    pure p

def assembler (o : AssemblerOptions) : Run m Unit := do
  say "Hack Assembler"
  let d ← descriptorOf o.descriptor
  say "1. Read Files"
  let lines ← o.inputs.mapM readSource
  say ("2. Resolve Symbols & Encode [" ++ d.name ++ "]")
  let program ← assembleLines d lines.flatten
  say "3. Write Binary"
  say ("  > " ++ o.outputPath)
  writeFile o.outputPath (o.serialize d program)
  if o.listing then
    (Assembly.Listing.rowsOf program lines.flatten).forM fun row => say row.text

end

end HackToolchain.CommandLine
