import HackToolchain.CommandLine.Assembler
import HackToolchain.Vm.Translator

/-!
# The translator's command line

Files and directories of VM code are linked into one program, which is written as assembly
or assembled first.
-/

namespace HackToolchain.CommandLine

structure TranslatorOptions where
  inputs : List String
  output : Option String
  bootstrap : Bool
  entry : String
  assemble : Bool
  deriving DecidableEq, Repr

namespace TranslatorOptions

def specs : List OptionSpec :=
  [⟨"output", some 'o', true⟩, ⟨"bootstrap", some 'b', false⟩, ⟨"entry", none, true⟩,
   ⟨"assemble", some 'a', false⟩]

def parse (args : List String) : Option TranslatorOptions :=
  (Argument.parse specs args).bind fun arguments =>
    match positionals arguments with
    | [] => none
    | inputs => some
      { inputs
        output := value? arguments "output"
        bootstrap := hasFlag arguments "bootstrap"
        entry := (value? arguments "entry").getD "Sys.init"
        assemble := hasFlag arguments "assemble" }

def extension (o : TranslatorOptions) : String := if o.assemble then "hack" else "asm"

/-- The function that is called first, if one is. -/
def entry? (o : TranslatorOptions) : Option String := if o.bootstrap then some o.entry else none

end TranslatorOptions

/-- The files to read for an input: the input itself, or the `.vm` files of a directory in
the order of their names. -/
def sourcesOf (input : String) : Entry → List String
  | .directory names _ =>
    ((names.filter fun n => Path.extension? n = some "vm").mergeSort fun a b => a ≤ b).map
      (Path.join input)
  | _ => [input]

/-- Beside the input, or in a directory under the directory's own name. -/
def defaultOutput (input extension : String) : Entry → String
  | .directory _ name => Path.withExtension (Path.join input (name.getD "out")) extension
  | _ => Path.withExtension input extension

structure SourceUnit where
  name : String
  lines : List SourceLine
  deriving DecidableEq, Repr

def translationFault (d : Diagnostic Vm.Error) : Fault :=
  .report (d.report Vm.Error.message ++
    [Style.paint [.yellow] "note" ++ ": translation stopped, no output written"])

section

variable {m : Type → Type} [Monad m] [Host m]

def readUnit (path : String) : Run m SourceUnit := do
  say ("  < " ++ path)
  match textOf? (← look path) with
  | none => throw (failure ("Failed to read: " ++ path))
  | some text => pure ⟨(Path.stem? path).getD "", SourceLine.ofText path text⟩

def readUnits (input : String) : Run m (List SourceUnit) := do
  match sourcesOf input (← look input) with
  | [] => throw (failure ("No `.vm` file found in " ++ input))
  | paths => paths.mapM readUnit

/-- The translator after all units, or the fault of the first that fails. -/
def translateUnits (t : Vm.Translator) : List SourceUnit → Except Fault Vm.Translator
  | [] => .ok t
  | unit :: rest =>
    match t.translate unit.name unit.lines with
    | (none, t) => translateUnits t rest
    | (some d, _) => .error (translationFault d)

/-- A text of lines, each closed by a line feed; a program without lines is one empty line. -/
def joinLines (lines : List String) : String := "\n".intercalate lines ++ "\n"

/-- The path that was given, or the one that belongs to the first input. -/
def outputOf (o : TranslatorOptions) : Run m String :=
  match o.output with
  | some path => pure path
  | none => do
    let input := o.inputs.head?.getD ""
    pure (defaultOutput input o.extension (← look input))

def translator (o : TranslatorOptions) : Run m Unit := do
  say "Hack VM Translator"
  say "1. Read Files"
  let units ← o.inputs.mapM readUnits
  say "2. Translate"
  o.entry?.forM fun entry => say ("  - bootstrap: call " ++ entry)
  let start := match o.entry? with
    | some entry => Vm.Translator.empty.bootstrap entry
    | none => .empty
  let translated ← MonadExcept.ofExcept (translateUnits start units.flatten)
  let output ← outputOf o
  if o.assemble then
    say "3. Assemble"
    let program ← assembleLines hack (SourceLine.ofRaws (Path.generatedName output) translated.lines)
    say "4. Write Output"
    say ("  > " ++ output)
    writeFile output program.toText.toUTF8
  else
    say "3. Write Output"
    say ("  > " ++ output)
    writeFile output (joinLines translated.lines).toUTF8

end

end HackToolchain.CommandLine
