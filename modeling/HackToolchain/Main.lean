import HackToolchain.CommandLine.Tool

/-!
# Running the tools

The first argument names the tool, the others are its own.
-/

namespace HackToolchain.Main

open CommandLine

/-- Whether a name in a directory is that of a regular file. -/
def isFile (path : String) : IO Bool := do
  return !(← (← IO.FS.realPath path).isDir)

def lookAt (path : String) : IO Entry := do
  try
    let real ← IO.FS.realPath path
    if ← real.isDir then
      let names := (← real.readDir).toList.map fun entry => entry.fileName
      let files ← names.filterM fun name => isFile (Path.join path name)
      return .directory files real.fileName
    else return .file (← IO.FS.readBinFile path)
  catch _ => return .absent

def writeTo (path : String) (bytes : ByteArray) : IO Bool := do
  try
    IO.FS.writeBinFile path bytes
    return true
  catch _ => return false

instance : Host IO where
  print := IO.println
  look := lookAt
  write := writeTo

def statusCode : ExitStatus → UInt32
  | .success => 0
  | .failure => 1
  | .crash => 101

def usage : String :=
  "usage: hasm [-d] [-f text|bin] [-o OUTPUT] [--isa FILE] [INPUT]...\n" ++
  "       hvmt [-a] [-b] [--entry NAME] [-o OUTPUT] INPUT...\n" ++
  "       hemu [-a] [-v] [-d FILE] [-t STEPS] [INPUT]"

def run (args : List String) : IO UInt32 := do
  let command : Option (IO ExitStatus) :=
    match args with
    | [] => none
    | name :: rest => (Tool.ofName? name).bind fun tool => tool.command? rest
  match command with
  | some command => return statusCode (← command)
  | none =>
    IO.eprintln usage
    return 2

end HackToolchain.Main

def main (args : List String) : IO UInt32 :=
  HackToolchain.Main.run args
