import HackToolchain.Path
import HackToolchain.Source
import HackToolchain.Table

/-!
# Hosts

A command line runs on a host that prints lines, looks up paths and writes files. One host
is a disk that is a value; what a tool does to its files can then be read off the result.
-/

namespace HackToolchain.CommandLine

/-- What a path leads to: for a directory, the names of the files in it and its own name. -/
inductive Entry
  | absent
  | directory (fileNames : List String) (name : Option String)
  | file (bytes : ByteArray)

class Host (m : Type → Type) where
  print : String → m Unit
  look : String → m Entry
  /-- Either all is written, or nothing is and the answer is `false`. -/
  write : String → ByteArray → m Bool

/-- Files and directories by the parts of their paths from the root of the disk. -/
structure Disk where
  files : Table (List String) ByteArray
  directories : List (List String)

namespace Disk

def empty : Disk := ⟨.empty, []⟩

instance : Inhabited Disk := ⟨empty⟩

def isDirectory (d : Disk) (place : List String) : Bool :=
  place.isEmpty || d.directories.contains place

/-- Every part is looked up in a directory; nothing lies outside the disk. -/
def walk (d : Disk) (place : List String) : List String → Option (List String)
  | [] => some place
  | part :: rest =>
    if !d.isDirectory place then none
    else if part = "" || part = "." then d.walk place rest
    else if part = ".." then if place.isEmpty then none else d.walk place.dropLast rest
    else d.walk (place ++ [part]) rest

/-- The place of a path; its last part need not be there. -/
def locate (d : Disk) (path : String) : Option (List String) :=
  if path = "" || path.toList.head? = some '/' then none
  else d.walk [] ((Path.splitSlashes path.toList).map String.ofList)

/-- The directory and those above it. -/
def addDirectory (d : Disk) (place : List String) : Disk :=
  let chain := (List.range place.length).map fun n => place.take (n + 1)
  { d with directories := d.directories ++ chain.filter fun p => !d.directories.contains p }

def addFile (d : Disk) (place : List String) (bytes : ByteArray) : Disk :=
  { d.addDirectory place.dropLast with files := d.files.insert place bytes }

def fileNames (d : Disk) (place : List String) : List String :=
  d.files.keys.filterMap fun p => if p.dropLast = place then p.getLast? else none

def look (d : Disk) (path : String) : Entry :=
  match d.locate path with
  | none => .absent
  | some place =>
    if d.isDirectory place then .directory (d.fileNames place) place.getLast?
    else
      match d.files.get? place with
      | some bytes => .file bytes
      | none => .absent

def write (d : Disk) (path : String) (bytes : ByteArray) : Bool × Disk :=
  match d.locate path with
  | none => (false, d)
  | some place =>
    if d.isDirectory place then (false, d)
    else (true, { d with files := d.files.insert place bytes })

end Disk

/-- A disk and what has been printed. -/
structure Session where
  disk : Disk
  printed : String

instance : Host (StateM Session) where
  print line := modify fun s => { s with printed := s.printed ++ line ++ "\n" }
  look path := do return (← get).disk.look path
  write path bytes := modifyGet fun s =>
    let (done, disk) := s.disk.write path bytes
    (done, { s with disk })

/-- Why a tool stops: what it has to report, or a count that left its range. -/
inductive Fault
  | report (lines : List String)
  | overflow

inductive ExitStatus
  | success | failure | crash
  deriving DecidableEq, Repr

abbrev Run (m : Type → Type) := ExceptT Fault m

section

variable {m : Type → Type} [Monad m] [Host m]

def say (line : String) : Run m Unit := ExceptT.lift (Host.print line)

def failure (message : String) : Fault :=
  .report [Style.paint [.red, .bold] "error" ++ ": " ++ message]

/-- The text of a file, if it is one in UTF-8. -/
def textOf? : Entry → Option String
  | .file bytes => String.fromUTF8? bytes
  | _ => none

def look (path : String) : Run m Entry := ExceptT.lift (Host.look path)

def writeFile (path : String) (bytes : ByteArray) : Run m Unit := do
  if ← ExceptT.lift (Host.write path bytes) then pure ()
  else throw (failure ("Failed to write file: " ++ path))

/-- Runs a tool and prints what it reports when it stops early. -/
def execute (tool : Run m Unit) : m ExitStatus := do
  match ← tool.run with
  | .ok () => pure .success
  | .error (.report lines) =>
    lines.forM Host.print
    pure .failure
  | .error .overflow => pure .crash

end

end HackToolchain.CommandLine
