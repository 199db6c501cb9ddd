/-!
# Paths

A path is text; its parts stand between slashes. The name is the last part, where slashes
and parts that say `.` do not count at the end; `..` is no name. An extension follows the
last dot of a name that does not begin with it.
-/

namespace HackToolchain.Path

/-- What is left of a path read backwards when slashes and `/.` are taken off its end. -/
def dropEnd : List Char → List Char
  | '/' :: back => dropEnd back
  | '.' :: '/' :: back => dropEnd back
  | back => back

/-- A path cut into all up to its name, the stem of the name and its extension. -/
structure Parts where
  parent : List Char
  stem : List Char
  extension : Option (List Char)
  deriving DecidableEq, Repr

/-- The stem and the extension of a name. -/
def splitName (name : List Char) : List Char × Option (List Char) :=
  let back := name.reverse
  let extension := back.takeWhile (· ≠ '.')
  match back.drop extension.length with
  | [] | ['.'] => (name, none)
  | _ :: stem => (stem.reverse, some extension.reverse)

def parts? (path : List Char) : Option Parts :=
  let back := dropEnd path.reverse
  let name := (back.takeWhile (· ≠ '/')).reverse
  if name = [] || name = ['.'] || name = ['.', '.'] then none
  else some ⟨(back.drop name.length).reverse, (splitName name).1, (splitName name).2⟩

/-- What follows the stem is replaced; a path without a name stays. -/
def replaceExtension (path extension : List Char) : List Char :=
  match parts? path with
  | none => path
  | some p => p.parent ++ p.stem ++ (if extension.isEmpty then [] else '.' :: extension)

/-- The end of the path is first cut by the length of the old extension, and what is left
takes the new one. If that ends in `..` it has no name and stays: `..a` becomes `..`. -/
def setExtension (path extension : List Char) : List Char :=
  match (parts? path).bind (·.extension) with
  | none => replaceExtension path extension
  | some old => replaceExtension (path.take (path.length - old.length)) extension

def withExtension (path extension : String) : String :=
  String.ofList (setExtension path.toList extension.toList)

def stem? (path : String) : Option String :=
  (parts? path.toList).map fun p => String.ofList p.stem

def extension? (path : String) : Option String :=
  ((parts? path.toList).bind (·.extension)).map String.ofList

/-- A name inside a directory. -/
def join (directory name : String) : String :=
  if directory.isEmpty || directory.toList.getLast? = some '/' then directory ++ name
  else directory ++ "/" ++ name

/-- The parts between slashes. -/
def splitSlashes : List Char → List (List Char)
  | [] => [[]]
  | c :: r =>
    if c = '/' then [] :: splitSlashes r
    else
      match splitSlashes r with
      | [] => [[c]]
      | part :: rest => (c :: part) :: rest

/-- The name under which assembly that is never written to a file appears in reports. -/
def generatedName (output : String) : String :=
  withExtension output "asm" ++ " (generated)"

end HackToolchain.Path
