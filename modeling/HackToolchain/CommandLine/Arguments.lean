import HackToolchain.Text

/-!
# Command-line arguments

Options have a long name and perhaps a letter; some take a value. Letters can be grouped,
and a value can follow its option directly, after `=` or as the next argument, where it may
not look like an option. After `--` everything is positional. An option is given once.
-/

namespace HackToolchain.CommandLine

structure OptionSpec where
  name : String
  letter : Option Char
  takesValue : Bool
  deriving DecidableEq, Repr

inductive Argument
  | positional (text : String)
  | flag (name : String)
  | value (name text : String)
  deriving DecidableEq, Repr

namespace Argument

/-- A dash and something after it. -/
def looksLikeOption (s : String) : Bool :=
  match s.toList with
  | '-' :: _ :: _ => true
  | _ => false

/-- A group of letters. One that takes a value ends the group; if nothing follows it, the
value is still to come. -/
def ofLetters (specs : List OptionSpec) : List Char → Option (List Argument × Option OptionSpec)
  | [] => some ([], none)
  | c :: r =>
    match specs.find? fun s => s.letter = some c with
    | none => none
    | some s =>
      if !s.takesValue then
        (ofLetters specs r).map fun (arguments, pending) => (flag s.name :: arguments, pending)
      else
        match r with
        | [] => some ([], some s)
        | '=' :: v => some ([value s.name (String.ofList v)], none)
        | v => some ([value s.name (String.ofList v)], none)

/-- One option, in either form. -/
def ofOption (specs : List OptionSpec) (text : List Char) :
    Option (List Argument × Option OptionSpec) :=
  match text with
  | '-' :: long =>
    let (name, attached) := match Text.splitAtFirst '=' long with
      | some (name, v) => (name, some v)
      | none => (long, none)
    match specs.find? fun s => s.name = String.ofList name, attached with
    | none, _ => none
    | some s, none => some (if s.takesValue then ([], some s) else ([flag s.name], none))
    | some s, some v => if s.takesValue then some ([value s.name (String.ofList v)], none) else none
  | letters => ofLetters specs letters

/-- `pending` is the option whose value comes next. -/
def scan (specs : List OptionSpec) (pending : Option OptionSpec) :
    List String → Option (List Argument)
  | [] => if pending.isSome then none else some []
  | s :: rest =>
    match pending with
    | some p =>
      if looksLikeOption s then none
      else (scan specs none rest).map (value p.name s :: ·)
    | none =>
      if s = "--" then some (rest.map positional)
      else if !looksLikeOption s then (scan specs none rest).map (positional s :: ·)
      else
        (ofOption specs s.toList.tail).bind fun (arguments, pending) =>
          (scan specs pending rest).map (arguments ++ ·)

def name? : Argument → Option String
  | positional _ => none
  | flag name | value name _ => some name

/-- The arguments of a command line; `none` if it is none for these options. -/
def parse (specs : List OptionSpec) (args : List String) : Option (List Argument) :=
  (scan specs none args).filter fun arguments =>
    let names := arguments.filterMap name?
    names.length = names.eraseDups.length

end Argument

def positionals (arguments : List Argument) : List String :=
  arguments.filterMap fun
    | .positional s => some s
    | _ => none

def hasFlag (arguments : List Argument) (name : String) : Bool :=
  arguments.contains (.flag name)

def value? (arguments : List Argument) (name : String) : Option String :=
  arguments.findSome? fun
    | .value n s => if n = name then some s else none
    | _ => none

end HackToolchain.CommandLine
