/-!
# Terminal styles

A styled text stands between the codes that switch its styles on and those that switch
them off, both in the order of the styles.
-/

namespace HackToolchain

inductive Style
  | red | green | yellow | blue | magenta | cyan | bold | dim | underline
  deriving DecidableEq, Repr

namespace Style

def onCode : Style → String
  | red => "31"
  | green => "32"
  | yellow => "33"
  | blue => "34"
  | magenta => "35"
  | cyan => "36"
  | bold => "1"
  | dim => "2"
  | underline => "4"

def offCode : Style → String
  | bold | dim => "22"
  | underline => "24"
  | _ => "39"

def escape (code : String) : String :=
  "\x1b[" ++ code ++ "m"

def paint (styles : List Style) (text : String) : String :=
  String.join (styles.map fun s => escape s.onCode) ++ text ++
    String.join (styles.map fun s => escape s.offCode)

end Style

end HackToolchain
