/-!
# Characters, words and lines

Source text is cut on lists of characters. Blanks are the characters of the Unicode
White_Space property; a line ends at a line feed.
-/

namespace HackToolchain.Text

/-- Unicode White_Space, as closed ranges of code points. -/
def blankRanges : List (Nat × Nat) :=
  [(0x09, 0x0D), (0x20, 0x20), (0x85, 0x85), (0xA0, 0xA0), (0x1680, 0x1680),
   (0x2000, 0x200A), (0x2028, 0x2029), (0x202F, 0x202F), (0x205F, 0x205F), (0x3000, 0x3000)]

def isBlank (c : Char) : Bool :=
  blankRanges.any fun r => r.1 ≤ c.toNat && c.toNat ≤ r.2

def trim (s : List Char) : List Char :=
  ((s.dropWhile isBlank).reverse.dropWhile isBlank).reverse

/-- A word put in front of later ones; an empty one is no word. -/
def consWord (w : List Char) (ws : List (List Char)) : List (List Char) :=
  if w.isEmpty then ws else w :: ws

/-- The word a text begins with, which is empty before a blank, and the words after it. -/
def firstWord : List Char → List Char × List (List Char)
  | [] => ([], [])
  | c :: r =>
    let (w, ws) := firstWord r
    if isBlank c then ([], consWord w ws) else (c :: w, ws)

/-- The longest pieces free of blanks. -/
def words (s : List Char) : List (List Char) :=
  consWord (firstWord s).1 (firstWord s).2

/-- Both sides of the first `sep`, if there is one. -/
def splitAtFirst (sep : Char) : List Char → Option (List Char × List Char)
  | [] => none
  | c :: r => if c = sep then some ([], r) else (splitAtFirst sep r).map fun (a, b) => (c :: a, b)

/-- A finished line, read backwards: one carriage return before the line feed is dropped. -/
def closeLine (back : List Char) : List Char :=
  match back with
  | '\r' :: back => back.reverse
  | back => back.reverse

/-- `back` is the current line and `done` the lines before it, both backwards. A text that
ends in a line feed has no further line. -/
def linesFrom (done : List (List Char)) (back : List Char) : List Char → List (List Char)
  | [] => (if back.isEmpty then done else back.reverse :: done).reverse
  | c :: r => if c = '\n' then linesFrom (closeLine back :: done) [] r else linesFrom done (c :: back) r

def lines (s : List Char) : List (List Char) :=
  linesFrom [] [] s

/-- `s` set flush right in `width` places. -/
def padLeft (width : Nat) (fill : Char) (s : String) : String :=
  String.ofList (List.replicate (width - s.length) fill) ++ s

/-- `s` set flush left in `width` places. -/
def padRight (width : Nat) (fill : Char) (s : String) : String :=
  s ++ String.ofList (List.replicate (width - s.length) fill)

/-- Upper-case hexadecimal in at least four digits. -/
def hex4 (n : Nat) : String :=
  padLeft 4 '0' (String.ofList ((Nat.toDigits 16 n).map Char.toUpper))

/-- The number written by decimal digits; `none` for any other character or none at all. -/
def decimal? (s : List Char) : Option Nat :=
  if !s.isEmpty && s.all Char.isDigit then some (Nat.ofDigitChars 10 s 0) else none

end HackToolchain.Text
