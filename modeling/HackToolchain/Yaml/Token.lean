import HackToolchain.Text

/-!
# Tokens of YAML documents

Indentation is turned into tokens that open and close block collections. A key is known as
one only at its colon; until then each flow level keeps the place where a key may have
begun, and the key token is put in there. Anchors, tags, directives and block scalars are
not read.
-/

namespace HackToolchain.Yaml

inductive Token
  | documentStart | documentEnd
  | blockSequence | blockMapping | blockEnd
  | flowSequence | flowSequenceEnd | flowMapping | flowMappingEnd
  | flowEntry | blockEntry | key | value
  | scalar (plain : Bool) (text : String)
  deriving DecidableEq, Repr

def isSpace (c : Char) : Bool := c = ' ' || c = '\t'

/-- A space, a line feed or the end of the text comes next. -/
def blankNext : List Char → Bool
  | [] => true
  | c :: _ => isSpace c || c = '\n'

/-- `---` or `...` by itself at the start of a line. -/
def documentMark? : List Char → Option Token
  | '-' :: '-' :: '-' :: r => if blankNext r then some .documentStart else none
  | '.' :: '.' :: '.' :: r => if blankNext r then some .documentEnd else none
  | _ => none

def isPrintable (c : Char) : Bool :=
  let n := c.toNat
  n = 9 || n = 10 || n = 13 || 0x20 ≤ n && n ≤ 0x7E || n = 0x85 || 0xA0 ≤ n && n ≤ 0xFFFD && n ≠ 0xFEFF ||
    0x10000 ≤ n

/-- Every line break becomes a line feed. -/
def normalizeBreaks : List Char → List Char
  | [] => []
  | '\r' :: '\n' :: r => '\n' :: normalizeBreaks r
  | c :: r => (if c = '\r' || c = '\u0085' then '\n' else c) :: normalizeBreaks r

/-- What lies between two words of a scalar: spaces, or line breaks with or without a first
one that folds. -/
inductive Gap
  | spaces (back : List Char)
  | breaks (folds : Bool) (more : Nat)
  deriving DecidableEq, Repr

namespace Gap

def none : Gap := .spaces []

def addSpace (c : Char) : Gap → Gap
  | spaces back => spaces (c :: back)
  | breaks folds more => breaks folds more

def addBreak : Gap → Gap
  | spaces _ => breaks true 0
  | breaks folds more => breaks folds (more + 1)

def isBroken : Gap → Bool
  | spaces _ => false
  | breaks .. => true

/-- What the gap puts into the scalar, backwards: a single break is a space, and of several
the first is dropped. -/
def fill : Gap → List Char
  | spaces back => back
  | breaks folds more => if folds && more = 0 then [' '] else List.replicate more '\n'

end Gap

def hexDigit? (c : Char) : Option Nat :=
  if c.isDigit then some (c.toNat - '0'.toNat)
  else if 'a' ≤ c && c ≤ 'f' then some (c.toNat - 'a'.toNat + 10)
  else if 'A' ≤ c && c ≤ 'F' then some (c.toNat - 'A'.toNat + 10)
  else none

def hexNumber? (s : List Char) : Option Nat :=
  s.foldl (fun n c => n.bind fun n => (hexDigit? c).map (16 * n + ·)) (some 0)

def hexChar? (s : List Char) : Option Char :=
  (hexNumber? s).bind fun n => if n.isValidChar then some (Char.ofNat n) else none

def escapes : List (Char × Char) :=
  [('0', '\x00'), ('a', '\x07'), ('b', '\x08'), ('t', '\t'), ('\t', '\t'), ('n', '\n'),
   ('v', '\x0b'), ('f', '\x0c'), ('r', '\r'), ('e', '\x1b'), (' ', ' '), ('"', '"'), ('/', '/'),
   ('\\', '\\'), ('N', '\u0085'), ('_', '\u00a0'), ('L', '\u2028'), ('P', '\u2029')]

/-- The text of a single-quoted scalar and what follows its closing quote; `text` is what
has been read, backwards. -/
def singleQuoted (text : List Char) (gap : Gap) : List Char → Option (String × List Char)
  | [] => none
  | '\'' :: '\'' :: r => singleQuoted ('\'' :: (gap.fill ++ text)) .none r
  | '\'' :: r => some (String.ofList (gap.fill ++ text).reverse, r)
  | '\n' :: r => if (documentMark? r).isSome then none else singleQuoted text gap.addBreak r
  | c :: r =>
    if isSpace c then singleQuoted text (gap.addSpace c) r
    else singleQuoted (c :: (gap.fill ++ text)) .none r

/-- The same for a double-quoted scalar, with its escapes. -/
def doubleQuoted (text : List Char) (gap : Gap) : List Char → Option (String × List Char)
  | [] => none
  | '"' :: r => some (String.ofList (gap.fill ++ text).reverse, r)
  | '\\' :: '\n' :: r =>
    if (documentMark? r).isSome then none else doubleQuoted (gap.fill ++ text) (.breaks false 0) r
  | '\\' :: 'x' :: a :: b :: r =>
    (hexChar? [a, b]).bind fun c => doubleQuoted (c :: (gap.fill ++ text)) .none r
  | '\\' :: 'u' :: a :: b :: c :: d :: r =>
    (hexChar? [a, b, c, d]).bind fun x => doubleQuoted (x :: (gap.fill ++ text)) .none r
  | '\\' :: 'U' :: a :: b :: c :: d :: e :: f :: g :: h :: r =>
    (hexChar? [a, b, c, d, e, f, g, h]).bind fun x => doubleQuoted (x :: (gap.fill ++ text)) .none r
  | '\\' :: c :: r =>
    (escapes.lookup c).bind fun x => doubleQuoted (x :: (gap.fill ++ text)) .none r
  | '\n' :: r => if (documentMark? r).isSome then none else doubleQuoted text gap.addBreak r
  | c :: r =>
    if isSpace c then doubleQuoted text (gap.addSpace c) r
    else doubleQuoted (c :: (gap.fill ++ text)) .none r

def isFlowIndicator (c : Char) : Bool :=
  c = ',' || c = '[' || c = ']' || c = '\x7b' || c = '\x7d'

structure PlainScalar where
  text : String
  rest : List Char
  /-- A line break was read after the last word. -/
  broken : Bool

/-- A plain scalar ends before a colon and a blank, before a comment, in a flow collection
before an indicator, and in a block before a line that is indented less than `indent`.
`column` counts the blanks since the last line break. -/
def plainScalar (inFlow : Bool) (indent : Nat) (text : List Char) (gap : Gap) (column : Nat) :
    List Char → Option PlainScalar
  | [] => some ⟨String.ofList text.reverse, [], gap.isBroken⟩
  | c :: r =>
    let stop : Option PlainScalar := some ⟨String.ofList text.reverse, c :: r, gap.isBroken⟩
    if c = '\n' then
      if (documentMark? r).isSome then some ⟨String.ofList text.reverse, r, true⟩
      else plainScalar inFlow indent text gap.addBreak 0 r
    else if isSpace c then
      if gap.isBroken && column < indent && c = '\t' then none
      else plainScalar inFlow indent text (gap.addSpace c) (column + 1) r
    else if gap.isBroken && !inFlow && column < indent then stop
    else if gap ≠ .none && c = '#' then stop
    else if inFlow && c = ':' && (r.head?.any fun d => isFlowIndicator d || d = '?') then none
    else if c = ':' && blankNext r || inFlow && isFlowIndicator c then stop
    else plainScalar inFlow indent (c :: (gap.fill ++ text)) .none 0 r

/-- The place where a key may have begun. -/
structure KeyPlace where
  token : Nat
  line : Nat
  column : Nat
  offset : Nat
  /-- In a block, something at the indentation of the mapping can only be a key. -/
  required : Bool
  deriving DecidableEq, Repr

structure Scanner where
  rest : List Char
  line : Nat
  column : Nat
  offset : Nat
  tokens : Array Token
  /-- The columns of the open block collections, innermost first. -/
  indents : List Nat
  /-- One entry for the block level and one for each open flow collection, innermost first. -/
  places : List (Option KeyPlace)
  keyAllowed : Bool

namespace Scanner

def start (text : List Char) : Scanner := ⟨text, 0, 0, 0, #[], [], [none], true⟩

def inFlow (s : Scanner) : Bool := 1 < s.places.length

/-- The scanner after `n` more characters. -/
def advance : Nat → Scanner → Scanner
  | 0, s => s
  | n + 1, s =>
    match s.rest with
    | [] => s
    | c :: rest =>
      advance n
        (if c = '\n' then { s with rest, line := s.line + 1, column := 0, offset := s.offset + 1 }
         else { s with rest, column := s.column + 1, offset := s.offset + 1 })

def advanceTo (s : Scanner) (rest : List Char) : Scanner :=
  s.advance (s.rest.length - rest.length)

def push (s : Scanner) (t : Token) : Scanner := { s with tokens := s.tokens.push t }

/-- Blanks, comments and line breaks. After a line break in a block a key may begin; a tab
may not stand where a key may begin. -/
def skipGap (s : Scanner) (inComment : Bool) : List Char → Scanner
  | [] => { s with rest := [] }
  | c :: r =>
    if c = '\n' then
      skipGap { s with line := s.line + 1, column := 0, offset := s.offset + 1,
                       keyAllowed := s.keyAllowed || !s.inFlow } false r
    else if inComment || c = '#' || c = ' ' || c = '\t' && (s.inFlow || !s.keyAllowed) then
      skipGap { s with column := s.column + 1, offset := s.offset + 1 } (inComment || c = '#') r
    else { s with rest := c :: r }

/-- A place is given up; a required one may not be. -/
def dropPlace : List (Option KeyPlace) → Option (List (Option KeyPlace))
  | some place :: rest => if place.required then none else some (none :: rest)
  | places => some places

/-- A key stays on one line and within 1024 characters. -/
def isStale (s : Scanner) (place : KeyPlace) : Bool :=
  place.line < s.line || place.offset + 1024 < s.offset

def dropStale (s : Scanner) : Option Scanner :=
  let stale := fun p : Option KeyPlace => p.any s.isStale
  if s.places.any fun p => stale p && p.any (·.required) then none
  else some { s with places := s.places.map fun p => if stale p then none else p }

def forgetKey (s : Scanner) : Option Scanner :=
  (dropPlace s.places).map fun places => { s with places }

/-- What comes next may turn out to be a key. -/
def saveKey (s : Scanner) : Option Scanner :=
  if !s.keyAllowed then some s
  else
    (s.forgetKey).map fun s =>
      let place : KeyPlace :=
        ⟨s.tokens.size, s.line, s.column, s.offset, !s.inFlow && s.indents.head? = some s.column⟩
      { s with places := some place :: s.places.tail }

/-- A deeper column opens a block collection, whose token goes to the given place. -/
def openBlock (s : Scanner) (column : Nat) (token : Nat) (t : Token) : Scanner :=
  if s.inFlow || s.indents.head?.any (column ≤ ·) then s
  else { s with indents := column :: s.indents, tokens := s.tokens.insertIdxIfInBounds token t }

/-- Block collections that are indented further than the column are closed. -/
def closeBlocks (s : Scanner) (column : Nat) : Scanner :=
  if s.inFlow then s
  else
    let closed := s.indents.takeWhile (column < ·)
    { s with
      indents := s.indents.drop closed.length
      tokens := closed.foldl (fun ts _ => ts.push .blockEnd) s.tokens }

def closeAll (s : Scanner) : Scanner :=
  { s with
    indents := []
    tokens := s.indents.foldl (fun ts _ => ts.push .blockEnd) s.tokens }

def documentMark (s : Scanner) (t : Token) : Option Scanner :=
  (s.closeAll.forgetKey).map fun s => { (s.push t).advance 3 with keyAllowed := false }

def openFlow (s : Scanner) (t : Token) : Option Scanner :=
  (s.saveKey).map fun s =>
    { (s.push t).advance 1 with places := none :: s.places, keyAllowed := true }

def closeFlow (s : Scanner) (t : Token) : Option Scanner :=
  (s.forgetKey).map fun s =>
    { (s.push t).advance 1 with
      places := if s.inFlow then s.places.tail else s.places
      keyAllowed := false }

def flowEntry (s : Scanner) : Option Scanner :=
  (s.forgetKey).map fun s => { (s.push .flowEntry).advance 1 with keyAllowed := true }

def blockEntry (s : Scanner) : Option Scanner :=
  if !s.inFlow && !s.keyAllowed then none
  else
    ((s.openBlock s.column s.tokens.size .blockSequence).forgetKey).map fun s =>
      { (s.push .blockEntry).advance 1 with keyAllowed := true }

def explicitKey (s : Scanner) : Option Scanner :=
  if !s.inFlow && !s.keyAllowed then none
  else
    ((s.openBlock s.column s.tokens.size .blockMapping).forgetKey).map fun s =>
      { (s.push .key).advance 1 with keyAllowed := !s.inFlow }

/-- The colon after a key, or of a key that is empty or was marked before. -/
def value (s : Scanner) : Option Scanner :=
  match s.places.head?.join with
  | some place =>
    let s := { s with tokens := s.tokens.insertIdxIfInBounds place.token .key }
    let s := s.openBlock place.column place.token .blockMapping
    some { (s.push .value).advance 1 with places := none :: s.places.tail, keyAllowed := false }
  | none =>
    if !s.inFlow && !s.keyAllowed then none
    else
      let s := s.openBlock s.column s.tokens.size .blockMapping
      some { (s.push .value).advance 1 with keyAllowed := !s.inFlow }

def quoted (s : Scanner) (read : List Char → Option (String × List Char)) : Option Scanner :=
  (s.saveKey).bind fun s =>
    (read s.rest.tail).map fun (text, rest) =>
      { (s.push (.scalar false text)).advanceTo rest with keyAllowed := false }

def plain (s : Scanner) : Option Scanner :=
  (s.saveKey).bind fun s =>
    let indent := match s.indents with
      | [] => 0
      | column :: _ => column + 1
    (plainScalar s.inFlow indent [] .none 0 s.rest).map fun p =>
      { (s.push (.scalar true p.text)).advanceTo p.rest with keyAllowed := p.broken }

/-- Characters that begin no plain scalar. -/
def isIndicator (c : Char) : Bool :=
  "-?:,[]\x7b\x7d#&*!|>'\"%@`".toList.contains c

/-- The next token, in front of which nothing is left to skip. -/
def next (s : Scanner) : Option Scanner :=
  match (if s.column = 0 then documentMark? s.rest else none), s.rest with
  | some mark, _ => s.documentMark mark
  | none, [] => none
  | none, c :: r =>
    if c = '%' && s.column = 0 then none
    else if c = '[' then s.openFlow .flowSequence
    else if c = '\x7b' then s.openFlow .flowMapping
    else if c = ']' then s.closeFlow .flowSequenceEnd
    else if c = '\x7d' then s.closeFlow .flowMappingEnd
    else if c = ',' then s.flowEntry
    else if c = '-' && blankNext r then s.blockEntry
    else if c = '?' && (s.inFlow || blankNext r) then s.explicitKey
    else if c = ':' && (s.inFlow || blankNext r) then s.value
    else if c = '\'' then s.quoted (singleQuoted [] .none)
    else if c = '"' then s.quoted (doubleQuoted [] .none)
    else if !isIndicator c && !blankNext (c :: r) || c = '-' || (c = '?' || c = ':') && !s.inFlow then
      s.plain
    else none

/-- Each round takes a character at least, so their number is enough fuel. -/
def run : Nat → Scanner → Option (List Token)
  | 0, _ => none
  | fuel + 1, s =>
    ((s.skipGap false s.rest).dropStale).bind fun s =>
      if s.rest.isEmpty then (s.closeAll.forgetKey).map fun s => s.tokens.toList
      else ((s.closeBlocks s.column).next).bind (run fuel)

end Scanner

/-- The tokens of a text; `none` if some character can begin none. -/
def Token.ofText? (text : String) : Option (List Token) :=
  let chars := match text.toList with
    | '\ufeff' :: r => r
    | chars => chars
  if chars.all isPrintable then
    let chars := normalizeBreaks chars
    (Scanner.start chars).run (chars.length + 1)
  else none

end HackToolchain.Yaml
