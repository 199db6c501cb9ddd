import HackToolchain.Yaml.Token

/-!
# YAML documents

A document is a tree of scalars, sequences and mappings. Typed reading follows the form of
a scalar: a number or a truth value has to be plain, any scalar is a string, and an empty
plain scalar stands for an empty collection.
-/

namespace HackToolchain.Yaml

inductive Node
  | scalar (plain : Bool) (text : String)
  | sequence (items : List Node)
  | mapping (entries : List (Node × Node))
  deriving Repr, Inhabited

namespace Node

/-- What is read where nothing is written. -/
def empty : Node := scalar true ""

def afterComma : List Token → Option (List Token)
  | .flowEntry :: ts => some ts
  | _ => none

mutual

/-- A node and the tokens after it. In a block mapping a sequence needs no indentation. -/
def ofTokens (fuel : Nat) (inBlock inMapping : Bool) (ts : List Token) : Option (Node × List Token) :=
  match fuel, ts with
  | 0, _ => none
  | _, .scalar plain text :: ts => some (scalar plain text, ts)
  | fuel + 1, .flowSequence :: ts =>
    (flowItems fuel #[] true ts).map fun (items, ts) => (sequence items, ts)
  | fuel + 1, .flowMapping :: ts =>
    (flowEntries fuel #[] true ts).map fun (entries, ts) => (mapping entries, ts)
  | fuel + 1, .blockSequence :: ts =>
    if inBlock then (blockItems fuel #[] ts).map fun (items, ts) => (sequence items, ts) else none
  | fuel + 1, .blockMapping :: ts =>
    if inBlock then (blockEntries fuel #[] ts).map fun (entries, ts) => (mapping entries, ts)
    else none
  | fuel + 1, .blockEntry :: ts =>
    if inMapping then (looseItems fuel #[] (.blockEntry :: ts)).map fun (items, ts) => (sequence items, ts)
    else none
  | _, _ => none

def blockItems (fuel : Nat) (items : Array Node) (ts : List Token) : Option (List Node × List Token) :=
  match fuel, ts with
  | 0, _ => none
  | _, .blockEnd :: ts => some (items.toList, ts)
  | fuel + 1, .blockEntry :: ts =>
    match ts with
    | .blockEntry :: _ | .blockEnd :: _ => blockItems fuel (items.push empty) ts
    | ts => (ofTokens fuel true false ts).bind fun (item, ts) => blockItems fuel (items.push item) ts
  | _, _ => none

/-- The items of a sequence that stands at the indentation of its mapping. -/
def looseItems (fuel : Nat) (items : Array Node) (ts : List Token) : Option (List Node × List Token) :=
  match fuel, ts with
  | 0, _ => none
  | fuel + 1, .blockEntry :: ts =>
    match ts with
    | .blockEntry :: _ | .key :: _ | .value :: _ | .blockEnd :: _ =>
      looseItems fuel (items.push empty) ts
    | ts => (ofTokens fuel true false ts).bind fun (item, ts) => looseItems fuel (items.push item) ts
  | _, ts => some (items.toList, ts)

def blockEntries (fuel : Nat) (entries : Array (Node × Node)) (ts : List Token) :
    Option (List (Node × Node) × List Token) :=
  match fuel, ts with
  | 0, _ => none
  | _, .blockEnd :: ts => some (entries.toList, ts)
  | fuel + 1, .key :: ts =>
    (blockPart fuel ts).bind fun (k, ts) =>
      match ts with
      | .value :: ts =>
        (blockPart fuel ts).bind fun (v, ts) => blockEntries fuel (entries.push (k, v)) ts
      | ts => blockEntries fuel (entries.push (k, empty)) ts
  | _, _ => none

/-- A key or a value of a block mapping, which may be missing. -/
def blockPart (fuel : Nat) (ts : List Token) : Option (Node × List Token) :=
  match fuel, ts with
  | 0, _ => none
  | _, .key :: _ | _, .value :: _ | _, .blockEnd :: _ => some (empty, ts)
  | fuel + 1, ts => ofTokens fuel true true ts

/-- `first` holds until the first item; a later one comes after a comma. A pair among the
items is a mapping of its own. -/
def flowItems (fuel : Nat) (items : Array Node) (first : Bool) (ts : List Token) :
    Option (List Node × List Token) :=
  match fuel, ts with
  | 0, _ => none
  | _, .flowSequenceEnd :: ts => some (items.toList, ts)
  | fuel + 1, ts =>
    match (if first then some ts else afterComma ts) with
    | none => none
    | some (.flowSequenceEnd :: ts) => some (items.toList, ts)
    | some (.key :: ts) =>
      (flowPart fuel ts).bind fun (k, ts) =>
        (flowValue fuel ts).bind fun (v, ts) => flowItems fuel (items.push (mapping [(k, v)])) false ts
    | some ts =>
      (ofTokens fuel false false ts).bind fun (item, ts) => flowItems fuel (items.push item) false ts

def flowEntries (fuel : Nat) (entries : Array (Node × Node)) (first : Bool) (ts : List Token) :
    Option (List (Node × Node) × List Token) :=
  match fuel, ts with
  | 0, _ => none
  | _, .flowMappingEnd :: ts => some (entries.toList, ts)
  | fuel + 1, ts =>
    match (if first then some ts else afterComma ts) with
    | none => none
    | some (.flowMappingEnd :: ts) => some (entries.toList, ts)
    | some (.key :: ts) =>
      (flowPart fuel ts).bind fun (k, ts) =>
        (flowValue fuel ts).bind fun (v, ts) => flowEntries fuel (entries.push (k, v)) false ts
    | some ts =>
      (ofTokens fuel false false ts).bind fun (k, ts) =>
        flowEntries fuel (entries.push (k, empty)) false ts

/-- A key or a value in a flow collection, which may be missing. -/
def flowPart (fuel : Nat) (ts : List Token) : Option (Node × List Token) :=
  match fuel, ts with
  | 0, _ => none
  | _, .value :: _ | _, .flowEntry :: _ | _, .flowMappingEnd :: _ | _, .flowSequenceEnd :: _ =>
    some (empty, ts)
  | fuel + 1, ts => ofTokens fuel false false ts

def flowValue (fuel : Nat) (ts : List Token) : Option (Node × List Token) :=
  match fuel, ts with
  | 0, _ => none
  | fuel + 1, .value :: ts => flowPart fuel ts
  | _, ts => some (empty, ts)

end

/-- The single document of a stream; an empty stream holds an empty node. -/
def ofDocument? (ts : List Token) : Option Node :=
  let fuel := 2 * ts.length + 2
  let body := ts.dropWhile (· = .documentEnd)
  let body := match body with
    | .documentStart :: rest => rest
    | rest => rest
  let parsed := match body with
    | [] | .documentEnd :: _ => some (empty, body)
    | body => ofTokens fuel true false body
  parsed.bind fun (node, rest) => if rest.all (· = .documentEnd) then some node else none

def ofText? (text : String) : Option Node :=
  (Token.ofText? text).bind ofDocument?

/-! ## Typed reading -/

def string? : Node → Option String
  | scalar _ text => some text
  | _ => none

/-- Digits of a base, most significant first. -/
def digits? (base : Nat) (s : List Char) : Option Nat :=
  if s.isEmpty then none
  else
    s.foldl (fun n c => n.bind fun n => (hexDigit? c).bind fun d =>
      if d < base then some (base * n + d) else none) (some 0)

/-- A number without sign or after a plus, in base 10, 16, 8 or 2. Decimal digits after a
leading zero are no number. -/
def natOf? (s : List Char) : Option Nat :=
  let s := match s with
    | '+' :: r => r
    | s => s
  match s with
  | '0' :: 'x' :: r => digits? 16 r
  | '0' :: 'o' :: r => digits? 8 r
  | '0' :: 'b' :: r => digits? 2 r
  | '0' :: _ :: _ => none
  | s => digits? 10 s

/-- A plain number below the bound. -/
def nat? (bound : Nat) : Node → Option Nat
  | scalar true text => (natOf? text.toList).filter (· < bound)
  | _ => none

def bool? : Node → Option Bool
  | scalar true text =>
    if text = "true" || text = "True" || text = "TRUE" then some true
    else if text = "false" || text = "False" || text = "FALSE" then some false
    else none
  | _ => none

def items? : Node → Option (List Node)
  | sequence items => some items
  | scalar true "" => some []
  | _ => none

def entries? : Node → Option (List (Node × Node))
  | mapping entries => some entries
  | scalar true "" => some []
  | _ => none

def listOf? {α : Type} (read : Node → Option α) (n : Node) : Option (List α) :=
  n.items?.bind (·.mapM read)

def pairsOf? {κ υ : Type} (readKey : Node → Option κ) (readValue : Node → Option υ) (n : Node) :
    Option (List (κ × υ)) :=
  n.entries?.bind (·.mapM fun (k, v) => (readKey k).bind fun k => (readValue v).map (k, ·))

/-- The members of a record. Other members are passed over; one of the given names may not
be repeated. -/
def members? (names : List String) (n : Node) : Option (List (String × Node)) :=
  (n.pairsOf? string? some).bind fun members =>
    let known := (members.map Prod.fst).filter fun name => names.contains name
    if known.length = known.eraseDups.length then some members else none

end Node

end HackToolchain.Yaml
