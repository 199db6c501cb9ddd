import HackToolchain.Descriptor
import HackToolchain.Text.Style

/-!
# Decoded words

A word is cut into the fields of its shape's layout. A decoded word has a text in assembly
notation, read off the code tables from the code side.
-/

namespace HackToolchain

/-- The slices of a word from a bit offset on, one for each field. -/
def cutFrom (word : Bits) (offset : Nat) : List (Field × Nat) → List (Field × Bits)
  | [] => []
  | (f, width) :: r => (f, word.slice offset width) :: cutFrom word (offset + width) r

def Layout.cut (l : Layout) (word : Bits) : List (Field × Bits) :=
  cutFrom word 0 l.fields

/-- The slice of the last such field. -/
def lastSlice? (slices : List (Field × Bits)) (f : Field) : Option Bits :=
  slices.reverse.lookup f

inductive Decoded
  | address (value : BitVec 32)
  | compute (comp dest jump : Bits)
  deriving DecidableEq, Repr, Inhabited

inductive DecodeError
  /-- No opcode fits, or the layout lacks a field. -/
  | undefined
  | uncountableLayout
  deriving DecidableEq, Repr

namespace Decoded

def ofSlices? (slices : List (Field × Bits)) : Shape → Option Decoded
  | .address => (lastSlice? slices .value).map fun v => address (v.val.setWidth 32)
  | .compute =>
    match lastSlice? slices .comp, lastSlice? slices .dest, lastSlice? slices .jump with
    | some c, some d, some j => some (compute c d j)
    | _, _, _ => none

def ofWord (d : Descriptor) (word : Bits) : Except DecodeError Decoded :=
  match d.shapeOf? word with
  | none => .error .undefined
  | some shape =>
    match d.layout? shape with
    | none => .error .undefined
    | some layout =>
      if !layout.countable then .error .uncountableLayout
      else
        match ofSlices? (layout.cut word) shape with
        | none => .error .undefined
        | some i => .ok i

/-- A code that is in no table prints as `?`. -/
def nameOf (codes : TwoWay String Bits) (code : Bits) : String :=
  (codes.name? code).getD "?"

/-- A destination or jump named `null` is left out. -/
def text (d : Descriptor) : Decoded → String
  | address value => "@" ++ toString value.toNat
  | compute comp dest jump =>
    let dest := nameOf d.dest dest
    let jump := nameOf d.jump jump
    (if dest = "null" then "" else dest ++ "=") ++ nameOf d.comp comp ++
      (if jump = "null" then "" else ";" ++ jump)

def styled (d : Descriptor) (i : Decoded) : String :=
  match i with
  | address _ => Style.paint [.yellow] (i.text d)
  | compute .. => Style.paint [.red] (i.text d)

end Decoded

end HackToolchain
