import HackToolchain.Text

/-!
# Bit patterns

A pattern has a value and a width, most significant bit first. Patterns are written as
strings of `0` and `1`, appended, and cut into slices.
-/

namespace HackToolchain

/-- The value keeps the low 64 bits of a longer pattern; the width counts all of them. -/
structure Bits where
  val : BitVec 64
  width : Nat
  deriving DecidableEq, Repr, Inhabited

/-- A text that is no bit pattern. -/
structure MalformedBits where
  text : String
  deriving DecidableEq, Repr

def MalformedBits.message (e : MalformedBits) : String :=
  "Cannot parse `" ++ e.text ++ "` as bit pattern"

namespace Bits

def empty : Bits := ⟨0, 0⟩

/-- The least width that holds the value. -/
def bitLength (v : BitVec 64) : Nat :=
  if v = 0 then 0 else v.toNat.log2 + 1

/-- A value in at least `width` bits. One too large for them keeps all of its bits, so the
pattern comes out wider. -/
def ofVal (v : BitVec 64) (width : Nat) : Bits :=
  ⟨v, max width (bitLength v)⟩

/-- Widths are cut to 32 bits before they shift; by 64 places nothing is left. -/
def shiftAmount (width : Nat) : Nat :=
  min (width % UInt32.size) 64

/-- `tail` follows the least significant bit of `b`. -/
def append (b tail : Bits) : Bits :=
  ⟨b.val <<< shiftAmount tail.width ||| tail.val, b.width + tail.width⟩

instance : Append Bits := ⟨append⟩

/-- The lowest `width` bits set. -/
def lowMask (width : Nat) : BitVec 64 :=
  BitVec.allOnes 64 >>> (64 - shiftAmount width)

/-- `width` bits from `offset` bits below the most significant end. -/
def slice (b : Bits) (offset width : Nat) : Bits :=
  ⟨(b.val >>> shiftAmount (b.width - (offset + width))) &&& lowMask width, width⟩

/-- The leading bits of `b` are `p`. -/
def startsWith (b p : Bits) : Bool :=
  p.width ≤ b.width && b.slice 0 p.width = p

/-- The lowest `n` bits of a value, from the highest of them down. -/
def digits (v : BitVec 64) (n : Nat) : List Char :=
  (List.range n).reverse.map fun i => if v.getLsbD i then '1' else '0'

/-- Binary digits, as many as the width or more if the value needs them. -/
def toChars (b : Bits) : List Char :=
  if b.width = 0 then [] else digits b.val (max b.width (bitLength b.val))

def toString (b : Bits) : String :=
  String.ofList b.toChars

/-- A character fills as many bits as it has bytes; the last is set for `1` only. -/
def pushChar (b : Bits) (c : Char) : Bits :=
  ⟨b.val <<< c.utf8Size ||| (if c = '1' then 1 else 0), b.width + c.utf8Size⟩

/-- A pattern taken from a table: whatever is not `1` counts as zero. -/
def literal (s : String) : Bits :=
  s.toList.foldl pushChar empty

/-- At most 64 characters, each `0` or `1`. -/
def parse (s : String) : Except MalformedBits Bits :=
  if s.toList.length ≤ 64 && s.toList.all (fun c => c = '0' || c = '1') then .ok (literal s)
  else .error ⟨s⟩

end Bits

end HackToolchain
