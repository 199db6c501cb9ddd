import HackToolchain.Alu
import HackToolchain.Decoded
import HackToolchain.Descriptor.Hack

/-!
# The machine

Instructions are read from ROM; words are kept in RAM, whose addresses wrap around, and in
the registers `A`, `D` and the program counter. A program counter past the last instruction
halts the machine.
-/

namespace HackToolchain

def ramSize : Nat := 0x8000

def romSize : Nat := 0x8000

theorem ramSize_pos : 0 < ramSize := by decide

abbrev Memory := Vector Word ramSize

namespace Memory

def zero : Memory := Vector.replicate ramSize 0

def read (m : Memory) (address : Word) : Word :=
  m.get ⟨address.toNat % ramSize, Nat.mod_lt _ ramSize_pos⟩

def write (m : Memory) (address value : Word) : Memory :=
  m.set (address.toNat % ramSize) value (Nat.mod_lt _ ramSize_pos)

/-- Two addresses are the same cell when they differ by a multiple of the size. -/
theorem read_write (m : Memory) (address value other : Word) :
    (m.write address value).read other =
      if address.toNat % ramSize = other.toNat % ramSize then value else m.read other :=
  Vector.getElem_set _ _

end Memory

structure Machine where
  rom : Array Decoded
  ram : Memory
  a : Word
  d : Word
  pc : Word

inductive LoadError
  | malformed (number : Nat) (bits : MalformedBits)
  | undefined (number : Nat) (line : String)
  | tooLong (words : Nat)
  /-- A layout of the descriptor is too wide to cut a word by. -/
  | uncountableLayout
  deriving DecidableEq, Repr

def LoadError.message : LoadError → String
  | malformed number bits => "line " ++ toString number ++ ": " ++ bits.message
  | undefined number line => "line " ++ toString number ++ ": `" ++ line ++ "` is not an instruction"
  | tooLong words => "Program of " ++ toString words ++ " words does not fit in ROM"
  | uncountableLayout => "Layout is too wide to count"

namespace Machine

def initial : Machine := ⟨#[], Memory.zero, 0, 0, 0⟩

instance : Inhabited Machine := ⟨initial⟩

def halted (m : Machine) : Bool := m.rom.size ≤ m.pc.toNat

/-- The words from the stack base up to the stack pointer. -/
def stack (m : Machine) : List Word :=
  let top := min (max (m.ram.read 0).toNat Hack.stackBase) ramSize
  (m.ram.toArray.extract Hack.stackBase top).toList

/-- The instruction in a line that is not blank. -/
def decodeLine (d : Descriptor) (number : Nat) (line : List Char) : Except LoadError Decoded :=
  match Bits.parse (String.ofList line) with
  | .error e => .error (.malformed number e)
  | .ok word =>
    match Decoded.ofWord d word with
    | .ok i => .ok i
    | .error .undefined => .error (.undefined number (String.ofList line))
    | .error .uncountableLayout => .error .uncountableLayout

/-- Blank lines are skipped but counted. -/
def decodeLines (d : Descriptor) (done : Array Decoded) :
    List (List Char × Nat) → Except LoadError (Array Decoded)
  | [] => .ok done
  | (raw, index) :: rest =>
    let line := Text.trim raw
    if line.isEmpty then decodeLines d done rest
    else
      match decodeLine d (index + 1) line with
      | .error e => .error e
      | .ok i => decodeLines d (done.push i) rest

def decodeText (d : Descriptor) (text : String) : Except LoadError (Array Decoded) :=
  match decodeLines d #[] (Text.lines text.toList).zipIdx with
  | .error e => .error e
  | .ok rom => if rom.size ≤ romSize then .ok rom else .error (.tooLong rom.size)

/-- A program of one bit string a line. Memory and registers stay, but for the program
counter; after an error everything does. -/
def load (m : Machine) (d : Descriptor) (text : String) : Except LoadError Machine :=
  (decodeText d text).map fun rom => { m with rom, pc := 0 }

/-- `M` and a jump use the address that was in `A` before the instruction. -/
def execute (m : Machine) : Decoded → Machine
  | .address value => { m with a := value.setWidth 16, pc := m.pc + 1 }
  | .compute comp dest jump =>
    let ⟨rom, ram, a, d, pc⟩ := m
    let y := if comp.val.getLsbD 6 then ram.read a else a
    let out := Alu.eval (comp.val.setWidth 6) d y
    { rom
      ram := if dest.val.getLsbD 0 then ram.write a out else ram
      d := if dest.val.getLsbD 1 then out else d
      a := if dest.val.getLsbD 2 then out else a
      pc := if Alu.jumps (jump.val.setWidth 3) out then a else pc + 1 }

/-- One step: the address and the instruction there, and the machine after it. -/
def step? (m : Machine) : Option (Word × Decoded × Machine) :=
  match m.rom[m.pc.toNat]? with
  | none => none
  | some i => some (m.pc, i, m.execute i)

def runFrom (taken : Nat) : Nat → Machine → Nat × Machine
  | 0, m => (taken, m)
  | limit + 1, m =>
    match m.rom[m.pc.toNat]? with
    | none => (taken, m)
    | some i => runFrom (taken + 1) limit (m.execute i)

/-- Runs until the machine halts or has taken `limit` steps; gives their number. -/
def run (limit : Nat) (m : Machine) : Nat × Machine :=
  runFrom 0 limit m

theorem step?_eq_none_iff {m : Machine} : m.step? = none ↔ m.halted = true := by
  unfold step? halted
  cases h : m.rom[m.pc.toNat]? with
  | none => simp [Array.getElem?_eq_none_iff.1 h]
  | some i =>
    obtain ⟨inside, _⟩ := Array.getElem?_eq_some_iff.1 h
    simp [inside]

/-- Steps that were taken before are only added to the number. -/
theorem runFrom_eq (taken limit : Nat) (m : Machine) :
    runFrom taken limit m = (taken + (run limit m).1, (run limit m).2) := by
  unfold run
  induction limit generalizing taken m with
  | zero => rfl
  | succ limit ih =>
    simp only [runFrom]
    split
    · rfl
    · rw [ih (taken + 1), ih (0 + 1)]
      simp [Nat.add_assoc]

theorem run_zero (m : Machine) : run 0 m = (0, m) := rfl

theorem run_succ (limit : Nat) (m : Machine) :
    run (limit + 1) m =
      match m.step? with
      | none => (0, m)
      | some (_, _, next) => ((run limit next).1 + 1, (run limit next).2) := by
  rw [run, runFrom, step?]
  cases m.rom[m.pc.toNat]? with
  | none => rfl
  | some i =>
    dsimp only
    rw [runFrom_eq, Nat.zero_add, Nat.add_comm 1]

end Machine

end HackToolchain
