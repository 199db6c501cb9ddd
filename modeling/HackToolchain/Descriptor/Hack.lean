import HackToolchain.Descriptor

/-!
# The Hack machine
-/

namespace HackToolchain

namespace Hack

/-- The lowest address of the stack. -/
def stackBase : Nat := 256

/-- The `temp` segment is eight cells from here on. -/
def tempBase : Nat := 5

def tempSize : Nat := 8

/-- Memory cells with a fixed part in the calling convention. -/
inductive Cell
  | sp | lcl | arg | this | that | r13 | r14
  deriving DecidableEq, Repr

namespace Cell

def name : Cell → String
  | sp => "SP"
  | lcl => "LCL"
  | arg => "ARG"
  | this => "THIS"
  | that => "THAT"
  | r13 => "R13"
  | r14 => "R14"

def address : Cell → Nat
  | sp => 0
  | lcl => 1
  | arg => 2
  | this => 3
  | that => 4
  | r13 => 13
  | r14 => 14

end Cell

def codes (entries : List (String × String)) : TwoWay String Bits :=
  .ofList (entries.map fun p => (p.1, .literal p.2))

def comp : TwoWay String Bits := codes
  [("0", "0101010"), ("1", "0111111"), ("-1", "0111010"),
   ("D", "0001100"), ("A", "0110000"), ("!D", "0001101"), ("!A", "0110001"),
   ("-D", "0001111"), ("-A", "0110011"), ("D+1", "0011111"), ("A+1", "0110111"),
   ("D-1", "0001110"), ("A-1", "0110010"), ("D+A", "0000010"), ("D-A", "0010011"),
   ("A-D", "0000111"), ("D&A", "0000000"), ("D|A", "0010101"),
   ("M", "1110000"), ("!M", "1110001"), ("-M", "1110011"), ("M+1", "1110111"),
   ("M-1", "1110010"), ("D+M", "1000010"), ("D-M", "1010011"), ("M-D", "1000111"),
   ("D&M", "1000000"), ("D|M", "1010101")]

def dest : TwoWay String Bits := codes
  [("null", "000"), ("M", "001"), ("D", "010"), ("MD", "011"),
   ("A", "100"), ("AM", "101"), ("AD", "110"), ("AMD", "111")]

def jump : TwoWay String Bits := codes
  [("null", "000"), ("JGT", "001"), ("JEQ", "010"), ("JGE", "011"),
   ("JLT", "100"), ("JNE", "101"), ("JLE", "110"), ("JMP", "111")]

def symbols : Table String Nat := .ofList
  [("SP", 0), ("LCL", 1), ("ARG", 2), ("THIS", 3), ("THAT", 4),
   ("R0", 0), ("R1", 1), ("R2", 2), ("R3", 3), ("R4", 4), ("R5", 5), ("R6", 6), ("R7", 7),
   ("R8", 8), ("R9", 9), ("R10", 10), ("R11", 11), ("R12", 12), ("R13", 13), ("R14", 14),
   ("R15", 15), ("SCREEN", 16384), ("KBD", 24576)]

end Hack

/-- Sixteen-bit words: a clear top bit and a 15-bit value, or `111` and the three codes. -/
def hack : Descriptor where
  name := "hack"
  wordSize := 16
  opcodes := .ofList [(.address, .literal "0"), (.compute, .literal "111")]
  layouts := .ofList
    [(.address, ⟨[(.opcode, 1), (.value, 15)]⟩),
     (.compute, ⟨[(.opcode, 3), (.comp, 7), (.dest, 3), (.jump, 3)]⟩)]
  comp := Hack.comp
  dest := Hack.dest
  jump := Hack.jump
  symbols := Hack.symbols
  varBase := 16

end HackToolchain
