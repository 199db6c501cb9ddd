import HackToolchain.Proofs.Machine.Execution

/-!
# What an instruction does

* `spelled?`: the value of a computation, read off its mnemonic sign by sign;
* `spelled?_mnemonic`: every computation of the machine has the value that it spells;
* `instruction_executes`: a computation that is written, encoded and decoded takes this value to
  the destinations, jumps on its sign and leaves all else.
-/

namespace HackToolchain

open Assembly (Instruction Reading)

namespace Hack

/-- The word that one sign of a computation stands for; `m` is the cell at the address in `A`. -/
def operand? (d a m : Word) : Char → Option Word
  | '0' => some 0
  | '1' => some 1
  | 'D' => some d
  | 'A' => some a
  | 'M' => some m
  | _ => none

def operator? : Char → Option (Word → Word → Word)
  | '+' => some (· + ·)
  | '-' => some (· - ·)
  | '&' => some (· &&& ·)
  | '|' => some (· ||| ·)
  | _ => none

/-- The value that a computation spells: an operand, one with a sign in front, or two with an
operator between them. -/
def spelled? (d a m : Word) : List Char → Option Word
  | [x] => operand? d a m x
  | ['-', x] => (operand? d a m x).map (- ·)
  | ['!', x] => (operand? d a m x).map (~~~ ·)
  | [x, op, y] => do return (← operator? op) (← operand? d a m x) (← operand? d a m y)
  | _ => none

/-- **Every computation has the value that it spells.** -/
theorem spelled?_mnemonic {e : String × Bits} (h : e ∈ comp.entries) (d a m : Word) :
    spelled? d a m e.1.toList = some (valueOf e.1 d a m) := by
  rw [comp_entries] at h
  simp only [List.mem_cons, List.not_mem_nil, or_false] at h
  rcases h with rfl | rfl | rfl | rfl | rfl | rfl | rfl | rfl | rfl | rfl | rfl | rfl | rfl | rfl |
    rfl | rfl | rfl | rfl | rfl | rfl | rfl | rfl | rfl | rfl | rfl | rfl | rfl | rfl
  all_goals rfl

end Hack

/-- Among the registers and cells only those that the letters of a destination name are changed,
and `M` is the cell that `A` has pointed to before. -/
theorem Core.assign_eq (c : Core) (dest : String) (out : Word) :
    (c.assign dest out).a = (if 'A' ∈ dest.toList then out else c.a) ∧
    (c.assign dest out).d = (if 'D' ∈ dest.toList then out else c.d) ∧
    ∀ x : Word, (c.assign dest out).ram.read x =
      if 'M' ∈ dest.toList ∧ c.a.toNat % ramSize = x.toNat % ramSize then out
      else c.ram.read x := by
  refine ⟨rfl, rfl, fun x => ?_⟩
  unfold Core.assign
  by_cases named : 'M' ∈ dest.toList
  · simp [named, Memory.read_write]
  · simp [named]

/-- A program counter inside the ROM does not wrap around. -/
theorem toNat_succ_of_getElem? {m : Machine} {i : Decoded} (short : m.rom.size ≤ romSize)
    (here : m.rom[m.pc.toNat]? = some i) : (m.pc + 1).toNat = m.pc.toNat + 1 := by
  obtain ⟨inside, -⟩ := Array.getElem?_eq_some_iff.1 here
  have size : romSize = 2 ^ 15 := rfl
  have one : (1 : Word).toNat = 1 := rfl
  rw [BitVec.toNat_add, one]
  omega

/-- **An instruction does what its text says.** A computation in mnemonics of the machine is read
from any of its spellings, encoded under any table, and the word is decoded. A machine with this
in its ROM at the program counter takes the value that the computation spells to the registers
and the cell that the destination names. It goes on at the address that `A` has held before if
the jump is taken on the value, and behind the instruction otherwise. Nothing else changes. -/
theorem instruction_executes {dest comp jump : String}
    (known : Known (.compute dest comp jump)) :
    (∀ text, Instruction.Spelling dest comp jump text →
      Reading.ofText text = .ok (some (.instruction (.compute dest comp jump)))) ∧
    ∃ w image,
      (∀ table, (Instruction.compute dest comp jump).encode hack table = (.ok w, table)) ∧
      Decoded.ofWord hack w = .ok image ∧
      ∀ m : Machine, m.rom.size ≤ romSize → m.rom[m.pc.toNat]? = some image →
        ∃ out next, Hack.spelled? m.d m.a (m.ram.read m.a) comp.toList = some out ∧
          m.step? = some (m.pc, image, next) ∧
          next.rom = m.rom ∧
          next.a = (if 'A' ∈ dest.toList then out else m.a) ∧
          next.d = (if 'D' ∈ dest.toList then out else m.d) ∧
          (∀ x : Word, next.ram.read x =
            if 'M' ∈ dest.toList ∧ m.a.toNat % ramSize = x.toNat % ramSize then out
            else m.ram.read x) ∧
          if Hack.taken jump out then next.pc = m.a else next.pc.toNat = m.pc.toNat + 1 := by
  have ⟨⟨x, hx⟩, ⟨y, hy⟩, ⟨z, hz⟩⟩ := known
  have word : ∀ table, ((Instruction.compute dest comp jump).encode hack table).1 =
      .ok ((⟨7, 3⟩ : Bits) ++ x ++ y ++ z) := by
    intro table
    simp only [encode_compute, hx, hy, hz]
  have encoded : ∀ table, (Instruction.compute dest comp jump).encode hack table =
      (.ok ((⟨7, 3⟩ : Bits) ++ x ++ y ++ z), table) := by
    intro table
    have nameless : (Instruction.compute dest comp jump).BoundIn table fun _ => 0 := by
      intro name named
      cases named
    rw [Instruction.encode_of_bound nameless (t := table)]
    exact Prod.ext (word table) rfl
  obtain ⟨-, -, decoded⟩ := ofWord_encoded (word (.ofDescriptor hack)) rfl
  refine ⟨fun text => Assembly.reading_spelling (Hack.plain_of_codes hx hy hz).1, _, _, encoded,
    decoded, ?_⟩
  intro m short here
  let core : Core := ⟨m.ram, m.a, m.d⟩
  let after := (core.assign dest (core.value comp)).machine m.rom
    (core.next m.pc (.compute dest comp jump))
  obtain ⟨a, d, ram⟩ := core.assign_eq dest (core.value comp)
  have done : m.execute (imageOf (.compute dest comp jump)) = after :=
    execute_image (σ := fun _ => 0) known core m.rom m.pc
  refine ⟨core.value comp, after, Hack.spelled?_mnemonic (TwoWay.code?_eq_some_iff.1 hx) .., ?_,
    rfl, a, d, ram, ?_⟩
  · simp only [Machine.step?, here, done]
  · have next : core.next m.pc (.compute dest comp jump) =
        if Hack.taken jump (core.value comp) then m.a else m.pc + 1 := rfl
    split
    · rename_i taken
      exact next.trans (if_pos taken)
    · rename_i waits
      rw [← toNat_succ_of_getElem? short here]
      exact congrArg BitVec.toNat (next.trans (if_neg waits))

/-- The cell at the address that `A` has held, which wraps around, takes the value too. -/
theorem instruction_executes_wrapping :
    Reading.ofText "AMD=D-M;JLT" = .ok (some (.instruction (.compute "AMD" "D-M" "JLT"))) ∧
    ∃ image next,
      (⟨#[image], Memory.zero.write 2 3, 32770, 1, 0⟩ : Machine).step? = some (0, image, next) ∧
      next.a = -2 ∧ next.d = -2 ∧ next.ram.read 2 = -2 ∧ next.pc = 32770 := by
  have known : Known (.compute "AMD" "D-M" "JLT") :=
    ⟨⟨⟨0x53, 7⟩, by decide +kernel⟩, ⟨⟨7, 3⟩, by decide +kernel⟩, ⟨4, 3⟩, by decide +kernel⟩
  obtain ⟨reads, w, image, -, -, runs⟩ := instruction_executes known
  refine ⟨reads _ ⟨"AMD=", ";JLT", rfl, .inl rfl, .inl rfl⟩, image, ?_⟩
  obtain ⟨out, next, spelled, step, -, a, d, ram, pc⟩ :=
    runs ⟨#[image], Memory.zero.write 2 3, 32770, 1, 0⟩ (show 1 ≤ romSize by decide) rfl
  have cell : (Memory.zero.write 2 3).read 32770 = 3 := by rw [Memory.read_write]; rfl
  obtain rfl : -2 = out := by
    simp only [cell] at spelled
    exact Option.some.inj spelled
  have same : (32770 : Word).toNat % ramSize = (2 : Word).toNat % ramSize := by decide
  refine ⟨next, step, a, d, (ram 2).trans ?_, ?_⟩
  · exact if_pos ⟨by decide, same⟩
  · rwa [if_pos (by decide)] at pc

end HackToolchain
