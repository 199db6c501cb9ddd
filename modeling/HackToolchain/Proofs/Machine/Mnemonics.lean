import HackToolchain.Machine
import HackToolchain.Proofs.Assembly.Printing

/-!
# What mnemonics mean

The code tables against the arithmetic unit: a computation gives the value that its mnemonic
spells out, a destination takes it into the registers and the cell that its letters name, and
a jump is taken on the sign that its mnemonic names. All of them can be printed and read back.
-/

namespace HackToolchain.Hack

/-- The words that computations stand for, from `D`, `A` and the cell `M`. -/
def computations : List (String × (Word → Word → Word → Word)) :=
  [("0", fun _ _ _ => 0), ("1", fun _ _ _ => 1), ("-1", fun _ _ _ => -1),
   ("D", fun d _ _ => d), ("A", fun _ a _ => a), ("M", fun _ _ m => m),
   ("!D", fun d _ _ => ~~~d), ("!A", fun _ a _ => ~~~a), ("!M", fun _ _ m => ~~~m),
   ("-D", fun d _ _ => -d), ("-A", fun _ a _ => -a), ("-M", fun _ _ m => -m),
   ("D+1", fun d _ _ => d + 1), ("A+1", fun _ a _ => a + 1), ("M+1", fun _ _ m => m + 1),
   ("D-1", fun d _ _ => d - 1), ("A-1", fun _ a _ => a - 1), ("M-1", fun _ _ m => m - 1),
   ("D+A", fun d a _ => d + a), ("D+M", fun d _ m => d + m),
   ("D-A", fun d a _ => d - a), ("D-M", fun d _ m => d - m),
   ("A-D", fun d a _ => a - d), ("M-D", fun d _ m => m - d),
   ("D&A", fun d a _ => d &&& a), ("D&M", fun d _ m => d &&& m),
   ("D|A", fun d a _ => d ||| a), ("D|M", fun d _ m => d ||| m)]

def valueOf (comp : String) : Word → Word → Word → Word :=
  (computations.lookup comp).getD fun _ _ _ => 0

/-- The signs on which jumps are taken. -/
def conditions : List (String × (Int → Bool)) :=
  [("null", fun _ => false), ("JGT", (0 < ·)), ("JEQ", (· = 0)), ("JGE", (0 ≤ ·)),
   ("JLT", (· < 0)), ("JNE", (· ≠ 0)), ("JLE", (· ≤ 0)), ("JMP", fun _ => true)]

def taken (jump : String) (out : Word) : Bool :=
  ((conditions.lookup jump).getD fun _ => false) out.toInt

theorem comp_entries : comp.entries =
    [("0", ⟨0x2A, 7⟩), ("1", ⟨0x3F, 7⟩), ("-1", ⟨0x3A, 7⟩), ("D", ⟨0x0C, 7⟩), ("A", ⟨0x30, 7⟩),
     ("!D", ⟨0x0D, 7⟩), ("!A", ⟨0x31, 7⟩), ("-D", ⟨0x0F, 7⟩), ("-A", ⟨0x33, 7⟩),
     ("D+1", ⟨0x1F, 7⟩), ("A+1", ⟨0x37, 7⟩), ("D-1", ⟨0x0E, 7⟩), ("A-1", ⟨0x32, 7⟩),
     ("D+A", ⟨0x02, 7⟩), ("D-A", ⟨0x13, 7⟩), ("A-D", ⟨0x07, 7⟩), ("D&A", ⟨0x00, 7⟩),
     ("D|A", ⟨0x15, 7⟩), ("M", ⟨0x70, 7⟩), ("!M", ⟨0x71, 7⟩), ("-M", ⟨0x73, 7⟩),
     ("M+1", ⟨0x77, 7⟩), ("M-1", ⟨0x72, 7⟩), ("D+M", ⟨0x42, 7⟩), ("D-M", ⟨0x53, 7⟩),
     ("M-D", ⟨0x47, 7⟩), ("D&M", ⟨0x40, 7⟩), ("D|M", ⟨0x55, 7⟩)] := by
  decide +kernel

/-- The result of the unit, with `M` in the place of `A` when the top bit of the code says
so. -/
def resultOf (code : Bits) (d a m : Word) : Word :=
  Alu.eval (code.val.setWidth 6) d (if code.val.getLsbD 6 then m else a)

theorem resultOf_eq {e : String × Bits} (h : e ∈ comp.entries) (d a m : Word) :
    resultOf e.2 d a m = valueOf e.1 d a m := by
  have sum : ∀ x y : Word, ~~~(~~~x + y) = x - y := fun x y => by bv_omega
  have or : ∀ x y : Word, ~~~(~~~x &&& ~~~y) = x ||| y := fun x y => by
    ext i hi
    simp
  have ones : ∀ x : Word, x &&& 65535#16 = x := fun x => BitVec.and_allOnes
  have ones' : ∀ x : Word, 65535#16 &&& x = x := fun x => BitVec.allOnes_and
  rw [comp_entries] at h
  simp only [List.mem_cons, List.not_mem_nil, or_false] at h
  rcases h with rfl | rfl | rfl | rfl | rfl | rfl | rfl | rfl | rfl | rfl | rfl | rfl | rfl | rfl |
    rfl | rfl | rfl | rfl | rfl | rfl | rfl | rfl | rfl | rfl | rfl | rfl | rfl | rfl
  all_goals simp [resultOf, Alu.eval, Alu.operand, valueOf, computations, List.lookup_cons, sum, or,
    ones, ones']
  -- The sums with a constant are left, where the words wrap around.
  all_goals bv_omega

theorem dest_entries : dest.entries =
    [("null", ⟨0, 3⟩), ("M", ⟨1, 3⟩), ("D", ⟨2, 3⟩), ("MD", ⟨3, 3⟩), ("A", ⟨4, 3⟩), ("AM", ⟨5, 3⟩),
     ("AD", ⟨6, 3⟩), ("AMD", ⟨7, 3⟩)] := by
  decide +kernel

/-- The three bits of a destination are its letters. -/
theorem dest_letters {e : String × Bits} (h : e ∈ dest.entries) :
    e.2.val.getLsbD 0 = decide ('M' ∈ e.1.toList) ∧
    e.2.val.getLsbD 1 = decide ('D' ∈ e.1.toList) ∧
      e.2.val.getLsbD 2 = decide ('A' ∈ e.1.toList) := by
  revert e
  rw [dest_entries]
  decide

theorem jump_entries : jump.entries =
    [("null", ⟨0, 3⟩), ("JGT", ⟨1, 3⟩), ("JEQ", ⟨2, 3⟩), ("JGE", ⟨3, 3⟩), ("JLT", ⟨4, 3⟩),
     ("JNE", ⟨5, 3⟩), ("JLE", ⟨6, 3⟩), ("JMP", ⟨7, 3⟩)] := by
  decide +kernel

theorem jumps_eq {e : String × Bits} (h : e ∈ jump.entries) (out : Word) :
    Alu.jumps (e.2.val.setWidth 3) out = taken e.1 out := by
  rw [jump_entries] at h
  simp only [List.mem_cons, List.not_mem_nil, or_false] at h
  rcases h with rfl | rfl | rfl | rfl | rfl | rfl | rfl | rfl
  all_goals simp [Alu.jumps, taken, conditions, List.lookup_cons]
  -- The jumps on two signs, and on any.
  · rw [Bool.eq_iff_iff, Bool.or_eq_true, decide_eq_true_iff, decide_eq_true_iff, decide_eq_true_iff]
    omega
  · rw [Bool.eq_iff_iff, Bool.or_eq_true, Bool.not_eq_true', decide_eq_true_iff,
      decide_eq_true_iff, decide_eq_false_iff_not]
    omega
  · rw [Bool.eq_iff_iff, Bool.or_eq_true, decide_eq_true_iff, decide_eq_true_iff, decide_eq_true_iff]
    omega
  · omega

/-- A mnemonic that the reader takes for nothing else, and that is not the sign of an unknown
code. -/
def isPrintable (m : String) : Bool := Assembly.isMnemonic m && m ≠ "" && '?' ∉ m.toList

theorem mnemonics_printable :
    (∀ e ∈ hack.comp.entries, isPrintable e.1) ∧ (∀ e ∈ hack.dest.entries, isPrintable e.1) ∧
      ∀ e ∈ hack.jump.entries, isPrintable e.1 := by
  decide +kernel

theorem isPrintable_iff {m : String} :
    isPrintable m = true ↔ Assembly.isMnemonic m = true ∧ m ≠ "" ∧ '?' ∉ m.toList := by
  simp [isPrintable, and_assoc]

/-- A computation in mnemonics of the machine is printed plainly. -/
theorem plain_of_codes {dest comp jump : String} {c d j : Bits} (hc : hack.comp.code? comp = some c)
    (hd : hack.dest.code? dest = some d) (hj : hack.jump.code? jump = some j) :
    (Assembly.Instruction.compute dest comp jump).Plain ∧
      '?' ∉ (Assembly.Instruction.compute dest comp jump).text.toList := by
  obtain ⟨comps, dests, jumps⟩ := mnemonics_printable
  obtain ⟨plainComp, someComp, comp⟩ := isPrintable_iff.1 (comps _ (TwoWay.code?_eq_some_iff.1 hc))
  obtain ⟨plainDest, -, dest⟩ := isPrintable_iff.1 (dests _ (TwoWay.code?_eq_some_iff.1 hd))
  obtain ⟨plainJump, -, jump⟩ := isPrintable_iff.1 (jumps _ (TwoWay.code?_eq_some_iff.1 hj))
  refine ⟨⟨plainDest, plainComp, plainJump, someComp⟩, fun h => ?_⟩
  rcases Assembly.mem_spelling (Assembly.spelling_text _ _ _) h with h | h | h | h | h
  · exact dest h
  · exact comp h
  · exact jump h
  · cases h
  · cases h

end HackToolchain.Hack
