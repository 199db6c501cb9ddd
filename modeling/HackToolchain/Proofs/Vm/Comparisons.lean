import HackToolchain.Proofs.Vm.CallReturn

/-!
# Comparisons

* `sign_of_overflow`: a difference that is no word lies on the wrong side of zero;
* `Operator.effect_eq`: so `lt` and `gt` answer for the numbers in exchange there;
* `comparison_decides`: what the code of a comparison leaves on the stack of a loaded program;
* `lt_says_far_above_is_below`: numbers so far apart are met by a program of four commands.
-/

namespace HackToolchain

open Hack (Cell)

namespace Vm

open Assembly (Program)
open CommandLine (SourceUnit)
open Machine (Reaches)
open Expansion

/-! ## Differences that wrap around -/

/-- A difference that is no word has wrapped around to the other side of zero. -/
theorem sign_of_overflow {x y : Word} (h : x.ssubOverflow y = true) :
    ((x - y).toInt < 0 ↔ y.toInt < x.toInt) ∧ (0 < (x - y).toInt ↔ x.toInt < y.toInt) := by
  have range : ∀ z : Word, -32768 ≤ z.toInt ∧ z.toInt < 32768 :=
    fun z => ⟨BitVec.le_toInt z, BitVec.toInt_lt⟩
  have hx := range x
  have hy := range y
  have wrapped : (x - y).toInt = (x.toInt - y.toInt).bmod 65536 := BitVec.toInt_sub
  simp only [BitVec.ssubOverflow, Bool.or_eq_true, decide_eq_true_eq] at h
  rw [Int.bmod_def] at wrapped
  omega

theorem ne_of_overflow {x y : Word} (h : x.ssubOverflow y = true) : x.toInt ≠ y.toInt := by
  intro same
  simp [BitVec.ssubOverflow, same] at h

theorem truth_inj {a b : Bool} : truth a = truth b ↔ a = b := by
  cases a <;> cases b <;> decide

namespace Operator

/-- What a comparison asks of two numbers. -/
def relation? : Operator → Option (Int → Int → Bool)
  | eq => some fun x y => x = y
  | lt => some fun x y => x < y
  | gt => some fun x y => y < x
  | _ => none

/-- The numbers change places where their difference is no word. -/
def wrapped (r : Int → Int → Bool) (x y : Word) : Bool :=
  if x.ssubOverflow y then r y.toInt x.toInt else r x.toInt y.toInt

variable {op : Operator} {r : Int → Int → Bool}

/-- **What a comparison answers** is the relation with the numbers in exchange where their
difference wraps around. -/
theorem effect_eq (compares : op.relation? = some r) :
    op.effect = binary fun x y => truth (wrapped r x y) := by
  have straight : ∀ x y : Word, x.ssubOverflow y = false → (x - y).toInt = x.toInt - y.toInt :=
    fun x y h => BitVec.toInt_sub_of_not_ssubOverflow (by simp [h])
  have whole : ∀ {f g : Word → Word → Bool}, (∀ x y, f x y = g x y) →
      binary (fun x y => truth (f x y)) = binary fun x y => truth (g x y) := by
    intro f g same
    simp only [same]
  cases op with
  | eq =>
    obtain rfl := Option.some.inj compares
    refine whole (f := fun x y => decide (x = y)) fun x y => ?_
    simp only [wrapped, BitVec.toInt_inj, eq_comm (a := y), ite_self]
  | lt =>
    obtain rfl := Option.some.inj compares
    refine whole (f := fun x y => decide ((x - y).toInt < 0)) fun x y => ?_
    cases wraps : x.ssubOverflow y with
    | true => simp only [wrapped, wraps, if_true, (sign_of_overflow wraps).1]
    | false =>
      simp only [wrapped, wraps, Bool.false_eq_true, if_false, straight x y wraps, decide_eq_decide]
      omega
  | gt =>
    obtain rfl := Option.some.inj compares
    refine whole (f := fun x y => decide (0 < (x - y).toInt)) fun x y => ?_
    cases wraps : x.ssubOverflow y with
    | true => simp only [wrapped, wraps, if_true, (sign_of_overflow wraps).2]
    | false =>
      simp only [wrapped, wraps, Bool.false_eq_true, if_false, straight x y wraps, decide_eq_decide]
      omega
  | _ => cases compares

/-- Equality is decided for all words, an order just where the difference is a word. -/
theorem wrapped_eq_iff (compares : op.relation? = some r) (x y : Word) :
    wrapped r x y = r x.toInt y.toInt ↔ op = .eq ∨ x.ssubOverflow y = false := by
  cases wraps : x.ssubOverflow y with
  | false => simp [wrapped, wraps]
  | true =>
    have apart := ne_of_overflow wraps
    cases op with
    | eq =>
      obtain rfl := Option.some.inj compares
      simp only [wrapped, wraps, if_true, eq_comm (a := y.toInt), true_or]
    | lt =>
      obtain rfl := Option.some.inj compares
      simp only [wrapped, wraps, if_true, decide_eq_decide, reduceCtorEq, or_self, iff_false]
      omega
    | gt =>
      obtain rfl := Option.some.inj compares
      simp only [wrapped, wraps, if_true, decide_eq_decide, reduceCtorEq, or_self, iff_false]
      omega
    | _ => cases compares

/-- An operator with two operands writes `SP` and the cell of the lower one. -/
theorem binary_written {m : Memory} (first : InStack (m.cell .sp - 1))
    (second : InStack (m.cell .sp - 2)) (f : Word → Word → Word) :
    (binary f m).cell .sp = m.cell .sp - 1 ∧
      (binary f m).top = f (m.read (m.cell .sp - 2)) (m.read (m.cell .sp - 1)) ∧
      (binary f m).DiffersAt [Cell.sp.word, m.cell .sp - 2] m := by
  have below : m.cell .sp - 1 - 1 = m.cell .sp - 2 := BitVec.sub_sub _ 1 1
  have written := binary_eq first second f
  rw [below, Memory.drop, Memory.read_setCell first, Memory.read_setCell second] at written
  have sp : (binary f m).cell .sp = m.cell .sp - 1 := by
    rw [← written, Memory.cell_write second, Memory.cell_setCell_self]
  refine ⟨sp, ?_, ?_⟩
  · rw [Memory.top, sp, below, ← written, Memory.read_write_self]
  · rw [← written]
    exact ((Memory.DiffersAt.refl _ m).setCell (by simp) _).write second.high (by simp) _

end Operator

/-! ## Comparisons of a program -/

section

variable {entry : Option String} {units : List SourceUnit} {p : Program}
  {front back : List Placed} {unit : String} {op : Operator} {r : Int → Int → Bool}

/-- The code of an operator with labels of its own does what the operator means. -/
theorem Built.operate_reach (built : Built entry units p) (short : p.words.length ≤ romSize)
    (split : program entry units = front ++ (unit, .operate op) :: back)
    (once : ∀ g ∈ (Command.operate op).generated (countersAfter ⟨0, 0⟩ front),
      (Assembly.labelNames (Built.source entry units)).count g.text = 1) (core : Core)
    (touched : ∀ x ∈ Command.touched core.ram (.operate op), InStack x) :
    ∃ core' : Core,
      Reaches (core.machine (romOf (Built.source entry units)) (place (startOf entry front)))
        (core'.machine (romOf (Built.source entry units))
          (place (startOf entry (front ++ [(unit, .operate op)])))) ∧
      core'.ram = op.effect core.ram := by
  have plain : AllPlain ((Command.operate op).statements unit (countersAfter ⟨0, 0⟩ front)) :=
    (operate_emitted (c := .operate op) _ op).plain isPlainUnit_empty
  have own := built.ownLabels_of_once split once fun g _ there => plain _ there
  obtain ⟨core', reach, ram⟩ :=
    Vm.operate_reach (built.holds short) built.cells (built.here split plain) own touched
  refine ⟨core', ?_, ram⟩
  rwa [startOf_concat]

/-- The operands of a comparison, with `SP` from two above the stack base up to the last cell. -/
theorem touched_comparison {m : Memory} (compares : op.relation? = some r)
    (low : 258 ≤ (m.cell .sp).toNat) (high : (m.cell .sp).toNat ≤ 32767) :
    InStack (m.cell .sp - 1) ∧ InStack (m.cell .sp - 2) ∧
      ∀ x ∈ Command.touched m (.operate op), InStack x := by
  have base : Hack.stackBase = 256 := rfl
  have size : ramSize = 32768 := rfl
  have first : InStack (m.cell .sp - 1) := by constructor <;> bv_omega
  have second : InStack (m.cell .sp - 2) := by constructor <;> bv_omega
  have two : op.operands = 2 := by
    cases op <;> first | rfl | cases compares
  refine ⟨first, second, fun x hx => ?_⟩
  simp only [Command.touched, two, List.mem_map, List.mem_range] at hx
  obtain ⟨k, hk, rfl⟩ := hx
  obtain _ | _ | k := k
  · exact first
  · exact second
  · omega

/-- The code of a comparison leaves its answer in place of the operands. -/
theorem Built.comparison_reach (built : Built entry units p) {m₀ loaded : Machine}
    (load : m₀.load hack p.toText = .ok loaded)
    (split : program entry units = front ++ (unit, .operate op) :: back)
    (compares : op.relation? = some r)
    (once : ∀ g ∈ (Command.operate op).generated (countersAfter ⟨0, 0⟩ front),
      (Assembly.labelNames (Built.source entry units)).count g.text = 1)
    {m : Machine} (rom : m.rom = loaded.rom) (pc : m.pc = place (startOf entry front))
    (low : 258 ≤ (m.ram.cell .sp).toNat) (high : (m.ram.cell .sp).toNat ≤ 32767) :
    ∃ next, Reaches m next ∧ next.rom = loaded.rom ∧
      next.pc = place (startOf entry (front ++ [(unit, .operate op)])) ∧
      next.ram.cell .sp = m.ram.cell .sp - 1 ∧
      next.ram.top = truth (Operator.wrapped r (m.ram.read (m.ram.cell .sp - 2))
        (m.ram.read (m.ram.cell .sp - 1))) ∧
      next.ram.DiffersAt [Cell.sp.word, m.ram.cell .sp - 2] m.ram := by
  obtain ⟨image, short⟩ := rom_of_load built.means load
  obtain ⟨first, second, touched⟩ := touched_comparison compares low high
  obtain ⟨core, reach, ram⟩ :=
    built.operate_reach short split once ⟨m.ram, m.a, m.d⟩ touched
  rw [Core.machine_eq (rom.trans image) pc] at reach
  have written :=
    Operator.binary_written first second fun x y => truth (Operator.wrapped r x y)
  rw [← Operator.effect_eq compares, ← ram] at written
  exact ⟨_, reach, image.symm, rfl, written⟩

/-- **Comparisons decide by the difference.** The code of `eq`, `lt` or `gt` takes both words off
the stack and leaves -1 for true and 0 for false in their place, and it changes nothing else. An
order is decided as for the numbers in exchange where their difference is no word, and as it
should be just elsewhere. -/
theorem comparison_decides (built : Built entry units p) {m₀ loaded : Machine}
    (load : m₀.load hack p.toText = .ok loaded)
    (split : program entry units = front ++ (unit, .operate op) :: back)
    (compares : op.relation? = some r)
    (once : ∀ g ∈ (Command.operate op).generated (countersAfter ⟨0, 0⟩ front),
      (Assembly.labelNames (Built.source entry units)).count g.text = 1)
    {m : Machine} (rom : m.rom = loaded.rom) (pc : m.pc = place (startOf entry front))
    (low : 258 ≤ (m.ram.cell .sp).toNat) (high : (m.ram.cell .sp).toNat ≤ 32767) :
    let x := m.ram.read (m.ram.cell .sp - 2)
    let y := m.ram.read (m.ram.cell .sp - 1)
    ∃ next, Reaches m next ∧ next.rom = loaded.rom ∧
      next.pc = place (startOf entry (front ++ [(unit, .operate op)])) ∧
      next.ram.cell .sp = m.ram.cell .sp - 1 ∧
      next.ram.top =
        truth (if x.ssubOverflow y then r y.toInt x.toInt else r x.toInt y.toInt) ∧
      (next.ram.top = truth (r x.toInt y.toInt) ↔ op = .eq ∨ x.ssubOverflow y = false) ∧
      next.ram.DiffersAt [Cell.sp.word, m.ram.cell .sp - 2] m.ram := by
  intro x y
  obtain ⟨next, reach, kept, behind, sp, top, others⟩ :=
    built.comparison_reach load split compares once rom pc low high
  refine ⟨next, reach, kept, behind, sp, top, ?_, others⟩
  rw [top, truth_inj]
  exact Operator.wrapped_eq_iff compares x y

end

/-! ## Numbers that are far apart -/

/-- A comparison of two numbers that are more than a word apart. -/
def farApart : SourceUnit :=
  ⟨"Main", SourceLine.ofRaws "Main.vm"
    ["push constant 30000", "push constant 30000", "neg", "lt"]⟩

theorem farApart_built : ∃ p, Built none [farApart] p ∧ p.words.length = 32 :=
  built_of_shown (by decide +kernel) (by decide +kernel)

/-- Before the comparison of `farApart`. -/
def beforeFar : List Placed := (program none [farApart]).take 3

theorem split_farApart :
    program none [farApart] = beforeFar ++ ("Main", .operate .lt) :: [] := by decide +kernel

/-- The words stand on the stack and nothing else does. -/
def holding (x y : Word) : Memory := (Memory.zero.setCell .sp 256).pushAll [x, y]

theorem holding_operands (x y : Word) :
    (holding x y).cell .sp = 258 ∧ (holding x y).read 256 = x ∧ (holding x y).read 257 = y := by
  have sp : (Memory.zero.setCell .sp 256).cell .sp = 256 := Memory.cell_setCell_self ..
  have room : Room ((Memory.zero.setCell .sp 256).cell .sp) [x, y].length :=
    (room_of_high (by rw [sp]; decide) (by rw [sp]; decide)).mono (by simp)
  have pushed := Memory.pushed_pushAll room
  have first := pushed.words 0 x rfl
  have second := pushed.words 1 y rfl
  have top := pushed.sp
  rw [sp] at first second top
  exact ⟨top, first, second⟩

/-- The labels of the comparison are lines of the program once each. -/
theorem farApart_once :
    ∀ g ∈ (Command.operate .lt).generated (countersAfter ⟨0, 0⟩ beforeFar),
      (Assembly.labelNames (Built.source none [farApart])).count g.text = 1 := by decide +kernel

/-- A machine in front of the comparison with these words on the stack. -/
def comparing (x y : Word) : Machine :=
  ⟨romOf (Built.source none [farApart]), holding x y, 0, 0, place (startOf none beforeFar)⟩

theorem comparing_operands (x y : Word) :
    let m := comparing x y
    m.ram.cell .sp = 258 ∧ m.ram.read (m.ram.cell .sp - 2) = x ∧
      m.ram.read (m.ram.cell .sp - 1) = y := by
  intro m
  obtain ⟨sp, first, second⟩ := holding_operands x y
  have top : m.ram.cell .sp = 258 := sp
  refine ⟨top, ?_, ?_⟩
  · rw [top]
    exact first
  · rw [top]
    exact second

theorem comparison_decides_near :
    ∃ (p : Program) (next : Machine), Built none [farApart] p ∧ Reaches (comparing 3 5) next ∧
      next.ram.top = truth true := by
  obtain ⟨p, built, size⟩ := farApart_built
  have load := load_of_means built.means (by rw [size]; decide) .initial
  obtain ⟨sp, first, second⟩ := comparing_operands 3 5
  obtain ⟨next, reach, -, -, -, top, -⟩ :=
    comparison_decides built load split_farApart rfl farApart_once
      (show (comparing 3 5).rom = _ from rfl) rfl (by rw [sp]; decide) (by rw [sp]; decide)
  refine ⟨p, next, built, reach, ?_⟩
  rw [top, first, second]
  decide

/-- Far below zero is not above thirty thousand, but `lt` says so: whenever the machine arrives
behind the comparison the word on top is -1. -/
theorem lt_says_far_above_is_below :
    ∃ (p : Program) (loaded : Machine), Built none [farApart] p ∧
      Machine.initial.load hack p.toText = .ok loaded ∧
      let m := comparing 30000 (-30000)
      let behind := place (startOf none (beforeFar ++ [("Main", .operate .lt)]))
      m.rom = loaded.rom ∧ m.ram.cell .sp = 258 ∧
      m.ram.read (m.ram.cell .sp - 2) = 30000 ∧ m.ram.read (m.ram.cell .sp - 1) = -30000 ∧
      ¬ (30000 : Word).toInt < (-30000 : Word).toInt ∧
      (∃ next, Reaches m next ∧ next.pc = behind) ∧
      ∀ next, Reaches m next → next.pc = behind → next.ram.top = -1 := by
  obtain ⟨p, built, size⟩ := farApart_built
  have short : p.words.length ≤ romSize := by rw [size]; decide
  have load := load_of_means built.means short .initial
  obtain ⟨sp, x, y⟩ := comparing_operands 30000 (-30000)
  obtain ⟨next, reach, kept, behind, -, top, -⟩ :=
    built.comparison_reach load split_farApart rfl farApart_once
      (show (comparing 30000 (-30000)).rom = _ from rfl) rfl (by rw [sp]; decide)
      (by rw [sp]; decide)
  have answer : next.ram.top = -1 := by
    rw [top, x, y]
    decide
  -- The comparison is the last command, so the machine halts behind it.
  have size : (romOf (Built.source none [farApart])).size = 32 := by
    rw [romOf, List.size_toArray, List.length_map, ← built.means.length_words, size]
  have last : (place (startOf none (beforeFar ++ [("Main", .operate .lt)]))).toNat = 32 := by
    decide +kernel
  have final : ∀ m : Machine, m.rom = romOf (Built.source none [farApart]) →
      m.pc = place (startOf none (beforeFar ++ [("Main", .operate .lt)])) →
      m.halted = true := by
    intro m rom pc
    simp [Machine.halted, rom, pc, size, last]
  refine ⟨p, _, built, load, rfl, sp, x, y, by decide, ⟨next, reach, behind⟩, ?_⟩
  intro other there arrives
  rw [reach.halted_unique (final next kept behind) there (final other there.rom arrives), answer]

end Vm

end HackToolchain
