import HackToolchain.Proofs.Machine.Mnemonics
import HackToolchain.Proofs.Machine.Words

/-!
# Running code

* `run_run`: a run goes on where another one has stopped;
* `Reaches`: some number of steps, all of them taken, leads from one machine to another;
* `Reaches.halted_unique`: where a machine halts it does so in one state;
* `perform`: what one instruction does to memory and registers, by its mnemonics;
* `reaches_straight`: code without jumps does one instruction after the other;
* `reaches_jump`: a jump goes on at the address in `A`, if it is taken.
-/

namespace HackToolchain

open Assembly (Instruction Program Reading)

namespace Machine

theorem run_of_halted {m : Machine} (halted : m.halted = true) (limit : Nat) :
    m.run limit = (0, m) := by
  cases limit with
  | zero => rfl
  | succ limit => rw [run_succ, step?_eq_none_iff.2 halted]

/-- **A run goes on where another one has stopped.** -/
theorem run_run (n k : Nat) (m : Machine) :
    m.run (n + k) = ((m.run n).1 + ((m.run n).2.run k).1, ((m.run n).2.run k).2) := by
  induction n generalizing m with
  | zero => simp [run_zero]
  | succ n ih =>
    rw [Nat.succ_add, run_succ, run_succ n]
    cases hs : m.step? with
    | none => simp [run_of_halted (step?_eq_none_iff.1 hs)]
    | some s =>
      dsimp only
      rw [ih]
      exact Prod.ext (Nat.add_right_comm ..) rfl

theorem run_add {n : Nat} {m next : Machine} (h : m.run n = (n, next)) (k : Nat) :
    m.run (n + k) = (n + (next.run k).1, (next.run k).2) := by
  rw [run_run, h]

/-- A run that takes fewer steps than it may has come to its end. -/
theorem halted_of_run_lt {n : Nat} {m : Machine} (short : (m.run n).1 < n) :
    (m.run n).2.halted = true := by
  induction n generalizing m with
  | zero => cases short
  | succ n ih =>
    rw [run_succ] at short ⊢
    cases hs : m.step? with
    | none => exact step?_eq_none_iff.1 hs
    | some s =>
      rw [hs] at short
      exact ih (Nat.lt_of_succ_lt_succ short)

/-- So many steps lead there, and the machine does not halt before. -/
def Reaches (m next : Machine) : Prop := ∃ n, m.run n = (n, next)

theorem Reaches.refl (m : Machine) : Reaches m m := ⟨0, rfl⟩

theorem Reaches.trans {a b c : Machine} (h : Reaches a b) (k : Reaches b c) : Reaches a c := by
  obtain ⟨n, hn⟩ := h
  obtain ⟨l, hl⟩ := k
  exact ⟨n + l, by rw [run_add hn, hl]⟩

theorem Reaches.step {m : Machine} {i : Decoded} (h : m.rom[m.pc.toNat]? = some i) :
    Reaches m (m.execute i) := by
  refine ⟨1, ?_⟩
  rw [run_succ, step?, h]
  rfl

/-! ## Where runs end -/

section

variable {m next other : Machine}

theorem rom_execute (m : Machine) (i : Decoded) : (m.execute i).rom = m.rom := by
  cases i <;> rfl

theorem rom_of_step? {s : Word × Decoded × Machine} (h : m.step? = some s) : s.2.2.rom = m.rom := by
  unfold step? at h
  split at h
  · cases h
  · obtain rfl := Option.some.inj h
    exact rom_execute m _

theorem rom_run (limit : Nat) (m : Machine) : (m.run limit).2.rom = m.rom := by
  induction limit generalizing m with
  | zero => rfl
  | succ limit ih =>
    rw [run_succ]
    cases hs : m.step? with
    | none => rfl
    | some s => exact (ih _).trans (rom_of_step? hs)

theorem Reaches.rom (reach : Reaches m next) : next.rom = m.rom := by
  obtain ⟨n, hn⟩ := reach
  rw [← rom_run n m, hn]

/-- No run goes on where the machine halts. -/
theorem steps_le_of_halted {n k : Nat} (h : m.run n = (n, next)) (halted : next.halted = true)
    (h' : m.run k = (k, other)) : k ≤ n := by
  by_contra more
  obtain ⟨j, rfl⟩ : ∃ j, k = n + j := ⟨k - n, by omega⟩
  rw [run_add h, run_of_halted halted] at h'
  have same : n + 0 = n + j := congrArg Prod.fst h'
  omega

/-- The machine halts in one state only. -/
theorem Reaches.halted_unique (reach : Reaches m next) (halted : next.halted = true)
    (reach' : Reaches m other) (halted' : other.halted = true) : other = next := by
  obtain ⟨n, hn⟩ := reach
  obtain ⟨k, hk⟩ := reach'
  have same : k = n :=
    Nat.le_antisymm (steps_le_of_halted hn halted hk) (steps_le_of_halted hk halted' hn)
  rw [same, hn] at hk
  exact (congrArg Prod.snd hk).symm

end

end Machine

open Machine (Reaches)

/-! ## Instructions by their mnemonics -/

/-- Memory and registers, without the program. -/
structure Core where
  ram : Memory
  a : Word
  d : Word

namespace Core

def machine (c : Core) (rom : Array Decoded) (pc : Word) : Machine := ⟨rom, c.ram, c.a, c.d, pc⟩

theorem machine_eq {m : Machine} {rom : Array Decoded} {pc : Word} (h : m.rom = rom)
    (k : m.pc = pc) : (⟨m.ram, m.a, m.d⟩ : Core).machine rom pc = m := by
  subst h k
  rfl

/-- The value of a computation. -/
def value (c : Core) (comp : String) : Word := Hack.valueOf comp c.d c.a (c.ram.read c.a)

/-- A word taken to where the letters of a destination say; `M` is the cell that `A` has
pointed to before. -/
def assign (c : Core) (dest : String) (out : Word) : Core where
  ram := if 'M' ∈ dest.toList then c.ram.write c.a out else c.ram
  a := if 'A' ∈ dest.toList then out else c.a
  d := if 'D' ∈ dest.toList then out else c.d

/-- What an instruction does, jumps apart. Names are addresses under `σ`. -/
def perform (σ : String → Nat) (c : Core) : Instruction → Core
  | .address (.literal v) => { c with a := v.setWidth 16 }
  | .address (.symbol name) => { c with a := BitVec.ofNat 16 (σ name) }
  | .compute dest comp _ => c.assign dest (c.value comp)

/-- Where the machine goes on. -/
def next (c : Core) (pc : Word) : Instruction → Word
  | .compute _ comp jump => if Hack.taken jump (c.value comp) then c.a else pc + 1
  | .address _ => pc + 1

def performAll (σ : String → Nat) (c : Core) (is : List Instruction) : Core :=
  is.foldl (perform σ) c

theorem performAll_append (σ : String → Nat) (c : Core) (front back : List Instruction) :
    c.performAll σ (front ++ back) = (c.performAll σ front).performAll σ back :=
  List.foldl_append

end Core

/-- The mnemonics of the instruction are those of the machine. -/
def Known : Instruction → Prop
  | .address _ => True
  | .compute dest comp jump =>
    (∃ c, hack.comp.code? comp = some c) ∧ (∃ d, hack.dest.code? dest = some d) ∧
      ∃ j, hack.jump.code? jump = some j

/-- **An instruction does what its mnemonics say.** -/
theorem execute_image {σ : String → Nat} {i : Instruction} (known : Known i) (c : Core)
    (rom : Array Decoded) (pc : Word) :
    (c.machine rom pc).execute (imageOf (i.resolved σ)) =
      (c.perform σ i).machine rom (c.next pc i) := by
  cases i with
  | address operand =>
    cases operand with
    | literal v =>
      have low : (v.setWidth 32).setWidth 16 = v.setWidth 16 :=
        BitVec.setWidth_setWidth_of_le v (by decide)
      simp [Instruction.resolved, imageOf, Machine.execute, Core.machine, Core.perform, Core.next,
        low]
    | symbol name =>
      have low : ((BitVec.ofNat 64 (σ name)).setWidth 32).setWidth 16 = BitVec.ofNat 16 (σ name) := by
        apply BitVec.eq_of_toNat_eq
        simp only [BitVec.toNat_setWidth, BitVec.toNat_ofNat]
        omega
      simp only [Instruction.resolved, imageOf, Machine.execute, Core.machine, Core.perform,
        Core.next, low]
  | compute dest comp jump =>
    obtain ⟨⟨x, hx⟩, ⟨y, hy⟩, ⟨z, hz⟩⟩ := known
    have out := Hack.resultOf_eq (TwoWay.code?_eq_some_iff.1 hx) c.d c.a (c.ram.read c.a)
    obtain ⟨m, d, a⟩ := Hack.dest_letters (TwoWay.code?_eq_some_iff.1 hy)
    have jumps : Alu.jumps (z.val.setWidth 3) (c.value comp) = Hack.taken jump (c.value comp) :=
      Hack.jumps_eq (TwoWay.code?_eq_some_iff.1 hz) (c.value comp)
    have image : imageOf ((Instruction.compute dest comp jump).resolved σ) = .compute x y z := by
      simp only [Instruction.resolved, imageOf, hx, hy, hz, Option.getD_some]
    have run : (c.machine rom pc).execute (.compute x y z) =
        (let out := Hack.resultOf x c.d c.a (c.ram.read c.a)
         { rom
           ram := if y.val.getLsbD 0 then c.ram.write c.a out else c.ram
           d := if y.val.getLsbD 1 then out else c.d
           a := if y.val.getLsbD 2 then out else c.a
           pc := if Alu.jumps (z.val.setWidth 3) out then c.a else pc + 1 }) := rfl
    have value : Hack.resultOf x c.d c.a (c.ram.read c.a) = c.value comp := out
    rw [image, run, value, m, d, a]
    simp [jumps, Core.machine, Core.perform, Core.assign, Core.next]

theorem known_of_mem {source : List Reading} {p : Program} (means : p.Means hack source)
    {i : Instruction} (h : i ∈ Assembly.instructions source) : Known i := by
  have encoded : (((i.resolved (Assembly.addressOf hack source)).encode hack
      (.ofDescriptor hack)).1 : Except Assembly.Error Bits) ∈ p.words.map .ok := by
    rw [← means.words (.ofDescriptor hack)]
    exact List.mem_map.2 ⟨i, h, rfl⟩
  obtain ⟨w, -, hw⟩ := List.mem_map.1 encoded
  cases i with
  | address => trivial
  | compute dest comp jump =>
    obtain ⟨c, d, j, hc, hd, hj, -⟩ := encoded_compute hw.symm
    exact ⟨⟨c, hc⟩, ⟨d, hd⟩, j, hj⟩

/-! ## Code in the ROM -/

/-- The ROM holds the images of code, which has mnemonics of the machine only. -/
structure Holds (rom : Array Decoded) (σ : String → Nat) (code : List Instruction) : Prop where
  rom : rom = (code.map fun i => imageOf (i.resolved σ)).toArray
  known : ∀ i ∈ code, Known i
  short : code.length ≤ romSize

theorem holds_of_means {source : List Reading} {p : Program} (means : p.Means hack source)
    (short : p.words.length ≤ romSize) :
    Holds (romOf source) (Assembly.addressOf hack source) (Assembly.instructions source) :=
  ⟨rfl, fun _ h => known_of_mem means h, means.length_words ▸ short⟩

section

variable {rom : Array Decoded} {σ : String → Nat} {code : List Instruction}

/-- The address of a place in the code. -/
abbrev place (k : Nat) : Word := BitVec.ofNat 16 k

theorem reaches_step (holds : Holds rom σ code) {k : Nat} {i : Instruction}
    (here : code[k]? = some i) (c : Core) :
    Reaches (c.machine rom (place k)) ((c.perform σ i).machine rom (c.next (place k) i)) := by
  obtain ⟨inside, _⟩ := List.getElem?_eq_some_iff.1 here
  have address : (place k).toNat = k := by
    have short := holds.short
    have size : romSize = 2 ^ 15 := rfl
    rw [BitVec.toNat_ofNat, Nat.mod_eq_of_lt (by omega)]
  have fetched : (c.machine rom (place k)).rom[(c.machine rom (place k)).pc.toNat]? =
      some (imageOf (i.resolved σ)) := by
    change rom[(place k).toNat]? = _
    rw [address, holds.rom]
    simp [here]
  rw [← execute_image (holds.known i (List.mem_of_getElem? here)) c rom (place k)]
  exact Reaches.step fetched

/-- The instruction never jumps. -/
def Straight : Instruction → Prop
  | .address _ => True
  | .compute _ _ jump => jump = "null"

theorem next_of_straight {i : Instruction} (h : Straight i) (c : Core) (k : Nat) :
    c.next (place k) i = place (k + 1) := by
  cases i with
  | address => exact (BitVec.ofNat_add k 1).symm
  | compute dest comp jump =>
    obtain rfl : jump = "null" := h
    exact (BitVec.ofNat_add k 1).symm

/-- **Code without jumps runs through.** -/
theorem reaches_straight (holds : Holds rom σ code) {is : List Instruction} {k : Nat}
    (here : is <+: code.drop k) (straight : ∀ i ∈ is, Straight i) (c : Core) :
    Reaches (c.machine rom (place k))
      ((c.performAll σ is).machine rom (place (k + is.length))) := by
  induction is generalizing k c with
  | nil => exact Reaches.refl _
  | cons i rest ih =>
    obtain ⟨tail, split⟩ := here
    have first : code[k]? = some i := by
      rw [← Nat.add_zero k, ← List.getElem?_drop, ← split]
      rfl
    have later : rest <+: code.drop (k + 1) := by
      refine ⟨tail, ?_⟩
      rw [← List.drop_drop, ← split]
      rfl
    have step := reaches_step holds first c
    rw [next_of_straight (straight i List.mem_cons_self)] at step
    have run := ih later (fun j hj => straight j (List.mem_cons_of_mem _ hj)) (c.perform σ i)
    have length : k + (i :: rest).length = k + 1 + rest.length := by
      rw [List.length_cons]
      omega
    rw [length]
    exact step.trans run

/-- A jump changes nothing but the place. -/
theorem reaches_jump (holds : Holds rom σ code) {k : Nat} {comp jump : String}
    (here : code[k]? = some (.compute "null" comp jump)) (c : Core) :
    Reaches (c.machine rom (place k))
      (c.machine rom (if Hack.taken jump (c.value comp) then c.a else place (k + 1))) := by
  have same : c.perform σ (.compute "null" comp jump) = c := by
    simp [Core.perform, Core.assign]
  have step := reaches_step holds here c
  have following : place (k + 1) = place k + 1 := BitVec.ofNat_add k 1
  rw [same] at step
  rwa [following]

end

end HackToolchain
