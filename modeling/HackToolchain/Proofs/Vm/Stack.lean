import HackToolchain.Machine

/-!
# The stack in memory

* `cell`, `setCell`: the cells of the calling convention;
* `push`, `drop`, `top`: the stack below `SP`;
* `Agrees`: memories that differ in the two scratch cells at most.

An address is in the stack's range from the stack base up to the last cell. There a write to
the stack leaves the cells alone, and a write to a cell leaves the stack alone.
-/

namespace HackToolchain

namespace Hack.Cell

def word (c : Cell) : Word := BitVec.ofNat 16 c.address

theorem word_place (c : Cell) : c.word.toNat % ramSize = c.address := by
  cases c <;> decide

theorem address_injective {c e : Cell} (h : c.address = e.address) : c = e := by
  cases c <;> cases e <;> first | rfl | cases h

theorem address_lt (c : Cell) : c.address < stackBase := by
  cases c <;> decide

end Hack.Cell

open Hack (Cell)

/-- From the stack base up to the last cell of memory. -/
structure InStack (x : Word) : Prop where
  low : Hack.stackBase ≤ x.toNat
  high : x.toNat < ramSize

section

variable {x : Word} {n : Nat}

/-- In the range of the stack, addresses are cells of their own. -/
theorem InStack.place (h : InStack x) : x.toNat % ramSize = x.toNat := Nat.mod_eq_of_lt h.high

theorem InStack.place_ne (h : InStack x) (c : Cell) : x.toNat % ramSize ≠ c.address := by
  rw [h.place]
  exact Nat.ne_of_gt (Nat.lt_of_lt_of_le c.address_lt h.low)

/-- In the range of the stack, addresses do not wrap around. -/
theorem InStack.toNat_succ (h : InStack x) : (x + 1).toNat = x.toNat + 1 := by
  have high := h.high
  have size : ramSize = 2 ^ 15 := rfl
  bv_omega

/-- There is room for `n` words from `x` on. -/
def Room (x : Word) (n : Nat) : Prop := ∀ k < n, InStack (x + BitVec.ofNat 16 k)

theorem Room.mono {k : Nat} (h : Room x n) (less : k ≤ n) : Room x k :=
  fun j hj => h j (Nat.lt_of_lt_of_le hj less)

theorem add_succ (x : Word) (k : Nat) :
    x + 1 + BitVec.ofNat 16 k = x + BitVec.ofNat 16 (k + 1) := by
  rw [Nat.add_comm k, BitVec.ofNat_add, ← BitVec.add_assoc]
  rfl

theorem Room.first (h : Room x (n + 1)) : InStack x := by
  simpa using h 0 (Nat.succ_pos n)

theorem Room.tail (h : Room x (n + 1)) : Room (x + 1) n := by
  intro k hk
  rw [add_succ]
  exact h (k + 1) (Nat.succ_lt_succ hk)

theorem Room.toNat_add (h : Room x n) {k : Nat} (hk : k < n) :
    (x + BitVec.ofNat 16 k).toNat = x.toNat + k := by
  induction k generalizing x n with
  | zero => simp
  | succ k ih =>
    cases n with
    | zero => cases hk
    | succ n =>
      rw [← add_succ, ih h.tail (Nat.lt_of_succ_lt_succ hk), h.first.toNat_succ]
      omega

end

namespace Memory

def cell (m : Memory) (c : Cell) : Word := m.read c.word

def setCell (m : Memory) (c : Cell) (v : Word) : Memory := m.write c.word v

/-- `v` at the place that `SP` points to, and `SP` one up. -/
def push (m : Memory) (v : Word) : Memory :=
  (m.write (m.cell .sp) v).setCell .sp ((m.write (m.cell .sp) v).cell .sp + 1)

/-- `SP` one down. -/
def drop (m : Memory) : Memory := m.setCell .sp (m.cell .sp - 1)

/-- The word below `SP`. -/
def top (m : Memory) : Word := m.read (m.cell .sp - 1)

theorem ext {m n : Memory} (h : ∀ x, m.read x = n.read x) : m = n := by
  apply Vector.ext
  intro i hi
  have address : (BitVec.ofNat 16 i).toNat % ramSize = i := by
    rw [BitVec.toNat_ofNat, Nat.mod_eq_of_lt (Nat.lt_trans hi (by decide)), Nat.mod_eq_of_lt hi]
  have same := h (BitVec.ofNat 16 i)
  simp only [read, address] at same
  exact same

section

variable {m n : Memory} {x y v : Word} {c e : Cell}

/-! ## Reading after writing -/

theorem read_write_self (m : Memory) (x v : Word) : (m.write x v).read x = v := by
  rw [read_write, if_pos rfl]

@[simp] theorem cell_setCell_self (m : Memory) (c : Cell) (v : Word) : (m.setCell c v).cell c = v :=
  read_write_self m c.word v

theorem cell_setCell_ne (ne : c ≠ e) : (m.setCell c v).cell e = m.cell e := by
  rw [cell, setCell, read_write, Cell.word_place, Cell.word_place, if_neg, cell]
  exact fun h => ne (Cell.address_injective h)

theorem cell_write (h : InStack x) : (m.write x v).cell c = m.cell c := by
  rw [cell, read_write, Cell.word_place, if_neg (h.place_ne c), cell]

theorem read_setCell (h : InStack x) : (m.setCell c v).read x = m.read x := by
  rw [setCell, read_write, Cell.word_place, if_neg (Ne.symm (h.place_ne c))]

theorem read_write_ne (hx : InStack x) (hy : InStack y) (ne : x ≠ y) :
    (m.write x v).read y = m.read y := by
  rw [read_write, hx.place, hy.place, if_neg]
  exact fun h => ne (BitVec.eq_of_toNat_eq h)

/-! ## Pushing and dropping -/

theorem push_eq (h : InStack (m.cell .sp)) (v : Word) :
    m.push v = (m.write (m.cell .sp) v).setCell .sp (m.cell .sp + 1) := by
  rw [push, cell_write h]

theorem sp_push (h : InStack (m.cell .sp)) : (m.push v).cell .sp = m.cell .sp + 1 := by
  rw [push_eq h, cell_setCell_self]

theorem cell_push (h : InStack (m.cell .sp)) (ne : c ≠ .sp) : (m.push v).cell c = m.cell c := by
  rw [push_eq h, cell_setCell_ne (Ne.symm ne), cell_write h]

theorem sp_drop (m : Memory) : m.drop.cell .sp = m.cell .sp - 1 := cell_setCell_self ..

theorem cell_drop (ne : c ≠ .sp) : m.drop.cell c = m.cell c := cell_setCell_ne (Ne.symm ne)

/-- What takes the place of the top is written there. -/
theorem drop_push (h : InStack (m.cell .sp - 1)) (v : Word) :
    m.drop.push v = m.write (m.cell .sp - 1) v := by
  have back : m.cell .sp - 1 + 1 = m.cell .sp := BitVec.sub_add_cancel ..
  rw [push_eq (by rwa [sp_drop]), sp_drop, back]
  apply ext
  intro y
  simp only [drop, setCell, read_write, Cell.word_place]
  by_cases hy : Cell.sp.address = y.toNat % ramSize
  · rw [if_pos hy, if_neg (hy ▸ h.place_ne .sp)]
    have same : m.read y = m.read Cell.sp.word := by
      simp only [read, Cell.word_place, ← hy]
    rw [same, cell]
  · simp only [if_neg hy]

/-- Reading before or after `SP` goes down is the same. -/
theorem read_drop (h : InStack (m.cell .sp - 1)) : m.drop.read (m.cell .sp - 1) = m.top := by
  rw [drop, read_setCell h, top]

/-- Apart from `SP` itself, a push changes the cell that `SP` has pointed to. -/
theorem read_push (h : InStack (m.cell .sp)) (apart : y.toNat % ramSize ≠ Cell.sp.address) :
    (m.push v).read y = if (m.cell .sp).toNat = y.toNat % ramSize then v else m.read y := by
  rw [push_eq h, setCell, read_write, Cell.word_place, if_neg (Ne.symm apart), read_write, h.place]

/-- Words in order, the last on top. -/
def pushAll (m : Memory) (vs : List Word) : Memory := vs.foldl push m

/-- What words that were pushed have changed. -/
structure Pushed (m : Memory) (vs : List Word) (n : Memory) : Prop where
  sp : n.cell .sp = m.cell .sp + BitVec.ofNat 16 vs.length
  cells : ∀ c, c ≠ .sp → n.cell c = m.cell c
  words : ∀ k v, vs[k]? = some v → n.read (m.cell .sp + BitVec.ofNat 16 k) = v
  others : ∀ y : Word, y.toNat % ramSize ≠ Cell.sp.address →
    (∀ k < vs.length, y.toNat % ramSize ≠ (m.cell .sp).toNat + k) → n.read y = m.read y

theorem pushed_pushAll {vs : List Word} (room : Room (m.cell .sp) vs.length) :
    Pushed m vs (m.pushAll vs) := by
  induction vs generalizing m with
  | nil => exact ⟨by simp [pushAll], fun _ _ => rfl, by simp, fun _ _ _ => rfl⟩
  | cons v rest ih =>
    have inside := room.first
    have sp : (m.push v).cell .sp = m.cell .sp + 1 := sp_push inside
    have later := ih (m := m.push v) (by rw [sp]; exact room.tail)
    constructor
    · exact later.sp.trans (by rw [sp, add_succ]; rfl)
    · exact fun c ne => (later.cells c ne).trans (cell_push inside ne)
    · intro k w hk
      cases k with
      | zero =>
        obtain rfl : v = w := by simpa using hk
        have above : ∀ k < rest.length,
            (m.cell .sp).toNat % ramSize ≠ ((m.push v).cell .sp).toNat + k := by
          intro k hk
          rw [inside.place, sp, inside.toNat_succ]
          omega
        have start : m.cell .sp + BitVec.ofNat 16 0 = m.cell .sp := by simp
        rw [start]
        refine (later.others _ (inside.place_ne .sp) above).trans ?_
        rw [read_push inside (inside.place_ne .sp), inside.place, if_pos rfl]
      | succ k =>
        have there := later.words k w (by simpa using hk)
        rwa [sp, add_succ] at there
    · intro y apart outside
      have first : (m.cell .sp).toNat ≠ y.toNat % ramSize := by
        have := outside 0 (by simp)
        omega
      refine (later.others y apart ?_).trans ?_
      · intro k hk
        have := outside (k + 1) (by simpa using hk)
        rw [sp, inside.toNat_succ]
        omega
      · rw [read_push inside apart, if_neg first]

/-! ## Scratch cells -/

/-- The same words but in `R13` and `R14`. -/
def Agrees (m n : Memory) : Prop :=
  ∀ x : Word, x.toNat % ramSize ≠ Cell.r13.address → x.toNat % ramSize ≠ Cell.r14.address →
    m.read x = n.read x

theorem Agrees.refl (m : Memory) : m.Agrees m := fun _ _ _ => rfl

theorem Agrees.write (h : m.Agrees n) (x v : Word) : (m.write x v).Agrees (n.write x v) := by
  intro y first second
  rw [read_write, read_write]
  split
  · rfl
  · exact h y first second

theorem Agrees.setCell (h : m.Agrees n) (c : Cell) (v : Word) :
    (m.setCell c v).Agrees (n.setCell c v) := h.write c.word v

theorem Agrees.scratch13 (h : m.Agrees n) (v : Word) : (m.setCell .r13 v).Agrees n := by
  intro y first second
  rw [Memory.setCell, read_write, Cell.word_place, if_neg (Ne.symm first)]
  exact h y first second

theorem Agrees.scratch14 (h : m.Agrees n) (v : Word) : (m.setCell .r14 v).Agrees n := by
  intro y first second
  rw [Memory.setCell, read_write, Cell.word_place, if_neg (Ne.symm second)]
  exact h y first second

theorem Agrees.read (h : m.Agrees n) (hx : InStack x) : m.read x = n.read x :=
  h x (hx.place_ne .r13) (hx.place_ne .r14)

theorem Agrees.cell (h : m.Agrees n) (kept : c ≠ .r13 ∧ c ≠ .r14) : m.cell c = n.cell c := by
  refine h c.word ?_ ?_ <;> rw [Cell.word_place]
  · exact fun e => kept.1 (Cell.address_injective e)
  · exact fun e => kept.2 (Cell.address_injective e)

theorem Agrees.drop (h : m.Agrees n) : m.drop.Agrees n.drop := by
  rw [Memory.drop, Memory.drop, h.cell (by decide)]
  exact h.setCell .sp _

theorem Agrees.top (h : m.Agrees n) (inside : InStack (n.cell .sp - 1)) : m.top = n.top := by
  rw [Memory.top, Memory.top, h.cell (by decide), h.read inside]

end

end Memory

end HackToolchain
