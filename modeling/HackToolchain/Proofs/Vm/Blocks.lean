import HackToolchain.Proofs.Machine.Execution
import HackToolchain.Proofs.Vm.Lines

/-!
# The code of commands

A `Block` is code without jumps together with what it does to memory and registers. The code of
every command is put together from blocks and jumps; each lemma here says what a part of it does
in the terms of the stack.
-/

namespace HackToolchain.Vm

open Assembly (Instruction)
open Hack (Cell)
open Machine (Reaches)
open Expansion

/-- The instructions among lines. -/
def codeOf (items : List Item) : List Instruction := items.filterMap Item.instruction?

theorem codeOf_append (front back : List Item) :
    codeOf (front ++ back) = codeOf front ++ codeOf back :=
  List.filterMap_append

/-- Cells have their predefined addresses. -/
def KnowsCells (σ : String → Nat) : Prop := ∀ c : Cell, σ c.name = c.address

/-- The lines have no jump, and their instructions do `f`. -/
structure Block (σ : String → Nat) (items : List Item) (f : Core → Core) : Prop where
  straight : ∀ i ∈ codeOf items, Straight i
  does : ∀ core, Core.performAll σ core (codeOf items) = f core

section

variable {σ : String → Nat} {items more : List Item} {f g : Core → Core}

theorem Block.nil : Block σ [] id := ⟨by simp [codeOf], fun _ => rfl⟩

theorem Block.append (first : Block σ items f) (second : Block σ more g) :
    Block σ (items ++ more) (g ∘ f) := by
  constructor
  · intro i hi
    rw [codeOf_append, List.mem_append] at hi
    exact hi.elim (first.straight i) (second.straight i)
  · intro core
    rw [codeOf_append, Core.performAll_append, first.does, second.does]
    rfl

theorem Block.cons {item : Item} (first : Block σ [item] f) (rest : Block σ more g) :
    Block σ (item :: more) (g ∘ f) :=
  first.append rest

theorem Block.congr (block : Block σ items f) (same : ∀ core, f core = g core) :
    Block σ items g :=
  ⟨block.straight, fun core => (block.does core).trans (same core)⟩

theorem Block.reaches {rom : Array Decoded} {code : List Instruction} (block : Block σ items f)
    (holds : Holds rom σ code) {k : Nat} (here : codeOf items <+: code.drop k) (core : Core) :
    Reaches (core.machine rom (place k))
      ((f core).machine rom (place (k + (codeOf items).length))) := by
  rw [← block.does core]
  exact reaches_straight holds here block.straight core

/-! ## Single lines -/

theorem symbol_block (name : String) :
    Block σ [symbol name] fun core => { core with a := place (σ name) } :=
  ⟨by simp [codeOf, symbol, Item.instruction?, Straight], fun _ => rfl⟩

theorem cell_block (cells : KnowsCells σ) (c : Cell) :
    Block σ [cell c] fun core => { core with a := c.word } :=
  (symbol_block c.name).congr fun core => by simp only [place, cells c, Cell.word]

theorem literal_block (n : Nat) :
    Block σ [literal n] fun core => { core with a := BitVec.ofNat 16 n } := by
  refine ⟨by simp [codeOf, literal, Item.instruction?, Straight], fun core => ?_⟩
  have low : (BitVec.ofNat 64 n).setWidth 16 = BitVec.ofNat 16 n := by
    apply BitVec.eq_of_toNat_eq
    simp only [BitVec.toNat_setWidth, BitVec.toNat_ofNat]
    omega
  rw [← low]
  rfl

theorem assign_block (dest comp : String) :
    Block σ [assign dest comp] fun core => core.assign dest (core.value comp) :=
  ⟨by simp [codeOf, assign, Item.instruction?, Straight], fun _ => rfl⟩

/-! ## The stack -/

theorem pushD_block (cells : KnowsCells σ) :
    Block σ pushD fun core => ⟨core.ram.push core.d, Cell.sp.word, core.d⟩ :=
  .cons (cell_block cells .sp) <| .cons (assign_block "A" "M") <| .cons (assign_block "M" "D") <|
    .cons (cell_block cells .sp) <| assign_block "M" "M+1"

theorem popD_block (cells : KnowsCells σ) :
    Block σ popD fun core =>
      ⟨core.ram.drop, core.ram.cell .sp - 1, core.ram.drop.read (core.ram.cell .sp - 1)⟩ :=
  .cons (cell_block cells .sp) <| .cons (assign_block "AM" "M-1") <| assign_block "D" "M"

/-! ## Segments -/

/-- Addresses as the machine has them in `A`. -/
def words (σ : String → Nat) (name : String) : Word := place (σ name)

theorem ofNat_toNat (index : Word) : BitVec.ofNat 16 index.toNat = index := by
  simp

theorem pointer_bound {c : Command} {index : Word} (valid : c.Valid)
    (h : c = .push .pointer index ∨ c = .pop .pointer index) : index.toNat ≤ 1 := by
  have ok := valid.check
  rcases h with rfl | rfl
  all_goals
    simp only [Command.check] at ok
    split at ok
    · assumption
    · cases ok

/-- A cell with an address of its own is found by one instruction. -/
theorem direct_block (cells : KnowsCells σ) {unit : String} {segment : Segment} {index : Word}
    {operand : Item} (direct : access unit index segment = .direct operand)
    (bound : segment = .pointer → index.toNat ≤ 1) :
    ∃ address, Block σ [operand] (fun core => { core with a := address }) ∧
      ∀ m, slot? (words σ) unit index m segment = some address := by
  cases segment with
  | temp =>
    cases direct
    refine ⟨_, literal_block _, fun m => ?_⟩
    rw [slot?, BitVec.ofNat_add, ofNat_toNat]
  | pointer =>
    cases direct
    refine ⟨_, cell_block cells _, fun m => ?_⟩
    have small := bound rfl
    have either : index = 0 ∨ index = 1 := by bv_omega
    rcases either with rfl | rfl <;> rfl
  | static =>
    cases direct
    exact ⟨_, symbol_block _, fun m => rfl⟩
  | _ => cases direct

theorem slot?_through {unit : String} {segment : Segment} {index : Word} {base : Cell}
    (through : access unit index segment = .through base) (m : Memory) :
    slot? (words σ) unit index m segment = some (m.cell base + index) := by
  cases segment with
  | locals | arguments | this | that =>
    cases through
    rfl
  | _ => cases through

/-- The word that a command pushes. -/
def pushed (σ : String → Nat) (unit : String) (segment : Segment) (index : Word) (m : Memory) :
    Word :=
  ((slot? (words σ) unit index m segment).map m.read).getD index

theorem push_block (cells : KnowsCells σ) {unit : String} {segment : Segment} {index : Word}
    (valid : (Command.push segment index).Valid) :
    Block σ (push unit segment index) fun core =>
      ⟨core.ram.push (pushed σ unit segment index core.ram), Cell.sp.word,
        pushed σ unit segment index core.ram⟩ := by
  have bound : segment = .pointer → index.toNat ≤ 1 := by
    rintro rfl
    exact pointer_bound valid (.inl rfl)
  unfold push
  cases ha : access unit index segment with
  | immediate =>
    obtain rfl : segment = .constant := by
      cases segment <;> first | rfl | cases ha
    refine ((Block.cons (literal_block _) (assign_block "D" "A")).append (pushD_block cells)).congr
      fun core => ?_
    change (⟨core.ram.push (BitVec.ofNat 16 index.toNat), _, BitVec.ofNat 16 index.toNat⟩ : Core) = _
    rw [ofNat_toNat]
    rfl
  | through base =>
    refine ((Block.cons (literal_block _) <| .cons (assign_block "D" "A") <|
      .cons (cell_block cells base) <| .cons (assign_block "A" "D+M") <|
        assign_block "D" "M").append (pushD_block cells)).congr fun core => ?_
    have value : pushed σ unit segment index core.ram =
        core.ram.read (BitVec.ofNat 16 index.toNat + core.ram.cell base) := by
      rw [pushed, slot?_through ha, ofNat_toNat, BitVec.add_comm index]
      rfl
    rw [value]
    rfl
  | direct operand =>
    obtain ⟨address, load, slot⟩ := direct_block cells ha bound
    refine ((load.cons (assign_block "D" "M")).append (pushD_block cells)).congr fun core => ?_
    have value : pushed σ unit segment index core.ram = core.ram.read address := by
      rw [pushed, slot core.ram]
      rfl
    rw [value]
    rfl

/-- The address of the cell is kept in `R13` while the word is taken off the stack. -/
theorem pop_block (cells : KnowsCells σ) {unit : String} {segment : Segment} {index : Word}
    (valid : (Command.pop segment index).Valid) (back : Word) :
    ∃ f, Block σ (pop unit segment index) f ∧ ∀ core, InStack (core.ram.cell .sp - 1) →
      (f core).ram.Agrees
        ((Command.pop segment index).effect (words σ) unit back core.ram) := by
  have bound : segment = .pointer → index.toNat ≤ 1 := by
    rintro rfl
    exact pointer_bound valid (.inr rfl)
  unfold pop
  cases ha : access unit index segment with
  | immediate =>
    obtain rfl : segment = .constant := by
      cases segment <;> first | rfl | cases ha
    cases valid.check
  | through base =>
    refine ⟨_, ((Block.cons (literal_block _) <| .cons (assign_block "D" "A") <|
      .cons (cell_block cells base) <| .cons (assign_block "D" "D+M") <|
        .cons (cell_block cells .r13) <| assign_block "M" "D").append (popD_block cells)).append
          (.cons (cell_block cells .r13) <| .cons (assign_block "A" "M") <| assign_block "M" "D"),
      fun core inside => ?_⟩
    let kept := core.ram.setCell .r13 (BitVec.ofNat 16 index.toNat + core.ram.cell base)
    change (kept.drop.write (kept.drop.cell .r13)
      (kept.drop.read (kept.cell .sp - 1))).Agrees _
    have agrees : kept.Agrees core.ram := (Memory.Agrees.refl _).scratch13 _
    have sp : kept.cell .sp = core.ram.cell .sp := agrees.cell (by decide)
    have address : kept.drop.cell .r13 = core.ram.cell base + index := by
      rw [Memory.cell_drop (by decide), Memory.cell_setCell_self, ofNat_toNat, BitVec.add_comm]
    rw [Memory.read_drop (sp ▸ inside), agrees.top inside, address, Command.effect,
      slot?_through ha]
    exact agrees.drop.write _ _
  | direct operand =>
    obtain ⟨address, load, slot⟩ := direct_block cells ha bound
    refine ⟨_, (popD_block cells).append (load.cons (assign_block "M" "D")), fun core inside => ?_⟩
    change (core.ram.drop.write address (core.ram.drop.read (core.ram.cell .sp - 1))).Agrees _
    rw [Memory.read_drop inside, Command.effect, slot core.ram]
    exact .refl _

/-! ## Operators -/

theorem binary_block (cells : KnowsCells σ) (comp : String) :
    Block σ (binary comp) fun core =>
      let y := core.ram.drop.read (core.ram.cell .sp - 1)
      let address := core.ram.cell .sp - 1 - 1
      ⟨core.ram.drop.write address (Hack.valueOf comp y address (core.ram.drop.read address)),
        address, y⟩ :=
  (popD_block cells).append <| .cons (assign_block "A" "A-1") <| assign_block "M" comp

theorem unary_block (cells : KnowsCells σ) (comp : String) :
    Block σ (unary comp) fun core =>
      let address := core.ram.cell .sp - 1
      ⟨core.ram.write address (Hack.valueOf comp core.d address (core.ram.read address)), address,
        core.d⟩ :=
  .cons (cell_block cells .sp) <| .cons (assign_block "A" "M-1") <| assign_block "M" comp

/-- The result of two operands takes the place of the first. -/
theorem binary_eq {m : Memory} (first : InStack (m.cell .sp - 1))
    (second : InStack (m.cell .sp - 2)) (f : Word → Word → Word) :
    m.drop.write (m.cell .sp - 1 - 1)
        (f (m.drop.read (m.cell .sp - 1 - 1)) (m.drop.read (m.cell .sp - 1))) =
      Operator.binary f m := by
  have below : m.cell .sp - 1 - 1 = m.cell .sp - 2 := BitVec.sub_sub _ 1 1
  have inside : InStack (m.drop.cell .sp - 1) := by rwa [Memory.sp_drop, below]
  have under : m.drop.top = m.drop.read (m.cell .sp - 1 - 1) := by
    rw [Memory.top, Memory.sp_drop]
  rw [Operator.binary, Memory.drop_push inside, Memory.sp_drop, Memory.read_drop first, under]

theorem unary_eq {m : Memory} (inside : InStack (m.cell .sp - 1)) (f : Word → Word) :
    m.write (m.cell .sp - 1) (f (m.read (m.cell .sp - 1))) = Operator.unary f m := by
  rw [Operator.unary, Memory.drop_push inside, Memory.top]

/-! ## Functions -/

theorem label_block (name : String) : Block σ [label name] id :=
  ⟨by simp [codeOf, label, Item.instruction?], fun _ => rfl⟩

theorem zeros_block (cells : KnowsCells σ) (n : Nat) :
    ∃ f, Block σ (List.replicate n pushD).flatten f ∧
      ∀ core, core.d = 0 → (f core).ram = core.ram.pushAll (List.replicate n 0) := by
  induction n with
  | zero => exact ⟨id, Block.nil, fun _ _ => rfl⟩
  | succ n ih =>
    obtain ⟨f, block, zeros⟩ := ih
    refine ⟨_, (pushD_block cells).append block, fun core zero => ?_⟩
    have pushed : core.ram.pushAll (List.replicate (n + 1) 0) =
        (core.ram.push core.d).pushAll (List.replicate n 0) := by rw [zero]; rfl
    rw [pushed]
    exact zeros ⟨core.ram.push core.d, Cell.sp.word, core.d⟩ zero

/-- `LCL` is set before the locals are pushed. -/
theorem function_block (cells : KnowsCells σ) (name : String) (locals : Word) :
    ∃ f, Block σ (function name locals) f ∧
      ∀ core, (f core).ram =
        (core.ram.setCell .lcl (core.ram.cell .sp)).pushAll (List.replicate locals.toNat 0) := by
  have front : Block σ [label name, cell .sp, assign "D" "M", cell .lcl, assign "M" "D"]
      fun core => ⟨core.ram.setCell .lcl (core.ram.cell .sp), Cell.lcl.word, core.ram.cell .sp⟩ :=
    .cons (label_block name) <| .cons (cell_block cells .sp) <| .cons (assign_block "D" "M") <|
      .cons (cell_block cells .lcl) <| assign_block "M" "D"
  by_cases none : locals = 0
  · subst none
    refine ⟨_, front.append Block.nil, fun core => rfl⟩
  · obtain ⟨f, zeros, pushes⟩ := zeros_block cells locals.toNat
    have rest := (assign_block "D" "0").cons zeros
    unfold function
    rw [if_neg none]
    exact ⟨_, front.append rest, fun core => pushes _ rfl⟩

theorem pushCell_block (cells : KnowsCells σ) (c : Cell) :
    Block σ (pushCell c) fun core =>
      ⟨core.ram.push (core.ram.cell c), Cell.sp.word, core.ram.cell c⟩ :=
  .append (.cons (cell_block cells c) <| assign_block "D" "M") (pushD_block cells)

/-- All of a call but the jump and the label behind it. -/
def callFront (name : String) (arguments : Word) (id : Nat) : List Item :=
  [symbol (returnLabel name id), assign "D" "A"] ++ pushD ++
    pushCell .lcl ++ pushCell .arg ++ pushCell .this ++ pushCell .that ++
    [cell .sp, assign "D" "M", literal (5 + arguments.toNat), assign "D" "D-A",
     cell .arg, assign "M" "D", cell .sp, assign "D" "M", cell .lcl, assign "M" "D", symbol name]

theorem call_eq (name : String) (arguments : Word) (id : Nat) :
    call name arguments id =
      (callFront name arguments id ++ [branch "0" "JMP"]) ++ [label (returnLabel name id)] := by
  simp [call, callFront]

/-- The label behind a call takes no word. -/
theorem codeOf_call (name : String) (arguments : Word) (id : Nat) :
    codeOf (call name arguments id) = codeOf (callFront name arguments id ++ [branch "0" "JMP"]) := by
  rw [call_eq, codeOf_append]
  exact List.append_nil _

def pushOf (c : Cell) (m : Memory) : Memory := m.push (m.cell c)

/-- What is pushed leaves the pointers alone that are pushed after it. -/
theorem pushFrame_eq {m : Memory} (back : Word) (room : Room (m.cell .sp) 5) :
    pushOf .that (pushOf .this (pushOf .arg (pushOf .lcl (m.push back)))) = pushFrame back m := by
  have pushed : ∀ vs : List Word, vs.length ≤ 5 → Memory.Pushed m vs (m.pushAll vs) :=
    fun vs short => Memory.pushed_pushAll (room.mono short)
  have lcl : (m.pushAll [back]).cell .lcl = m.cell .lcl :=
    (pushed _ (by simp)).cells .lcl (by decide)
  have arg : (m.pushAll [back, m.cell .lcl]).cell .arg = m.cell .arg :=
    (pushed _ (by simp)).cells .arg (by decide)
  have this : (m.pushAll [back, m.cell .lcl, m.cell .arg]).cell .this = m.cell .this :=
    (pushed _ (by simp)).cells .this (by decide)
  have that : (m.pushAll [back, m.cell .lcl, m.cell .arg, m.cell .this]).cell .that =
      m.cell .that :=
    (pushed _ (by simp)).cells .that (by decide)
  simp only [Memory.pushAll, List.foldl_cons, List.foldl_nil] at lcl arg this that
  simp only [pushOf, pushFrame, Memory.pushAll, List.foldl_cons, List.foldl_nil, lcl, arg, this,
    that]

theorem saves_block (cells : KnowsCells σ) (back : String) :
    Block σ ([symbol back, assign "D" "A"] ++ pushD ++ pushCell .lcl ++ pushCell .arg ++
      pushCell .this ++ pushCell .that) fun core =>
        let m := pushOf .this (pushOf .arg (pushOf .lcl (core.ram.push (words σ back))))
        ⟨pushOf .that m, Cell.sp.word, m.cell .that⟩ :=
  (((((symbol_block back).cons (assign_block "D" "A")).append (pushD_block cells)).append
    (pushCell_block cells .lcl)).append (pushCell_block cells .arg)).append
      (pushCell_block cells .this) |>.append (pushCell_block cells .that)

/-- `ARG` and `LCL` are set around the frame, and `A` to the callee. -/
theorem pointers_block (cells : KnowsCells σ) (name : String) (below : Nat) :
    Block σ [cell .sp, assign "D" "M", literal below, assign "D" "D-A", cell .arg, assign "M" "D",
        cell .sp, assign "D" "M", cell .lcl, assign "M" "D", symbol name] fun core =>
      let m := core.ram.setCell .arg (core.ram.cell .sp - BitVec.ofNat 16 below)
      ⟨m.setCell .lcl (m.cell .sp), words σ name, m.cell .sp⟩ :=
  .cons (cell_block cells .sp) <| .cons (assign_block "D" "M") <| .cons (literal_block below) <|
    .cons (assign_block "D" "D-A") <| .cons (cell_block cells .arg) <|
      .cons (assign_block "M" "D") <| .cons (cell_block cells .sp) <|
        .cons (assign_block "D" "M") <| .cons (cell_block cells .lcl) <|
          .cons (assign_block "M" "D") <| symbol_block name

theorem callFront_block (cells : KnowsCells σ) (name : String) (arguments : Word) (id : Nat) :
    ∃ f, Block σ (callFront name arguments id) f ∧ ∀ core,
      (f core).a = words σ name ∧
      (Room (core.ram.cell .sp) 5 → ∀ unit, (f core).ram =
        (Command.call name arguments).effect (words σ) unit
          (words σ (returnLabel name id)) core.ram) := by
  refine ⟨_, (saves_block cells (returnLabel name id)).append
    (pointers_block cells name (5 + arguments.toNat)), fun core => ⟨rfl, fun room unit => ?_⟩⟩
  have count : BitVec.ofNat 16 (5 + arguments.toNat) = 5 + arguments := by
    rw [BitVec.ofNat_add, ofNat_toNat]
    rfl
  have framed := pushFrame_eq (words σ (returnLabel name id)) room
  simp only [Function.comp_apply, framed, count]
  rw [Memory.cell_setCell_ne (by decide), Command.effect]

/-! ## Returning -/

/-- One pointer of the caller, with `R13` moved down to it. -/
def restored (c : Cell) (m : Memory) : Memory :=
  let moved := m.setCell .r13 (m.cell .r13 - 1)
  moved.setCell c (moved.read (m.cell .r13 - 1))

theorem restore_block (cells : KnowsCells σ) (c : Cell) :
    ∃ f, Block σ (restore c) f ∧ ∀ core, (f core).ram = restored c core.ram :=
  ⟨_, .cons (cell_block cells .r13) <| .cons (assign_block "AM" "M-1") <|
    .cons (assign_block "D" "M") <| .cons (cell_block cells c) <| assign_block "M" "D",
    fun _ => rfl⟩

/-- One pointer of the caller from its place. -/
def restoreOne (c : Cell) (frame : Word) (m : Memory) : Memory := m.setCell c (m.read frame)

/-- A return in progress: memory is as it is to be, `R13` stands in the frame and `R14` holds the
address to return to. -/
structure Returning (m n : Memory) (frame back : Word) : Prop where
  agrees : m.Agrees n
  frame : m.cell .r13 = frame
  back : m.cell .r14 = back

theorem Returning.restore {m n : Memory} {frame back : Word} (h : Returning m n frame back)
    {c : Cell} (other : c ≠ .r13 ∧ c ≠ .r14) (inside : InStack (frame - 1)) :
    Returning (restored c m) (restoreOne c (frame - 1) n) (frame - 1) back := by
  have agrees : (m.setCell .r13 (m.cell .r13 - 1)).Agrees n := h.agrees.scratch13 _
  have word : (m.setCell .r13 (m.cell .r13 - 1)).read (m.cell .r13 - 1) = n.read (frame - 1) := by
    rw [agrees.read (h.frame ▸ inside), h.frame]
  unfold restored restoreOne
  simp only [word]
  refine ⟨agrees.setCell c _, ?_, ?_⟩
  · rw [Memory.cell_setCell_ne other.1, Memory.cell_setCell_self, h.frame]
  · rw [Memory.cell_setCell_ne other.2, Memory.cell_setCell_ne (by decide), h.back]

/-- The frame and the address to return to are kept, and the result is put in place. -/
def resultFront : List Item :=
  [cell .lcl, assign "D" "M", cell .r13, assign "M" "D", literal 5, assign "A" "D-A",
   assign "D" "M", cell .r14, assign "M" "D"] ++ popD ++
    [cell .arg, assign "A" "M", assign "M" "D", cell .arg, assign "D" "M+1", cell .sp,
     assign "M" "D"]

/-- The memory with the result in place and `SP` behind it. -/
def resulted (m : Memory) : Memory :=
  (m.drop.write (m.cell .arg) m.top).setCell .sp (m.cell .arg + 1)

theorem returning_resulted {m : Memory} (top : InStack (m.cell .sp - 1))
    (arg : InStack (m.cell .arg)) (saved : InStack (m.cell .lcl - 5)) :
    let framed := m.setCell .r13 (m.cell .lcl)
    let kept := framed.setCell .r14 (framed.read (m.cell .lcl - 5))
    let placed := kept.drop.write (kept.drop.cell .arg) (kept.drop.read (kept.cell .sp - 1))
    Returning (placed.setCell .sp (placed.cell .arg + 1)) (resulted m) (m.cell .lcl)
      (m.read (m.cell .lcl - 5)) := by
  intro framed kept placed
  have agrees : kept.Agrees m := ((Memory.Agrees.refl m).scratch13 _).scratch14 _
  have sp : kept.cell .sp = m.cell .sp := agrees.cell (by decide)
  have first : kept.drop.cell .arg = m.cell .arg := by
    rw [agrees.drop.cell (by decide), Memory.cell_drop (by decide)]
  have word : kept.drop.read (kept.cell .sp - 1) = m.top := by
    rw [Memory.read_drop (sp ▸ top), agrees.top top]
  have same : placed = kept.drop.write (m.cell .arg) m.top := by rw [← first, ← word]
  have second : placed.cell .arg = m.cell .arg := by rw [same, Memory.cell_write arg, first]
  have scratch : ∀ c : Cell, c ≠ .sp → (placed.setCell .sp (placed.cell .arg + 1)).cell c =
      kept.cell c := by
    intro c ne
    rw [Memory.cell_setCell_ne (Ne.symm ne), same, Memory.cell_write arg, Memory.cell_drop ne]
  constructor
  · rw [second, same]
    exact (agrees.drop.write _ _).setCell .sp _
  · rw [scratch .r13 (by decide), Memory.cell_setCell_ne (by decide), Memory.cell_setCell_self]
  · rw [scratch .r14 (by decide), Memory.cell_setCell_self, Memory.read_setCell saved]

theorem resultFront_block (cells : KnowsCells σ) :
    ∃ f, Block σ resultFront f ∧ ∀ core, InStack (core.ram.cell .sp - 1) →
      InStack (core.ram.cell .arg) → InStack (core.ram.cell .lcl - 5) →
        Returning (f core).ram (resulted core.ram) (core.ram.cell .lcl)
          (core.ram.read (core.ram.cell .lcl - 5)) := by
  have keep := (cell_block cells .lcl).cons <| (assign_block "D" "M").cons <|
    (cell_block cells .r13).cons <| (assign_block "M" "D").cons <| (literal_block 5).cons <|
      (assign_block "A" "D-A").cons <| (assign_block "D" "M").cons <|
        (cell_block cells .r14).cons <| assign_block "M" "D"
  have put := (cell_block cells .arg).cons <| (assign_block "A" "M").cons <|
    (assign_block "M" "D").cons <| (cell_block cells .arg).cons <|
      (assign_block "D" "M+1").cons <| (cell_block cells .sp).cons <| assign_block "M" "D"
  exact ⟨_, (keep.append (popD_block cells)).append put,
    fun core top arg saved => returning_resulted top arg saved⟩

/-- All of a return but the jump. -/
def retFront : List Item :=
  resultFront ++ restore .that ++ restore .this ++ restore .arg ++ restore .lcl ++
    [cell .r14, assign "A" "M"]

theorem ret_eq : ret = retFront ++ [branch "0" "JMP"] := rfl

theorem sub_ones (frame : Word) :
    frame - 1 - 1 = frame - 2 ∧ frame - 1 - 1 - 1 = frame - 3 ∧
      frame - 1 - 1 - 1 - 1 = frame - 4 := by
  have two : frame - 1 - 1 = frame - 2 := BitVec.sub_sub frame 1 1
  have three : frame - 2 - 1 = frame - 3 := BitVec.sub_sub frame 2 1
  have four : frame - 3 - 1 = frame - 4 := BitVec.sub_sub frame 3 1
  simp only [two, three, four, and_self]

/-- What is restored first is not read again. -/
theorem restoreFrame_eq {frame : Word} {m : Memory}
    (inside : ∀ k < 5, InStack (frame - BitVec.ofNat 16 (k + 1))) :
    restoreOne .lcl (frame - 1 - 1 - 1 - 1) (restoreOne .arg (frame - 1 - 1 - 1)
      (restoreOne .this (frame - 1 - 1) (restoreOne .that (frame - 1) m))) =
        restoreFrame frame m := by
  obtain ⟨two, three, four⟩ := sub_ones frame
  have second : InStack (frame - 2) := inside 1 (by decide)
  have third : InStack (frame - 3) := inside 2 (by decide)
  have fourth : InStack (frame - 4) := inside 3 (by decide)
  rw [four, three, two]
  simp only [restoreOne, restoreFrame, Memory.read_setCell second,
    Memory.read_setCell third, Memory.read_setCell fourth]

theorem retFront_block (cells : KnowsCells σ) :
    ∃ f, Block σ retFront f ∧ ∀ core, (∀ x ∈ Command.touched core.ram .ret, InStack x) →
      (f core).a = core.ram.read (core.ram.cell .lcl - 5) ∧ ∀ unit back,
        (f core).ram.Agrees (Command.ret.effect (words σ) unit back core.ram) := by
  obtain ⟨start, startBlock, started⟩ := resultFront_block cells
  obtain ⟨that, thatBlock, thatRam⟩ := restore_block cells .that
  obtain ⟨this, thisBlock, thisRam⟩ := restore_block cells .this
  obtain ⟨arg, argBlock, argRam⟩ := restore_block cells .arg
  obtain ⟨lcl, lclBlock, lclRam⟩ := restore_block cells .lcl
  refine ⟨_, ((((startBlock.append thatBlock).append thisBlock).append argBlock).append
    lclBlock).append ((cell_block cells .r14).cons (assign_block "A" "M")),
      fun core touched => ?_⟩
  have frame : ∀ k < 5, InStack (core.ram.cell .lcl - BitVec.ofNat 16 (k + 1)) := by
    intro k hk
    apply touched
    simp only [Command.touched, List.mem_cons, List.mem_map, List.mem_range]
    exact .inr (.inr ⟨k, hk, rfl⟩)
  obtain ⟨two, three, four⟩ := sub_ones (core.ram.cell .lcl)
  have first := started core (touched _ (by simp [Command.touched]))
    (touched _ (by simp [Command.touched])) (frame 4 (by decide))
  have last := ((((first.restore (c := .that) (by decide) (frame 0 (by decide))).restore
    (c := .this) (by decide) (two ▸ frame 1 (by decide))).restore
      (c := .arg) (by decide) (three ▸ frame 2 (by decide))).restore
        (c := .lcl) (by decide) (four ▸ frame 3 (by decide)))
  rw [← thatRam, ← thisRam, ← argRam, ← lclRam] at last
  refine ⟨last.back, fun unit back => ?_⟩
  rw [Command.effect, ← restoreFrame_eq frame]
  exact last.agrees

end

end HackToolchain.Vm
