import HackToolchain.Proofs.Vm.Placement

/-!
# Calls and returns

* `framed_call`: a call saves the caller's pointers behind its stack and sets the callee's;
* `returned_ret`: whatever has happened since, a return finds them there;
* `call_then_return`: the code of a call leads to the callee, and from any later state in which
  the frame is as it was the code of a return leads behind the call.
-/

namespace HackToolchain

open Hack (Cell)

namespace Memory

/-- The memories differ at some of these addresses at most. -/
def DiffersAt (changed : List Word) (m n : Memory) : Prop :=
  ∀ x : Word, x.toNat < ramSize → x ∉ changed → m.read x = n.read x

section

variable {changed : List Word} {m n k : Memory}

theorem DiffersAt.refl (changed : List Word) (m : Memory) : DiffersAt changed m m :=
  fun _ _ _ => rfl

theorem DiffersAt.write (h : DiffersAt changed m n) {x : Word} (low : x.toNat < ramSize)
    (hx : x ∈ changed) (v : Word) : DiffersAt changed (m.write x v) n := by
  intro y hy other
  rw [read_write, Nat.mod_eq_of_lt low, Nat.mod_eq_of_lt hy, if_neg, h y hy other]
  intro same
  exact other (BitVec.eq_of_toNat_eq same ▸ hx)

theorem DiffersAt.setCell (h : DiffersAt changed m n) {c : Cell} (hc : c.word ∈ changed)
    (v : Word) : DiffersAt changed (m.setCell c v) n :=
  h.write (by cases c <;> decide) hc v

theorem Agrees.differsAt (h : m.Agrees n) (rest : DiffersAt changed n k)
    (first : Cell.r13.word ∈ changed) (second : Cell.r14.word ∈ changed) :
    DiffersAt changed m k := by
  have apart : ∀ {x : Word} {c : Cell}, x.toNat < ramSize → x ∉ changed → c.word ∈ changed →
      x.toNat % ramSize ≠ c.address := by
    intro x c low other there same
    rw [Nat.mod_eq_of_lt low, ← c.word_place, Nat.mod_eq_of_lt (by cases c <;> decide)] at same
    exact other (BitVec.eq_of_toNat_eq same ▸ there)
  intro x low other
  rw [h x (apart low other first) (apart low other second), rest x low other]

end

end Memory

namespace Vm

open Assembly (Program)
open CommandLine (SourceUnit)
open Machine (Reaches)
open Expansion

/-- What a call leaves to the callee: the frame that begins where the caller's stack has ended,
and the pointers around it. -/
structure Framed (caller : Memory) (arguments back : Word) (m : Memory) : Prop where
  back : m.read (caller.cell .sp) = back
  lcl : m.read (caller.cell .sp + 1) = caller.cell .lcl
  arg : m.read (caller.cell .sp + 2) = caller.cell .arg
  this : m.read (caller.cell .sp + 3) = caller.cell .this
  that : m.read (caller.cell .sp + 4) = caller.cell .that
  arguments : m.cell .arg = caller.cell .sp - arguments
  locals : m.cell .lcl = caller.cell .sp + 5

/-- The addresses that a call writes to. -/
def calling (s : Word) : List Word :=
  [Cell.sp.word, Cell.lcl.word, Cell.arg.word, s, s + 1, s + 2, s + 3, s + 4]

theorem differsAt_pushFrame {caller : Memory} (room : Room (caller.cell .sp) 5) (back : Word) :
    (pushFrame back caller).DiffersAt (calling (caller.cell .sp)) caller := by
  intro x low other
  have apart : ∀ y ∈ calling (caller.cell .sp), x.toNat % ramSize ≠ y.toNat := by
    intro y hy same
    rw [Nat.mod_eq_of_lt low] at same
    exact other (BitVec.eq_of_toNat_eq same ▸ hy)
  have pushed : caller.Pushed
      [back, caller.cell .lcl, caller.cell .arg, caller.cell .this, caller.cell .that]
        (pushFrame back caller) := Memory.pushed_pushAll room
  refine pushed.others x (apart Cell.sp.word (by simp [calling])) fun k hk => ?_
  rw [← room.toNat_add hk]
  apply apart
  obtain _ | _ | _ | _ | _ | k := k
  · simp [calling]
  · simp [calling]
  · simp [calling]
  · simp [calling]
  · simp [calling]
  · exact absurd hk (by simp)

theorem framed_call {caller : Memory} (room : Room (caller.cell .sp) 5) (name : String)
    (arguments : Word) (addressOf : String → Word) (unit : String) (back : Word) :
    let m := (Command.call name arguments).effect addressOf unit back caller
    Framed caller arguments back m ∧ m.cell .sp = caller.cell .sp + 5 ∧
      m.DiffersAt (calling (caller.cell .sp)) caller := by
  intro m
  let framed := pushFrame back caller
  have pushed : caller.Pushed
      [back, caller.cell .lcl, caller.cell .arg, caller.cell .this, caller.cell .that] framed :=
    Memory.pushed_pushAll room
  have sp : framed.cell .sp = caller.cell .sp + 5 := pushed.sp
  have saved : ∀ {k : Nat} {v : Word}, k < 5 →
      [back, caller.cell .lcl, caller.cell .arg, caller.cell .this, caller.cell .that][k]? =
        some v → m.read (caller.cell .sp + BitVec.ofNat 16 k) = v := by
    intro k v hk hv
    have inside := room k hk
    rw [← pushed.words k v hv]
    exact (Memory.read_setCell inside).trans (Memory.read_setCell inside)
  have first : m.cell .arg = caller.cell .sp - arguments := by
    have set : m.cell .arg = framed.cell .sp - (5 + arguments) :=
      (Memory.cell_setCell_ne (by decide)).trans (Memory.cell_setCell_self ..)
    rw [set, sp]
    bv_omega
  have last : m.cell .lcl = caller.cell .sp + 5 :=
    (Memory.cell_setCell_self ..).trans sp
  have top : m.cell .sp = caller.cell .sp + 5 :=
    ((Memory.cell_setCell_ne (by decide)).trans (Memory.cell_setCell_ne (by decide))).trans sp
  have start : m.read (caller.cell .sp) = back := by
    have there := saved (k := 0) (by decide) rfl
    rwa [BitVec.add_zero] at there
  refine ⟨⟨start, saved (k := 1) (by decide) rfl, saved (k := 2) (by decide) rfl,
    saved (k := 3) (by decide) rfl, saved (k := 4) (by decide) rfl, first, last⟩, top, ?_⟩
  have frame := differsAt_pushFrame room back
  exact (frame.setCell (by simp [calling]) _).setCell (by simp [calling]) _

/-- The addresses that a return writes to. -/
def returning (first : Word) : List Word :=
  [Cell.sp.word, Cell.lcl.word, Cell.arg.word, Cell.this.word, Cell.that.word, Cell.r13.word,
    Cell.r14.word, first]

/-- The caller's stack with the top of the callee's in place of the arguments, and the caller's
pointers. -/
structure Returned (caller : Memory) (arguments : Word) (callee m : Memory) : Prop where
  sp : m.cell .sp = caller.cell .sp - arguments + 1
  result : m.read (caller.cell .sp - arguments) = callee.top
  lcl : m.cell .lcl = caller.cell .lcl
  arg : m.cell .arg = caller.cell .arg
  this : m.cell .this = caller.cell .this
  that : m.cell .that = caller.cell .that
  others : m.DiffersAt (returning (caller.cell .sp - arguments)) callee

theorem Returned.of_agrees {caller callee m n : Memory} {arguments : Word}
    (returned : Returned caller arguments callee m) (agrees : n.Agrees m)
    (first : InStack (caller.cell .sp - arguments)) : Returned caller arguments callee n where
  sp := (agrees.cell (by decide)).trans returned.sp
  result := (agrees.read first).trans returned.result
  lcl := (agrees.cell (by decide)).trans returned.lcl
  arg := (agrees.cell (by decide)).trans returned.arg
  this := (agrees.cell (by decide)).trans returned.this
  that := (agrees.cell (by decide)).trans returned.that
  others := agrees.differsAt returned.others (by simp [returning]) (by simp [returning])

/-! ## Frames in memory -/

theorem cells_restoreFrame (frame : Word) (m : Memory) :
    let n := restoreFrame frame m
    n.cell .sp = m.cell .sp ∧ n.cell .lcl = m.read (frame - 4) ∧
      n.cell .arg = m.read (frame - 3) ∧ n.cell .this = m.read (frame - 2) ∧
      n.cell .that = m.read (frame - 1) := by
  simp (disch := decide) only [restoreFrame, Memory.cell_setCell_self, Memory.cell_setCell_ne,
    and_self]

theorem read_restoreFrame {x : Word} (inside : InStack x) (frame : Word) (m : Memory) :
    (restoreFrame frame m).read x = m.read x := by
  simp only [restoreFrame, Memory.read_setCell inside]

theorem read_resulted {m : Memory} {x : Word} (arg : InStack (m.cell .arg)) (inside : InStack x)
    (apart : m.cell .arg ≠ x) : (resulted m).read x = m.read x := by
  rw [resulted, Memory.read_setCell inside, Memory.read_write_ne arg inside apart, Memory.drop,
    Memory.read_setCell inside]

section

variable {caller m : Memory} {arguments back : Word}

theorem room_of_high (low : Hack.stackBase ≤ (caller.cell .sp).toNat)
    (high : (caller.cell .sp).toNat ≤ 32763) : Room (caller.cell .sp) 5 := by
  intro k hk
  have base : Hack.stackBase = 256 := rfl
  have size : ramSize = 32768 := rfl
  have sum : (caller.cell .sp + BitVec.ofNat 16 k).toNat = (caller.cell .sp).toNat + k := by
    rw [BitVec.toNat_add, BitVec.toNat_ofNat]
    omega
  constructor <;> omega

/-- The first argument lies on the caller's stack, or where the frame begins. -/
theorem first_inStack (low : Hack.stackBase + arguments.toNat ≤ (caller.cell .sp).toNat)
    (high : (caller.cell .sp).toNat ≤ 32763) : InStack (caller.cell .sp - arguments) := by
  have base : Hack.stackBase = 256 := rfl
  have size : ramSize = 32768 := rfl
  have difference : (caller.cell .sp - arguments).toNat =
      (caller.cell .sp).toNat - arguments.toNat :=
    BitVec.toNat_sub_of_le (by rw [BitVec.le_def]; omega)
  constructor <;> omega

/-- The frame seen from its end. -/
theorem Framed.below (framed : Framed caller arguments back m) {k : Nat} (hk : k < 5) :
    m.cell .lcl - BitVec.ofNat 16 (k + 1) = caller.cell .sp + BitVec.ofNat 16 (4 - k) := by
  rw [framed.locals]
  obtain _ | _ | _ | _ | _ | k := k
  all_goals bv_omega

/-- The addresses that a return uses, with the frame and the top of the stack in range. -/
theorem touched_ret (framed : Framed caller arguments back m)
    (low : Hack.stackBase + arguments.toNat ≤ (caller.cell .sp).toNat)
    (high : (caller.cell .sp).toNat ≤ 32763) (top : InStack (m.cell .sp - 1)) :
    ∀ x ∈ Command.touched m .ret, InStack x := by
  intro x hx
  simp only [Command.touched, List.mem_cons, List.mem_map, List.mem_range] at hx
  rcases hx with rfl | rfl | ⟨k, hk, rfl⟩
  · exact top
  · rw [framed.arguments]
    exact first_inStack low high
  · rw [framed.below hk]
    exact room_of_high (by omega) high _ (by omega)

/-- The pointers in the frame are not where the result is put. -/
theorem saved_resulted (framed : Framed caller arguments back m)
    (low : Hack.stackBase + arguments.toNat ≤ (caller.cell .sp).toNat)
    (high : (caller.cell .sp).toNat ≤ 32763) {k : Nat} (hk : k < 4) :
    (resulted m).read (m.cell .lcl - BitVec.ofNat 16 (k + 1)) =
      m.read (caller.cell .sp + BitVec.ofNat 16 (4 - k)) := by
  have room := room_of_high (by omega) high
  have first := first_inStack low high
  have inside : InStack (caller.cell .sp + BitVec.ofNat 16 (4 - k)) := room _ (by omega)
  rw [framed.below (by omega)]
  refine read_resulted (framed.arguments ▸ first) inside ?_
  rw [framed.arguments]
  intro same
  have above := room.toNat_add (k := 4 - k) (by omega)
  rw [← same, BitVec.toNat_sub_of_le (by rw [BitVec.le_def]; omega)] at above
  omega

/-- **A return finds what the call has saved.** The result may take the place of the return
address, which is read before; the pointers lie behind it. -/
theorem returned_ret (framed : Framed caller arguments back m)
    (low : Hack.stackBase + arguments.toNat ≤ (caller.cell .sp).toNat)
    (high : (caller.cell .sp).toNat ≤ 32763) (addressOf : String → Word) (unit : String)
    (following : Word) :
    m.read (m.cell .lcl - 5) = back ∧
      Returned caller arguments m (Command.ret.effect addressOf unit following m) := by
  have first : InStack (caller.cell .sp - arguments) := first_inStack low high
  have start : m.read (m.cell .lcl - 5) = back := by
    have place : m.cell .lcl - 5 = caller.cell .sp + BitVec.ofNat 16 (4 - 4) :=
      framed.below (k := 4) (by decide)
    rw [← framed.back, place, BitVec.add_zero]
  have saved {k : Nat} (hk : k < 4) := saved_resulted framed low high hk
  obtain ⟨sp, lcl, arg, this, that⟩ := cells_restoreFrame (m.cell .lcl) (resulted m)
  have result : (resulted m).read (caller.cell .sp - arguments) = m.top := by
    rw [resulted, Memory.read_setCell first, framed.arguments, Memory.read_write_self]
  have placed : (resulted m).DiffersAt (returning (caller.cell .sp - arguments)) m := by
    rw [resulted, framed.arguments]
    exact (((Memory.DiffersAt.refl _ m).setCell (by simp [returning]) _).write first.high
      (by simp [returning]) _).setCell (by simp [returning]) _
  refine ⟨start, ?_, (read_restoreFrame first _ _).trans result, ?_, ?_, ?_, ?_, ?_⟩
  · rw [← framed.arguments]
    exact sp.trans (Memory.cell_setCell_self ..)
  · exact lcl.trans ((saved (k := 3) (by decide)).trans framed.lcl)
  · exact arg.trans ((saved (k := 2) (by decide)).trans framed.arg)
  · exact this.trans ((saved (k := 1) (by decide)).trans framed.this)
  · exact that.trans ((saved (k := 0) (by decide)).trans framed.that)
  · exact (((placed.setCell (by simp [returning]) _).setCell (by simp [returning]) _).setCell
      (by simp [returning]) _).setCell (by simp [returning]) _

end

/-! ## Calls and returns of a program -/

section

variable {entry : Option String} {units : List SourceUnit} {p : Program}
  {front back front' back' : List Placed} {unit unit' name : String} {arguments : Word}

/-- The code of a call leads to its function, with the frame on the stack. -/
theorem call_enters (built : Built entry units p) (short : p.words.length ≤ romSize)
    (calls : program entry units = front ++ (unit, .call name arguments) :: back)
    (named : IsIdentifier name)
    (once : (Assembly.labelNames (Built.source entry units)).count
      (returnLabel name (countersAfter ⟨0, 0⟩ front).calls) = 1)
    (core : Core) (room : Room (core.ram.cell .sp) 5) :
    let behind := place (startOf entry (front ++ [(unit, .call name arguments)]))
    ∃ (address : Nat) (entered : Core), p.symbols.address? name = some address ∧
      Reaches (core.machine (romOf (Built.source entry units)) (place (startOf entry front)))
        (entered.machine (romOf (Built.source entry units)) (place address)) ∧
      Framed core.ram arguments behind entered.ram ∧
      entered.ram.cell .sp = core.ram.cell .sp + 5 ∧
      entered.ram.DiffersAt (calling (core.ram.cell .sp)) core.ram := by
  intro behind
  let id := (countersAfter ⟨0, 0⟩ front).calls
  have plain := (call_emitted named arguments id).plain isPlainUnit_empty
  have used : symbol name ∈ call name arguments id := by simp [call]
  obtain ⟨address, bound⟩ := built.address?_of_here calls plain used
  obtain ⟨entered, reach, ram⟩ :=
    call_reach (built.holds short) built.cells (built.here calls plain) core room
  have back : words (Built.addresses entry units) (returnLabel name id) = behind := by
    have whole : behind = place (startOf entry front +
        (codeOf (callFront name arguments id ++ [branch "0" "JMP"])).length) := by
      rw [← codeOf_call]
      exact congrArg place (startOf_concat entry front unit (.call name arguments))
    rw [whole]
    exact built.words_of_own calls (call_eq name arguments id) once
      (plain_label (named.returnLabel id)) (generated_unknown (.back name id))
  rw [built.words_of_address bound] at reach
  have memory := ram unit
  rw [back] at memory
  obtain ⟨framed, sp, others⟩ := framed_call room name arguments
    (words (Built.addresses entry units)) unit behind
  rw [← memory] at framed sp others
  exact ⟨address, entered, bound, reach, framed, sp, others⟩

/-- The code of a return leads to where the frame says, with the pointers of the caller. -/
theorem ret_leaves (built : Built entry units p) (short : p.words.length ≤ romSize)
    (returns : program entry units = front' ++ (unit', .ret) :: back') {caller : Memory}
    {behind : Word} (low : Hack.stackBase + arguments.toNat ≤ (caller.cell .sp).toNat)
    (high : (caller.cell .sp).toNat ≤ 32763) (core : Core)
    (framed : Framed caller arguments behind core.ram)
    (top : InStack (core.ram.cell .sp - 1)) :
    ∃ returned : Core,
      Reaches (core.machine (romOf (Built.source entry units)) (place (startOf entry front')))
        (returned.machine (romOf (Built.source entry units)) behind) ∧
      Returned caller arguments core.ram returned.ram := by
  have touched := touched_ret framed low high top
  have plain : AllPlain ret := (ret_emitted (c := .ret)).plain isPlainUnit_empty
  obtain ⟨returned, reach, ram⟩ :=
    ret_reach (built.holds short) built.cells (built.here returns plain) core touched
  obtain ⟨start, result⟩ := returned_ret framed low high
    (words (Built.addresses entry units)) unit' behind
  rw [start] at reach
  exact ⟨returned, reach, result.of_agrees (ram unit' behind) (first_inStack low high)⟩

/-- **A callee may do anything but touch the frame.** The code of a call leads to its function
with the frame on the stack. From there, whatever the machine has done, the code of any return
leads behind the call with the pointers of the caller. The hypothesis `named` is about the
bootstrap's own call alone: the name in a command `call f n` that was read is an identifier
(`Command.parse_valid`), so every such call meets it; the name of the entry function, which only the
bootstrap calls unread, has not been checked by the translator. -/
theorem call_then_return (built : Built entry units p) {m₀ loaded : Machine}
    (load : m₀.load hack p.toText = .ok loaded)
    (calls : program entry units = front ++ (unit, .call name arguments) :: back)
    (returns : program entry units = front' ++ (unit', .ret) :: back')
    (named : name ∈ entry → IsIdentifier name)
    (once : (Assembly.labelNames (Built.source entry units)).count
      (returnLabel name (countersAfter ⟨0, 0⟩ front).calls) = 1)
    {caller : Machine} (rom : caller.rom = loaded.rom)
    (pc : caller.pc = place (startOf entry front))
    (low : Hack.stackBase + arguments.toNat ≤ (caller.ram.cell .sp).toNat)
    (high : (caller.ram.cell .sp).toNat ≤ 32763) :
    let behind := place (startOf entry (front ++ [(unit, .call name arguments)]))
    (∃ address entered, p.symbols.address? name = some address ∧ Reaches caller entered ∧
      entered.rom = loaded.rom ∧ entered.pc = place address ∧
      Framed caller.ram arguments behind entered.ram ∧
      entered.ram.cell .sp = caller.ram.cell .sp + 5 ∧
      entered.ram.DiffersAt (calling (caller.ram.cell .sp)) caller.ram) ∧
    ∀ callee : Machine, callee.rom = loaded.rom → callee.pc = place (startOf entry front') →
      Framed caller.ram arguments behind callee.ram →
      257 ≤ (callee.ram.cell .sp).toNat → (callee.ram.cell .sp).toNat ≤ 32768 →
      ∃ returned, Reaches callee returned ∧ returned.rom = loaded.rom ∧ returned.pc = behind ∧
        Returned caller.ram arguments callee.ram returned.ram := by
  intro behind
  obtain ⟨image, short⟩ := rom_of_load built.means load
  have identifier : IsIdentifier name := by
    have member : (unit, .call name arguments) ∈ program entry units := by simp [calls]
    rcases valid_or_entry member with valid | ⟨callee, there, same⟩
    · exact valid.named name rfl
    · obtain ⟨rfl, -⟩ := Command.call.inj same
      exact named there
  constructor
  · have room : Room (caller.ram.cell .sp) 5 := room_of_high (by omega) high
    obtain ⟨address, entered, bound, reach, framed⟩ :=
      call_enters built short calls identifier once ⟨caller.ram, caller.a, caller.d⟩ room
    rw [Core.machine_eq (rom.trans image) pc] at reach
    exact ⟨address, _, bound, reach, image.symm, rfl, framed⟩
  · intro callee rom' pc' framed positive small
    have top : InStack (callee.ram.cell .sp - 1) := by
      have base : Hack.stackBase = 256 := rfl
      have size : ramSize = 32768 := rfl
      constructor <;> bv_omega
    obtain ⟨returned, reach, result⟩ :=
      ret_leaves built short returns low high ⟨callee.ram, callee.a, callee.d⟩ framed top
    rw [Core.machine_eq (rom'.trans image) pc'] at reach
    exact ⟨_, reach, image.symm, rfl, result⟩

end

theorem call_then_return_answering :
    ∃ (p : Program) (caller entered callee returned : Machine) (back : Word),
      Built none [answering] p ∧ Reaches caller entered ∧ Framed caller.ram 1 back entered.ram ∧
      Framed caller.ram 1 back callee.ram ∧ Reaches callee returned ∧ returned.pc = back ∧
      Returned caller.ram 1 callee.ram returned.ram := by
  obtain ⟨p, built, size⟩ := answering_built
  have load := load_of_means built.means (by rw [size]; decide) .initial
  have calls : program none [answering] = [("Main", .push .constant 7)] ++
      ("Main", .call "Main.same" 1) :: (program none [answering]).drop 2 := by decide +kernel
  have returns : program none [answering] =
      (program none [answering]).take 6 ++ ("Main", .ret) :: [] := by decide +kernel
  let caller : Machine :=
    ⟨romOf (Built.source none [answering]), Memory.zero.setCell .sp 257, 0, 0,
      place (startOf none [("Main", .push .constant 7)])⟩
  have sp : caller.ram.cell .sp = 257 := Memory.cell_setCell_self ..
  obtain ⟨⟨address, entered, -, called, -, -, framed, behind, -⟩, answers⟩ :=
    call_then_return built load calls returns nofun (by decide +kernel)
      (show caller.rom = _ from rfl) rfl (by rw [sp]; decide) (by rw [sp]; decide)
  let callee : Machine :=
    { entered with
      rom := romOf (Built.source none [answering])
      pc := place (startOf none ((program none [answering]).take 6)) }
  have top : callee.ram.cell .sp = 262 := by
    change entered.ram.cell .sp = 262
    rw [behind, sp]
    rfl
  obtain ⟨returned, back, -, pc, result⟩ :=
    answers callee rfl rfl framed (by rw [top]; decide) (by rw [top]; decide)
  exact ⟨p, caller, entered, callee, returned, _, built, called, framed, framed, back, pc, result⟩

end Vm

end HackToolchain
