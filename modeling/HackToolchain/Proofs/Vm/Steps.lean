import HackToolchain.Proofs.Vm.Blocks
import HackToolchain.Proofs.Vm.Labels

/-!
# Running the code of one command

* `OwnLabels`: the labels made up for a command lead to their lines in its code;
* `statements_reach`: from its first word the code of a command reaches the place where the
  program goes on, with the memory that the command means.
-/

namespace HackToolchain.Vm

open Assembly (Instruction)
open Hack (Cell)
open Machine (Reaches)
open Expansion

section

variable {rom : Array Decoded} {σ : String → Nat} {code is js : List Instruction} {k : Nat}

theorem prefix_front (here : is ++ js <+: code.drop k) : is <+: code.drop k :=
  (List.prefix_append is js).trans here

theorem prefix_back (here : is ++ js <+: code.drop k) : js <+: code.drop (k + is.length) := by
  obtain ⟨tail, split⟩ := here
  refine ⟨tail, ?_⟩
  rw [← List.drop_drop, ← split, List.append_assoc, List.drop_left]

theorem getElem?_of_here {i : Instruction} (here : i :: js <+: code.drop k) :
    code[k]? = some i := by
  obtain ⟨tail, split⟩ := here
  rw [← Nat.add_zero k, ← List.getElem?_drop, ← split]
  rfl

/-- Each label made up for a command leads to the place of its line. -/
def OwnLabels (σ : String → Nat) (unit : String) (n : Counters) (c : Command) (k : Nat) : Prop :=
  ∀ g ∈ c.generated n, ∀ front back, c.statements unit n = front ++ label g.text :: back →
    words σ g.text = place (k + (codeOf front).length)

/-! ## Jumps -/

theorem reaches_goto (holds : Holds rom σ code) (here : codeOf [branch "0" "JMP"] <+: code.drop k)
    (core : Core) : Reaches (core.machine rom (place k)) (core.machine rom core.a) :=
  reaches_jump holds (getElem?_of_here here) core

theorem reaches_branch {jump : String} (holds : Holds rom σ code)
    (here : codeOf [branch "D" jump] <+: code.drop k) (core : Core) :
    Reaches (core.machine rom (place k))
      (core.machine rom (if Hack.taken jump core.d then core.a else place (k + 1))) :=
  reaches_jump holds (getElem?_of_here here) core

/-! ## Comparisons -/

/-- The operands of a comparison are taken off, and their difference is looked at. -/
def compareFront (no : String) : List Item :=
  popD ++ [assign "A" "A-1", assign "D" "M-D", symbol no]

theorem compareFront_block (cells : KnowsCells σ) (no : String) :
    Block σ (compareFront no) fun core =>
      let y := core.ram.drop.read (core.ram.cell .sp - 1)
      ⟨core.ram.drop, words σ no, core.ram.drop.read (core.ram.cell .sp - 1 - 1) - y⟩ :=
  (popD_block cells).append <| .cons (assign_block "A" "A-1") <| .cons (assign_block "D" "M-D") <|
    symbol_block no

theorem compare_code (name skip : String) (id : Nat) :
    codeOf (Expansion.compare name skip id) =
      codeOf (compareFront (noLabel name id)) ++ (codeOf [branch "D" skip] ++
        (codeOf (unary "-1" ++ [symbol (doneLabel name id)]) ++ (codeOf [branch "0" "JMP"] ++
          codeOf (unary "0")))) :=
  rfl

theorem compare_reach (holds : Holds rom σ code) (cells : KnowsCells σ) {name skip : String}
    {id : Nat} (here : codeOf (Expansion.compare name skip id) <+: code.drop k)
    (no : words σ (noLabel name id) = place (k + 12))
    (done : words σ (doneLabel name id) = place (k + 15)) (core : Core) :
    ∃ core' : Core, Reaches (core.machine rom (place k)) (core'.machine rom (place (k + 15))) ∧
      core'.ram = core.ram.drop.write (core.ram.cell .sp - 1 - 1)
        (truth !Hack.taken skip (core.ram.drop.read (core.ram.cell .sp - 1 - 1) -
          core.ram.drop.read (core.ram.cell .sp - 1))) := by
  rw [compare_code] at here
  let difference := core.ram.drop.read (core.ram.cell .sp - 1 - 1) -
    core.ram.drop.read (core.ram.cell .sp - 1)
  let looked : Core := ⟨core.ram.drop, words σ (noLabel name id), difference⟩
  have front : Reaches (core.machine rom (place k)) (looked.machine rom (place (k + 6))) :=
    (compareFront_block cells _).reaches holds (prefix_front here) core
  have second := prefix_back here
  have third := prefix_back second
  have fourth := prefix_back third
  have last := prefix_back fourth
  have branch : Reaches (looked.machine rom (place (k + 6)))
      (looked.machine rom (if Hack.taken skip difference then words σ (noLabel name id)
        else place (k + 7))) :=
    reaches_branch holds (prefix_front second) looked
  have sp : looked.ram.cell .sp - 1 = core.ram.cell .sp - 1 - 1 := by
    rw [Memory.sp_drop]
  cases fails : Hack.taken skip difference with
  | true =>
    rw [fails, if_pos rfl, no] at branch
    have zero := (unary_block cells "0").reaches holds last looked
    refine ⟨_, (front.trans branch).trans zero, ?_⟩
    rw [← sp]
    rfl
  | false =>
    rw [fails, if_neg Bool.false_ne_true] at branch
    let said : Core :=
      ⟨looked.ram.write (looked.ram.cell .sp - 1) (-1), words σ (doneLabel name id), difference⟩
    have minus : Reaches (looked.machine rom (place (k + 7))) (said.machine rom (place (k + 11))) :=
      ((unary_block cells "-1").append (symbol_block (doneLabel name id))).reaches holds
        (prefix_front third) looked
    have leave : Reaches (said.machine rom (place (k + 11)))
        (said.machine rom (words σ (doneLabel name id))) :=
      reaches_goto holds (prefix_front fourth) said
    rw [done] at leave
    refine ⟨said, ((front.trans branch).trans minus).trans leave, ?_⟩
    rw [← sp]
    rfl

theorem toInt_sub_eq_zero {x y : Word} : (x - y).toInt = 0 ↔ x = y := by
  rw [← BitVec.toInt_zero (w := 16), BitVec.toInt_inj]
  exact ⟨fun h => by bv_omega, fun h => by bv_omega⟩

theorem eq_of_not_jne (x y : Word) : decide (x = y) = !Hack.taken "JNE" (x - y) := by
  have taken : Hack.taken "JNE" (x - y) = decide ((x - y).toInt ≠ 0) := rfl
  simp only [taken, ne_eq, toInt_sub_eq_zero, decide_not, Bool.not_not]

theorem lt_of_not_jge (x y : Word) :
    decide ((x - y).toInt < 0) = !Hack.taken "JGE" (x - y) := by
  have taken : Hack.taken "JGE" (x - y) = decide (0 ≤ (x - y).toInt) := rfl
  rw [taken, Bool.eq_iff_iff]
  simp

theorem gt_of_not_jle (x y : Word) :
    decide (0 < (x - y).toInt) = !Hack.taken "JLE" (x - y) := by
  have taken : Hack.taken "JLE" (x - y) = decide ((x - y).toInt ≤ 0) := rfl
  rw [taken, Bool.eq_iff_iff]
  simp

/-! ## Operators -/

theorem binary_reach (holds : Holds rom σ code) (cells : KnowsCells σ) {comp : String}
    {f : Word → Word → Word} (computes : ∀ d a m, Hack.valueOf comp d a m = f m d)
    (here : codeOf (binary comp) <+: code.drop k) {core : Core}
    (first : InStack (core.ram.cell .sp - 1)) (second : InStack (core.ram.cell .sp - 2)) :
    ∃ core' : Core, Reaches (core.machine rom (place k))
        (core'.machine rom (place (k + (codeOf (binary comp)).length))) ∧
      core'.ram = Operator.binary f core.ram := by
  refine ⟨_, (binary_block cells comp).reaches holds here core, ?_⟩
  simp only [computes]
  exact binary_eq first second f

theorem unary_reach (holds : Holds rom σ code) (cells : KnowsCells σ) {comp : String}
    {f : Word → Word} (computes : ∀ d a m, Hack.valueOf comp d a m = f m)
    (here : codeOf (unary comp) <+: code.drop k) {core : Core}
    (inside : InStack (core.ram.cell .sp - 1)) :
    ∃ core' : Core, Reaches (core.machine rom (place k))
        (core'.machine rom (place (k + (codeOf (unary comp)).length))) ∧
      core'.ram = Operator.unary f core.ram := by
  refine ⟨_, (unary_block cells comp).reaches holds here core, ?_⟩
  simp only [computes]
  exact unary_eq inside f

/-- A comparison with its own labels decides by the jump that is not taken. -/
theorem decision_reach (holds : Holds rom σ code) (cells : KnowsCells σ) {name skip : String}
    {op : Operator} (capitals : op.capitals? = some name)
    (expands : ∀ id, operate id op = Expansion.compare name skip id) {d : Word → Word → Bool}
    (decides : ∀ x y, d x y = !Hack.taken skip (x - y)) {unit : String} {n : Counters}
    (here : codeOf (operate n.comparisons op) <+: code.drop k)
    (own : OwnLabels σ unit n (.operate op) k) {core : Core}
    (first : InStack (core.ram.cell .sp - 1)) (second : InStack (core.ram.cell .sp - 2)) :
    ∃ core' : Core, Reaches (core.machine rom (place k))
        (core'.machine rom (place (k + (codeOf (operate n.comparisons op)).length))) ∧
      core'.ram = Operator.binary (fun x y => truth (d x y)) core.ram := by
  have made : (Command.operate op).generated n =
      [.no name n.comparisons, .done name n.comparisons] := by
    simp only [Command.generated, capitals]
  have lines : (Command.operate op).statements unit n =
      Expansion.compare name skip n.comparisons := expands n.comparisons
  have no : words σ (noLabel name n.comparisons) = place (k + 12) :=
    own (.no name n.comparisons) (by simp [made])
      (compareFront (noLabel name n.comparisons) ++ [branch "D" skip] ++ unary "-1" ++
        [symbol (doneLabel name n.comparisons), branch "0" "JMP"])
      (unary "0" ++ [label (doneLabel name n.comparisons)]) lines
  have done : words σ (doneLabel name n.comparisons) = place (k + 15) :=
    own (.done name n.comparisons) (by simp [made])
      (compareFront (noLabel name n.comparisons) ++ [branch "D" skip] ++ unary "-1" ++
        [symbol (doneLabel name n.comparisons), branch "0" "JMP",
          label (noLabel name n.comparisons)] ++ unary "0") [] lines
  rw [expands] at here ⊢
  obtain ⟨core', reach, ram⟩ := compare_reach holds cells here no done core
  refine ⟨core', reach, ram.trans ?_⟩
  simp only [decides]
  exact binary_eq first second fun x y => truth !Hack.taken skip (x - y)

theorem operate_reach (holds : Holds rom σ code) (cells : KnowsCells σ) {op : Operator}
    {unit : String} {n : Counters} (here : codeOf (operate n.comparisons op) <+: code.drop k)
    (own : OwnLabels σ unit n (.operate op) k) {core : Core}
    (touched : ∀ x ∈ Command.touched core.ram (.operate op), InStack x) :
    ∃ core' : Core, Reaches (core.machine rom (place k))
        (core'.machine rom (place (k + (codeOf (operate n.comparisons op)).length))) ∧
      core'.ram = op.effect core.ram := by
  have first : InStack (core.ram.cell .sp - 1) := by
    apply touched
    cases op <;> simp [Command.touched, Operator.operands, List.range_succ]
  have second : op.operands = 2 → InStack (core.ram.cell .sp - 2) := by
    intro two
    apply touched
    simp [Command.touched, two, List.range_succ]
  cases op with
  | add =>
    have computes : ∀ d a m, Hack.valueOf "D+M" d a m = m + d := fun d _ m => BitVec.add_comm d m
    exact binary_reach (f := (· + ·)) holds cells computes here first (second rfl)
  | sub =>
    have computes : ∀ d a m, Hack.valueOf "M-D" d a m = m - d := fun _ _ _ => rfl
    exact binary_reach (f := (· - ·)) holds cells computes here first (second rfl)
  | and =>
    have computes : ∀ d a m, Hack.valueOf "D&M" d a m = m &&& d :=
      fun d _ m => BitVec.and_comm d m
    exact binary_reach (f := (· &&& ·)) holds cells computes here first (second rfl)
  | or =>
    have computes : ∀ d a m, Hack.valueOf "D|M" d a m = m ||| d := fun d _ m => BitVec.or_comm d m
    exact binary_reach (f := (· ||| ·)) holds cells computes here first (second rfl)
  | neg =>
    have computes : ∀ d a m, Hack.valueOf "-M" d a m = -m := fun _ _ _ => rfl
    exact unary_reach (f := (- ·)) holds cells computes here first
  | not =>
    have computes : ∀ d a m, Hack.valueOf "!M" d a m = ~~~m := fun _ _ _ => rfl
    exact unary_reach (f := (~~~ ·)) holds cells computes here first
  | eq =>
    exact decision_reach holds cells rfl (fun _ => rfl) eq_of_not_jne here own first (second rfl)
  | lt =>
    exact decision_reach holds cells rfl (fun _ => rfl) lt_of_not_jge here own first (second rfl)
  | gt =>
    exact decision_reach holds cells rfl (fun _ => rfl) gt_of_not_jle here own first (second rfl)

/-! ## Commands that jump -/

theorem ifGoto_reach (holds : Holds rom σ code) (cells : KnowsCells σ) {name : String}
    (here : codeOf (popD ++ [symbol name, branch "D" "JLT"]) <+: code.drop k) (core : Core)
    (inside : InStack (core.ram.cell .sp - 1)) :
    ∃ core' : Core, Reaches (core.machine rom (place k))
        (core'.machine rom (if core.ram.top.toInt < 0 then words σ name else place (k + 5))) ∧
      core'.ram = core.ram.drop := by
  have parts : codeOf (popD ++ [symbol name]) ++ codeOf [branch "D" "JLT"] <+: code.drop k := here
  let popped : Core :=
    ⟨core.ram.drop, words σ name, core.ram.drop.read (core.ram.cell .sp - 1)⟩
  have front : Reaches (core.machine rom (place k)) (popped.machine rom (place (k + 4))) :=
    ((popD_block cells).append (symbol_block name)).reaches holds (prefix_front parts) core
  have leave : Reaches (popped.machine rom (place (k + 4)))
      (popped.machine rom (if Hack.taken "JLT" popped.d then popped.a else place (k + 5))) :=
    reaches_branch holds (prefix_back parts) popped
  have taken : Hack.taken "JLT" popped.d = decide (core.ram.top.toInt < 0) := by
    have top : popped.d = core.ram.top := Memory.read_drop inside
    rw [top]
    rfl
  simp only [taken, decide_eq_true_eq] at leave
  exact ⟨popped, front.trans leave, rfl⟩

theorem goto_reach (holds : Holds rom σ code) {name : String}
    (here : codeOf [symbol name, branch "0" "JMP"] <+: code.drop k) (core : Core) :
    ∃ core' : Core,
      Reaches (core.machine rom (place k)) (core'.machine rom (words σ name)) ∧
      core'.ram = core.ram := by
  have parts : codeOf [symbol name] ++ codeOf [branch "0" "JMP"] <+: code.drop k := here
  let loaded : Core := { core with a := words σ name }
  have load : Reaches (core.machine rom (place k)) (loaded.machine rom (place (k + 1))) :=
    (symbol_block name).reaches holds (prefix_front parts) core
  exact ⟨loaded, load.trans (reaches_goto holds (prefix_back parts) loaded), rfl⟩

theorem call_reach (holds : Holds rom σ code) (cells : KnowsCells σ) {name : String}
    {arguments : Word} {id : Nat} (here : codeOf (call name arguments id) <+: code.drop k)
    (core : Core) (room : Room (core.ram.cell .sp) 5) :
    ∃ core' : Core,
      Reaches (core.machine rom (place k)) (core'.machine rom (words σ name)) ∧
      ∀ unit, core'.ram = (Command.call name arguments).effect (words σ) unit
        (words σ (returnLabel name id)) core.ram := by
  obtain ⟨f, block, does⟩ := callFront_block cells name arguments id
  obtain ⟨target, ram⟩ := does core
  have parts : codeOf (callFront name arguments id) ++ codeOf [branch "0" "JMP"] <+:
      code.drop k := by
    rw [codeOf_call, codeOf_append] at here
    exact here
  have leave := reaches_goto holds (prefix_back parts) (f core)
  rw [target] at leave
  exact ⟨f core, (block.reaches holds (prefix_front parts) core).trans leave, ram room⟩

theorem ret_reach (holds : Holds rom σ code) (cells : KnowsCells σ)
    (here : codeOf ret <+: code.drop k) (core : Core)
    (touched : ∀ x ∈ Command.touched core.ram .ret, InStack x) :
    ∃ core' : Core, Reaches (core.machine rom (place k))
        (core'.machine rom (core.ram.read (core.ram.cell .lcl - 5))) ∧
      ∀ unit back, core'.ram.Agrees (Command.ret.effect (words σ) unit back core.ram) := by
  obtain ⟨f, block, does⟩ := retFront_block cells
  obtain ⟨target, ram⟩ := does core touched
  rw [ret_eq, codeOf_append] at here
  have leave := reaches_goto holds (prefix_back here) (f core)
  rw [target] at leave
  exact ⟨f core, (block.reaches holds (prefix_front here) core).trans leave, ram⟩

/-! ## All commands -/

theorem room_of_touched {x : Word} {n : Nat}
    (inside : ∀ y ∈ (List.range n).map fun k => x + BitVec.ofNat 16 k, InStack y) : Room x n :=
  fun k hk => inside _ (List.mem_map.2 ⟨k, List.mem_range.2 hk, rfl⟩)

/-- **The code of a command does what the command means.** -/
theorem statements_reach (holds : Holds rom σ code) (cells : KnowsCells σ) {c : Command}
    (valid : c.Valid) {unit : String} {n : Counters}
    (here : codeOf (c.statements unit n) <+: code.drop k) (own : OwnLabels σ unit n c k)
    (core : Core) (touched : ∀ x ∈ c.touched core.ram, InStack x) :
    let following := place (k + (codeOf (c.statements unit n)).length)
    ∃ core' : Core, Reaches (core.machine rom (place k))
        (core'.machine rom (c.continues (words σ) following core.ram)) ∧
      core'.ram.Agrees (c.effect (words σ) unit following core.ram) := by
  intro following
  cases c with
  | operate op =>
    obtain ⟨core', reach, ram⟩ := operate_reach holds cells here own touched
    exact ⟨core', reach, ram ▸ .refl _⟩
  | push segment index =>
    exact ⟨_, (push_block cells valid).reaches holds here core, .refl _⟩
  | pop segment index =>
    obtain ⟨f, block, does⟩ := pop_block cells valid following
    exact ⟨f core, block.reaches holds here core, does core (touched _ (by simp [Command.touched]))⟩
  | label name => exact ⟨core, (label_block name).reaches holds here core, .refl _⟩
  | goto name =>
    obtain ⟨core', reach, ram⟩ := goto_reach holds here core
    exact ⟨core', reach, ram ▸ .refl _⟩
  | ifGoto name =>
    obtain ⟨core', reach, ram⟩ :=
      ifGoto_reach holds cells here core (touched _ (by simp [Command.touched]))
    exact ⟨core', reach, ram ▸ .refl _⟩
  | function name locals =>
    obtain ⟨f, block, does⟩ := function_block cells name locals
    refine ⟨f core, block.reaches holds here core, ?_⟩
    rw [does core]
    exact .refl _
  | call name arguments =>
    have room : Room (core.ram.cell .sp) 5 := room_of_touched touched
    obtain ⟨core', reach, ram⟩ := call_reach holds cells here core room
    have back : words σ (returnLabel name n.calls) = following := by
      have made : Generated.back name n.calls ∈ (Command.call name arguments).generated n :=
        List.mem_singleton.2 rfl
      have whole : following = place (k + (codeOf (callFront name arguments n.calls ++
          [branch "0" "JMP"])).length) := by rw [← codeOf_call]; rfl
      rw [whole]
      exact own _ made _ [] (call_eq name arguments n.calls)
    exact ⟨core', reach, back ▸ ram unit ▸ .refl _⟩
  | ret =>
    obtain ⟨core', reach, ram⟩ := ret_reach holds cells here core touched
    exact ⟨core', reach, ram unit following⟩

end

end HackToolchain.Vm
