import HackToolchain.Proofs.Machine.Instructions
import HackToolchain.Proofs.Machine.Refusals

/-!
# The machine stays in its bounds

Memory of the machine has its size by its type, and its addresses wrap around. Here the same
machine has arrays of any size and changes one register or cell after the other; an access beyond
an array, a program counter that wraps around or a layout that is too wide is a fault.

* `Does`: the checked machine does without a fault what the machine does;
* `does_execute`, `does_run`, `does_load`, `does_answer`: so it is for every request, as long as the
  ROM is no longer than it may be;
* `requests_stay_in_bounds`: and so it is for any requests one after the other. A text that is
  refused changes nothing.
-/

namespace HackToolchain

/-- A machine with arrays of any size. -/
structure Plain where
  rom : Array Decoded
  ram : Array Word
  a : Word
  d : Word
  pc : Word

def Machine.plain (m : Machine) : Plain := ⟨m.rom, m.ram.toArray, m.a, m.d, m.pc⟩

/-- What is done with the machine, and `none` for a fault. -/
abbrev Checked := StateT Plain Option

namespace Checked

def read (address : Word) : Checked Word := do
  (← get).ram[address.toNat % ramSize]?

def write (address value : Word) : Checked Unit := do
  let s ← get
  if h : address.toNat % ramSize < s.ram.size then
    set { s with ram := s.ram.set (address.toNat % ramSize) value h }
  else failure

def advance : Checked Unit := do
  let s ← get
  if s.pc.toNat + 1 < 2 ^ 16 then set { s with pc := s.pc + 1 } else failure

def stack : Checked (List Word) := do
  let pointer ← read 0
  let top := min (max pointer.toNat Hack.stackBase) ramSize
  let s ← get
  if Hack.stackBase ≤ top ∧ top ≤ s.ram.size then
    return (s.ram.extract Hack.stackBase top).toList
  else failure

def goOn (jumps : Bool) (address : Word) : Checked Unit :=
  if jumps then modify fun s => { s with pc := address } else advance

/-- The address itself or the cell there. -/
def operand (indirect : Bool) (address : Word) : Checked Word :=
  if indirect then read address else pure address

/-- Only if the bit is set. -/
def only (bit : Bool) (act : Checked Unit) : Checked Unit :=
  if bit then act else pure ()

def execute : Decoded → Checked Unit
  | .address value => do
    modify fun s => { s with a := value.setWidth 16 }
    advance
  | .compute comp dest jump => do
    let s ← get
    let y ← operand (comp.val.getLsbD 6) s.a
    let out := Alu.eval (comp.val.setWidth 6) s.d y
    only (dest.val.getLsbD 0) (write s.a out)
    only (dest.val.getLsbD 1) (modify fun s => { s with d := out })
    only (dest.val.getLsbD 2) (modify fun s => { s with a := out })
    goOn (Alu.jumps (jump.val.setWidth 3) out) s.a

def step : Checked (Option (Word × Decoded)) := do
  let s ← get
  match s.rom[s.pc.toNat]? with
  | none => return none
  | some i =>
    execute i
    return some (s.pc, i)

def run : Nat → Checked Nat
  | 0 => return 0
  | limit + 1 => do
    match ← step with
    | none => return 0
    | some _ => return (← run limit) + 1

/-- The ROM and the program counter are changed one after the other. -/
def load (d : Descriptor) (text : String) : Checked (Except LoadError Unit) :=
  match Machine.decodeText d text with
  | .error .uncountableLayout => failure
  | .error e => return .error e
  | .ok rom => do
    modify fun s => { s with rom }
    modify fun s => { s with pc := 0 }
    return .ok ()

end Checked

/-! ## Requests -/

inductive Request
  | load (d : Descriptor) (text : String)
  | read (address : Word)
  | write (address value : Word)
  | setA (value : Word)
  | setD (value : Word)
  | setPc (value : Word)
  | stack
  | step
  | run (limit : Nat)

def Request.Valid : Request → Prop
  | load d _ => d.validate = .ok ()
  | _ => True

inductive Answer
  | done
  | refused (e : LoadError)
  | word (w : Word)
  | words (ws : List Word)
  | executed (i : Option (Word × Decoded))
  | steps (n : Nat)
  deriving DecidableEq

/-- A text that is refused leaves the machine as it was. -/
def Machine.answer (m : Machine) : Request → Answer × Machine
  | .load d text =>
    match m.load d text with
    | .error e => (.refused e, m)
    | .ok next => (.done, next)
  | .read address => (.word (m.ram.read address), m)
  | .write address value => (.done, { m with ram := m.ram.write address value })
  | .setA value => (.done, { m with a := value })
  | .setD value => (.done, { m with d := value })
  | .setPc value => (.done, { m with pc := value })
  | .stack => (.words m.stack, m)
  | .step =>
    match m.step? with
    | none => (.executed none, m)
    | some (address, i, next) => (.executed (some (address, i)), next)
  | .run limit => (.steps (m.run limit).1, (m.run limit).2)

def Machine.answerAll (m : Machine) : List Request → List Answer × Machine
  | [] => ([], m)
  | r :: rest =>
    let (answer, next) := m.answer r
    let (answers, last) := next.answerAll rest
    (answer :: answers, last)

namespace Checked

def answer : Request → Checked Answer
  | .load d text => do
    match ← load d text with
    | .error e => return .refused e
    | .ok () => return .done
  | .read address => return .word (← read address)
  | .write address value => do
    write address value
    return .done
  | .setA value => do
    modify fun s => { s with a := value }
    return .done
  | .setD value => do
    modify fun s => { s with d := value }
    return .done
  | .setPc value => do
    modify fun s => { s with pc := value }
    return .done
  | .stack => return .words (← stack)
  | .step => return .executed (← step)
  | .run limit => return .steps (← run limit)

def answerAll : List Request → Checked (List Answer)
  | [] => return []
  | r :: rest => return (← answer r) :: (← answerAll rest)

/-! ## What is done without a fault -/

/-- The checked machine has no fault, and it comes to the same as the machine. -/
def Does {α : Type} (act : Checked α) (m : Machine) (result : α) (next : Machine) : Prop :=
  act m.plain = some (result, next.plain)

section

variable {α β : Type} {m next last : Machine} {act : Checked α} {result : α} {d : Descriptor}

theorem Does.bind {f : α → Checked β} {result' : β} (first : Does act m result next)
    (second : Does (f result) next result' last) : Does (act >>= f) m result' last := by
  change (act m.plain >>= fun p => f p.1 p.2) = _
  rw [show act m.plain = some (result, next.plain) from first]
  exact second

theorem does_get (m : Machine) {f : Plain → Checked β} {result : β}
    (rest : Does (f m.plain) m result next) : Does (get >>= f) m result next :=
  rest

theorem cell_inside (m : Machine) (address : Word) :
    address.toNat % ramSize < m.plain.ram.size :=
  Nat.lt_of_lt_of_eq (Nat.mod_lt _ ramSize_pos) m.ram.size_toArray.symm

theorem does_read (m : Machine) (address : Word) :
    Does (read address) m (m.ram.read address) m := by
  apply does_get
  rw [Array.getElem?_eq_getElem (cell_inside m address)]
  rfl

theorem does_write (m : Machine) (address value : Word) :
    Does (write address value) m () { m with ram := m.ram.write address value } := by
  apply does_get
  rw [dif_pos (cell_inside m address)]
  rfl

/-- The program counter does not wrap around behind an instruction of the ROM. -/
theorem does_advance (inside : m.pc.toNat < m.rom.size) (short : m.rom.size ≤ romSize) :
    Does advance m () { m with pc := m.pc + 1 } := by
  have room : m.plain.pc.toNat + 1 < 2 ^ 16 := by
    have size : romSize = 2 ^ 15 := rfl
    change m.pc.toNat + 1 < _
    omega
  apply does_get
  rw [if_pos room]
  rfl

theorem does_stack (m : Machine) : Does stack m m.stack m := by
  have bounds : ∀ pointer : Word,
      Hack.stackBase ≤ min (max pointer.toNat Hack.stackBase) ramSize ∧
        min (max pointer.toNat Hack.stackBase) ramSize ≤ m.plain.ram.size := by
    intro pointer
    have size : m.plain.ram.size = ramSize := m.ram.size_toArray
    have base : Hack.stackBase ≤ ramSize := by decide
    omega
  apply (does_read m 0).bind
  apply does_get
  rw [if_pos (bounds _)]
  rfl

theorem does_operand (indirect : Bool) (m : Machine) (address : Word) :
    Does (operand indirect address) m (if indirect then m.ram.read address else address) m := by
  cases indirect with
  | false => rfl
  | true => exact does_read m address

theorem does_only_write (bit : Bool) (m : Machine) (address value : Word) :
    Does (only bit (write address value)) m ()
      { m with ram := if bit then m.ram.write address value else m.ram } := by
  cases bit with
  | false => rfl
  | true => exact does_write m address value

theorem does_only_setD (bit : Bool) (m : Machine) (value : Word) :
    Does (only bit (modify fun s => { s with d := value })) m ()
      { m with d := if bit then value else m.d } := by
  cases bit <;> rfl

theorem does_only_setA (bit : Bool) (m : Machine) (value : Word) :
    Does (only bit (modify fun s => { s with a := value })) m ()
      { m with a := if bit then value else m.a } := by
  cases bit <;> rfl

theorem does_goOn (jumps : Bool) (inside : m.pc.toNat < m.rom.size) (short : m.rom.size ≤ romSize)
    (address : Word) :
    Does (goOn jumps address) m () { m with pc := if jumps then address else m.pc + 1 } := by
  cases jumps with
  | false => exact does_advance inside short
  | true => rfl

theorem does_execute {i : Decoded} (short : m.rom.size ≤ romSize)
    (here : m.rom[m.pc.toNat]? = some i) : Does (execute i) m () (m.execute i) := by
  obtain ⟨inside, -⟩ := Array.getElem?_eq_some_iff.1 here
  cases i with
  | address value =>
    have assigned : Does (modify fun s => { s with a := value.setWidth 16 }) m ()
        { m with a := value.setWidth 16 } := rfl
    refine assigned.bind (does_advance ?_ ?_)
    · exact inside
    · exact short
  | compute comp dest jump =>
    obtain ⟨rom, ram, a, d, pc⟩ := m
    apply does_get
    refine (does_operand ..).bind ?_
    refine (does_only_write ..).bind ?_
    refine (does_only_setD ..).bind ?_
    refine (does_only_setA ..).bind (does_goOn _ ?_ ?_ _)
    · exact inside
    · exact short

theorem does_step (short : m.rom.size ≤ romSize) :
    Does step m (m.step?.map fun s => (s.1, s.2.1)) ((m.step?.map fun s => s.2.2).getD m) := by
  apply does_get
  rw [Machine.step?]
  change Does (match m.rom[m.pc.toNat]? with | none => _ | some i => _) _ _ _
  cases here : m.rom[m.pc.toNat]? with
  | none => rfl
  | some i => exact (does_execute short here).bind rfl

theorem does_run (short : m.rom.size ≤ romSize) (limit : Nat) :
    Does (run limit) m (m.run limit).1 (m.run limit).2 := by
  induction limit generalizing m with
  | zero => rfl
  | succ limit ih =>
    refine (does_step short).bind ?_
    rw [Machine.run_succ]
    cases step : m.step? with
    | none => rfl
    | some s => exact (ih (Machine.rom_of_step? step ▸ short)).bind rfl

theorem does_load_of_ok {text : String} (done : m.load d text = .ok next) :
    Does (load d text) m (.ok ()) next := by
  rw [Machine.load] at done
  unfold load
  cases decoded : Machine.decodeText d text with
  | error e =>
    rw [decoded] at done
    cases done
  | ok rom =>
    rw [decoded] at done
    obtain rfl := Except.ok.inj done
    rfl

/-- What is read of the text is in no register or cell before all of it is. -/
theorem does_load_of_error (valid : d.validate = .ok ()) {text : String} {e : LoadError}
    (failed : m.load d text = .error e) : Does (load d text) m (.error e) m := by
  have refuses := (Machine.load_eq_error valid).1 failed
  rw [Machine.load] at failed
  unfold load
  cases decoded : Machine.decodeText d text with
  | ok rom =>
    rw [decoded] at failed
    cases failed
  | error other =>
    rw [decoded] at failed
    obtain rfl := Except.error.inj failed
    cases other with
    | uncountableLayout => exact absurd rfl refuses.ne_uncountable
    | malformed => rfl
    | undefined => rfl
    | tooLong => rfl

theorem does_answer (short : m.rom.size ≤ romSize) {r : Request} (valid : r.Valid) :
    Does (answer r) m (m.answer r).1 (m.answer r).2 := by
  cases r with
  | load d text =>
    rw [Machine.answer]
    cases loaded : m.load d text with
    | error e => exact (does_load_of_error valid loaded).bind rfl
    | ok next => exact (does_load_of_ok loaded).bind rfl
  | read address => exact (does_read m address).bind rfl
  | write address value => exact (does_write m address value).bind rfl
  | setA | setD | setPc => rfl
  | stack => exact (does_stack m).bind rfl
  | step =>
    refine (does_step short).bind ?_
    rw [Machine.answer]
    cases m.step? <;> rfl
  | run limit => exact (does_run short limit).bind rfl

end

end Checked

namespace Machine

/-- No request makes the ROM longer than it may be. -/
theorem short_answer {m : Machine} (short : m.rom.size ≤ romSize) (r : Request) :
    (m.answer r).2.rom.size ≤ romSize := by
  cases r with
  | load d text =>
    rw [answer]
    cases loaded : m.load d text with
    | error e => exact short
    | ok next =>
      obtain ⟨image, -, room, rfl⟩ := load_eq_ok.1 loaded
      exact room
  | step =>
    rw [answer]
    cases step : m.step? with
    | none => exact short
    | some s => exact rom_of_step? step ▸ short
  | run limit => exact rom_run limit m ▸ short
  | read | write | setA | setD | setPc | stack => exact short

theorem short_answerAll {m : Machine} (short : m.rom.size ≤ romSize) (requests : List Request) :
    (m.answerAll requests).2.rom.size ≤ romSize := by
  induction requests generalizing m with
  | nil => exact short
  | cons r rest ih => exact ih (short_answer short r)

end Machine

theorem Checked.does_answerAll {m : Machine} (short : m.rom.size ≤ romSize)
    {requests : List Request} (valid : ∀ r ∈ requests, r.Valid) :
    Does (answerAll requests) m (m.answerAll requests).1 (m.answerAll requests).2 := by
  induction requests generalizing m with
  | nil => rfl
  | cons r rest ih =>
    obtain ⟨here, later⟩ := List.forall_mem_cons.1 valid
    exact (does_answer short here).bind ((ih (Machine.short_answer short r) later).bind rfl)

/-- **The machine stays in its bounds and loads whole texts or nothing.** Whatever is asked of a
new machine, with descriptors that are valid, the checked machine does the same without a fault,
and its arrays stay as long as they may be. A text that is refused leaves the checked machine as
it was, and the error names the first line that is not decoded or, when all of them are, the length
of the program. A text that is loaded has its instructions in the ROM in order; the program counter
is set and nothing else is changed. -/
theorem requests_stay_in_bounds :
    (∀ requests : List Request, (∀ r ∈ requests, r.Valid) →
      ∃ answers last, Machine.initial.answerAll requests = (answers, last) ∧
        Checked.answerAll requests Machine.initial.plain = some (answers, last.plain) ∧
        last.plain.rom.size ≤ 32768 ∧ last.plain.ram.size = 32768) ∧
    ∀ (d : Descriptor) (text : String) (m : Machine), d.validate = .ok () →
      (∀ e, m.load d text = .error e ↔ d.Refuses text e) ∧
      (∀ e, m.load d text = .error e →
        Checked.load d text m.plain = some (.error e, m.plain)) ∧
      ∀ next, m.load d text = .ok next →
        ∃ image, List.Forall₂ d.Decodes (Machine.wordLines text) image ∧ image.length ≤ 32768 ∧
          next = { m with rom := image.toArray, pc := 0 } ∧
          Checked.load d text m.plain = some (.ok (), next.plain) := by
  refine ⟨fun requests valid => ?_, fun d text m valid =>
    ⟨fun e => Machine.load_eq_error valid, fun e => Checked.does_load_of_error valid, ?_⟩⟩
  · have empty : Machine.initial.rom.size ≤ romSize := Nat.zero_le _
    exact ⟨_, _, rfl, Checked.does_answerAll empty valid, Machine.short_answerAll empty requests,
      Vector.size_toArray _⟩
  · intro next done
    obtain ⟨image, all, room, same⟩ := Machine.load_eq_ok.1 done
    exact ⟨image, all, room, same, Checked.does_load_of_ok done⟩

/-- A program that runs to its end after the program counter was beyond it, and a text that is
refused for its second line. -/
theorem requests_stay_in_bounds_refused :
    let requests : List Request :=
      [.load hack "0000000000000111\n1110101010000111\n", .setPc 0xFFFF, .step, .setPc 0, .run 5,
        .load hack "\n2\n"]
    (∀ r ∈ requests, r.Valid) ∧ hack.Refuses "\n2\n" (.malformed 2 ⟨"2"⟩) ∧
    ∃ last : Machine, last.pc = 7 ∧ last.rom.size = 2 ∧
      Checked.answerAll requests Machine.initial.plain =
        some ([.done, .done, .executed none, .done, .steps 2, .refused (.malformed 2 ⟨"2"⟩)],
          last.plain) := by
  intro requests
  have hackValid : hack.validate = .ok () := by decide +kernel
  have valid : ∀ r ∈ requests, r.Valid := by
    simp only [requests, List.forall_mem_cons]
    exact ⟨hackValid, trivial, trivial, trivial, trivial, hackValid, nofun⟩
  have ran : (Machine.initial.answerAll requests).1 =
      [.done, .done, .executed none, .done, .steps 2, .refused (.malformed 2 ⟨"2"⟩)] ∧
      (Machine.initial.answerAll requests).2.pc = 7 ∧
      (Machine.initial.answerAll requests).2.rom.size = 2 := by
    decide +kernel
  have failed : (Machine.decodeText hack "\n2\n") = .error (.malformed 2 ⟨"2"⟩) := by
    decide +kernel
  have refused : Machine.initial.load hack "\n2\n" = .error (.malformed 2 ⟨"2"⟩) := by
    rw [Machine.load, failed]
    rfl
  obtain ⟨refuses, -⟩ := requests_stay_in_bounds.2 hack "\n2\n" Machine.initial hackValid
  obtain ⟨answers, last, same, checked, -⟩ := requests_stay_in_bounds.1 requests valid
  rw [same] at ran
  obtain ⟨rfl, pc, rom⟩ := ran
  exact ⟨valid, (refuses _).1 refused, last, pc, rom, checked⟩

end HackToolchain
