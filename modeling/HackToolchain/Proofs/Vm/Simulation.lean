import HackToolchain.Proofs.Vm.Placement

/-!
# The machine runs the program

* `Linked`: every target is defined, and every name has one meaning;
* `words_of_target`: a target leads to the command that defines it;
* `command_runs`: from the first word of a command the machine reaches the command that is
  next, with the memory that the command means.
-/

namespace HackToolchain.Vm

open Assembly (Instruction Program)
open CommandLine (SourceUnit)
open Machine (Reaches)
open Expansion

/-- The name of the static cell that a command uses. -/
def Command.static? (unit : String) : Command → Option String
  | push .static index | pop .static index => some (staticName unit index)
  | _ => none

/-- The names of the static cells of a program. -/
def staticNames (program : List Placed) : List String :=
  program.filterMap fun c => c.2.static? c.1

/-- Every target is defined, and no name is taken twice. -/
structure Linked (program : List Placed) : Prop where
  targets : ∀ c ∈ program, ∀ name ∈ c.2.target?, name ∈ definedNames program
  distinct : (definedNames program).Nodup
  unknown : ∀ name ∈ definedNames program, name ∉ hack.symbols.keys
  apart : ∀ name ∈ definedNames program, name ∉ (generated ⟨0, 0⟩ program).map Generated.text
  statics : ∀ name ∈ definedNames program, name ∉ staticNames program

/-- The address of the first command that defines a name. -/
def targetOf (entry : Option String) (program : List Placed) (name : String) : Word :=
  place (startOf entry (program.takeWhile fun c => c.2.defined? ≠ some name))

/-- The address that the table of a program gives a name. -/
def tableOf (p : Program) (name : String) : Word := place ((p.symbols.address? name).getD 0)

theorem split_at_defined {program : List Placed} {name : String}
    (h : name ∈ definedNames program) :
    ∃ unit c back, c.defined? = some name ∧
      program = (program.takeWhile fun c => c.2.defined? ≠ some name) ++ (unit, c) :: back := by
  induction program with
  | nil => cases h
  | cons c rest ih =>
    by_cases here : c.2.defined? = some name
    · refine ⟨c.1, c.2, rest, here, ?_⟩
      rw [List.takeWhile_cons_of_neg (by simp [here])]
      rfl
    · have later : name ∈ definedNames rest := by
        obtain ⟨other, hother, named⟩ := List.mem_filterMap.1 h
        rcases List.mem_cons.1 hother with rfl | hother
        · exact absurd named here
        · exact List.mem_filterMap.2 ⟨other, hother, named⟩
      obtain ⟨unit, d, back, named, split⟩ := ih later
      refine ⟨unit, d, back, named, ?_⟩
      rw [List.takeWhile_cons_of_pos (by simp [here]), List.cons_append, ← split]

/-- A command that defines a name begins with its label. -/
theorem statements_of_defined {c : Command} {name : String} (h : c.defined? = some name)
    (unit : String) (n : Counters) : ∃ after, c.statements unit n = label name :: after := by
  cases c with
  | label other | function other _ =>
    obtain rfl : other = name := Option.some.inj h
    exact ⟨_, rfl⟩
  | _ => cases h

theorem Command.static_line {unit name : String} {c : Command} (h : c.static? unit = some name) :
    ∃ index, name = staticName unit index ∧ ∀ n, symbol name ∈ c.statements unit n := by
  cases c with
  | push segment index =>
    cases segment with
    | static =>
      obtain rfl : staticName unit index = name := Option.some.inj h
      exact ⟨index, rfl, fun n => List.mem_cons_self⟩
    | _ => cases h
  | pop segment index =>
    cases segment with
    | static =>
      obtain rfl : staticName unit index = name := Option.some.inj h
      exact ⟨index, rfl, fun n => List.mem_append_right popD List.mem_cons_self⟩
    | _ => cases h
  | _ => cases h

theorem Command.continues_congr {f g : String → Word} {c : Command}
    (h : ∀ name ∈ c.target?, f name = g name) (following : Word) (m : Memory) :
    c.continues f following m = c.continues g following m := by
  cases c with
  | goto name | call name _ => exact h name rfl
  | ifGoto name => simp only [continues, h name rfl]
  | _ => rfl

section

variable {entry : Option String} {units : List SourceUnit} {p : Program}

namespace Built

theorem words_eq (built : Built entry units p) : words (addresses entry units) = tableOf p := by
  funext name
  rw [words, tableOf, Assembly.SymbolTable.address?, built.means.get?_eq]
  rfl

/-- The names of label lines are those that commands define and those that are made up. -/
theorem count_labelNames (identifier : ∀ name ∈ entry, IsIdentifier name) (name : String) :
    (Assembly.labelNames (source entry units)).count name =
      (definedNames (program entry units)).count name +
        ((generated ⟨0, 0⟩ (program entry units)).map Generated.text).count name := by
  have valid : ∀ c ∈ program entry units, c.2.Valid :=
    fun c hc => valid_of_mem_program identifier hc
  rw [source, linesOf, labelNames_readings (output_faithful valid), labelsOf_append,
    labelsOf_preamble, List.nil_append, count_labels]

variable {front back : List Placed} {unit name : String} {c : Command}

/-- **A target leads to the command that defines it.** -/
theorem words_of_target (built : Built entry units p)
    (identifier : ∀ name ∈ entry, IsIdentifier name) (linked : Linked (program entry units))
    (defined : name ∈ definedNames (program entry units)) :
    words (addresses entry units) name = targetOf entry (program entry units) name := by
  obtain ⟨unit, c, back, named, split⟩ := split_at_defined defined
  let n := countersAfter ⟨0, 0⟩ ((program entry units).takeWhile fun c => c.2.defined? ≠ some name)
  obtain ⟨after, lines⟩ : ∃ after, c.statements unit n = [] ++ label name :: after :=
    statements_of_defined named unit n
  have once : (Assembly.labelNames (source entry units)).count name = 1 := by
    rw [count_labelNames identifier, List.count_eq_zero.2 (linked.apart name defined),
      linked.distinct.count, if_pos defined]
  have plain : (label name).Plain := by
    have valid := valid_of_mem_program identifier (c := (unit, c)) (by rw [split]; simp)
    exact plain_label (valid.named name (by rw [Command.name?, named, Option.some_or]))
  exact built.words_of_own split lines once plain (linked.unknown name defined)

/-- The labels made up for a command lead to their lines. -/
theorem ownLabels (built : Built entry units p)
    (identifier : ∀ name ∈ entry, IsIdentifier name) (linked : Linked (program entry units))
    (split : program entry units = front ++ (unit, c) :: back) :
    OwnLabels (addresses entry units) unit (countersAfter ⟨0, 0⟩ front) c
      (startOf entry front) := by
  have text : ∀ g ∈ c.generated (countersAfter ⟨0, 0⟩ front),
      g.text ∈ (generated ⟨0, 0⟩ (program entry units)).map Generated.text := by
    intro g hg
    have made : g ∈ generated ⟨0, 0⟩ (program entry units) := by
      rw [split, generated_append]
      exact List.mem_append_right _ (List.mem_append_left _ hg)
    exact List.mem_map_of_mem made
  refine built.ownLabels_of_once split (fun g hg => ?_) fun g hg _ => ?_
  · have undefined : g.text ∉ definedNames (program entry units) :=
      fun defined => linked.apart g.text defined (text g hg)
    rw [count_labelNames identifier, List.count_eq_zero.2 undefined,
      (generated_texts_nodup _ _).count, if_pos (text g hg)]
  · exact plain_label <| isIdentifier_of_mem_labels
      (fun c hc => valid_of_mem_program identifier hc) (.inr (text g hg))

/-- The name of a static cell is used by an instruction, and if no line binds it it is a
variable. -/
theorem static_unbound (built : Built entry units p)
    (identifier : ∀ name ∈ entry, IsIdentifier name) (plain : ∀ u ∈ units, IsPlainUnit u.name)
    (static : name ∈ staticNames (program entry units))
    (undefined : name ∉ definedNames (program entry units))
    (unmade : name ∉ (generated ⟨0, 0⟩ (program entry units)).map Generated.text) :
    name ∉ Assembly.boundNames hack (source entry units) ∧
      name ∈ Assembly.symbolsUsed (Assembly.instructions (source entry units)) := by
  obtain ⟨⟨unit, c⟩, member, named⟩ := List.mem_filterMap.1 static
  obtain ⟨index, rfl, line⟩ := Command.static_line named
  constructor
  · have unknown : staticName unit index ∉ hack.symbols.keys := fun known =>
      (predefined_signs _ known).2 (by simp [staticName])
    have unbound : staticName unit index ∉ Assembly.labelNames (source entry units) := by
      rw [← List.count_eq_zero, count_labelNames identifier, List.count_eq_zero.2 undefined,
        List.count_eq_zero.2 unmade]
    exact fun bound => (List.mem_append.1 bound).elim unknown unbound
  · obtain ⟨front, back, split⟩ := List.append_of_mem member
    have valid := valid_of_mem_program identifier member
    have here := built.here split (statements_plain valid (plain_of_mem_program plain member) _)
    have code : Instruction.address (.symbol (staticName unit index)) ∈
        codeOf (c.statements unit (countersAfter ⟨0, 0⟩ front)) :=
      List.mem_filterMap.2 ⟨_, line _, rfl⟩
    exact List.mem_filterMap.2 ⟨_, List.mem_of_mem_drop (here.subset code), rfl⟩

/-- In a linked program only names that are made up can be in the way of a static cell. -/
theorem static_free (built : Built entry units p)
    (identifier : ∀ name ∈ entry, IsIdentifier name) (plain : ∀ u ∈ units, IsPlainUnit u.name)
    (linked : Linked (program entry units)) (static : name ∈ staticNames (program entry units))
    (unmade : name ∉ (generated ⟨0, 0⟩ (program entry units)).map Generated.text) :
    name ∉ Assembly.boundNames hack (source entry units) ∧
      name ∈ Assembly.symbolsUsed (Assembly.instructions (source entry units)) :=
  built.static_unbound identifier plain static
    (fun defined => linked.statics name defined static) unmade

/-- In front of the first command the stack is set to its base, if there is an entry function. -/
theorem begins (built : Built entry units p) (short : p.words.length ≤ romSize) (core : Core) :
    ∃ begun : Core,
      Reaches (core.machine (romOf (source entry units)) 0)
        (begun.machine (romOf (source entry units)) (place (startOf entry []))) ∧
      begun.ram = if entry.isSome then core.ram.setCell .sp (BitVec.ofNat 16 Hack.stackBase)
        else core.ram := by
  cases entry with
  | none => exact ⟨core, Reaches.refl _, rfl⟩
  | some name =>
    have lines : linesOf (some name) (program (some name) units) =
        [.note "bootstrap"] ++ [literal Hack.stackBase, assign "D" "A", cell .sp, assign "M" "D"] ++
          expansion ⟨0, 0⟩ (program (some name) units) := rfl
    have plain : AllPlain [literal Hack.stackBase, assign "D" "A", cell .sp, assign "M" "D"] :=
      fun item hitem => (preamble_emitted (some name) "" .ret).plain isPlainUnit_empty item
        (List.mem_cons_of_mem _ hitem)
    have block := (literal_block Hack.stackBase).cons <| (assign_block "D" "A").cons <|
      (cell_block built.cells .sp).cons <| assign_block "M" "D"
    exact ⟨_, block.reaches (built.holds short) (built.code_at lines plain) core, rfl⟩

/-- The code of a command leads to the next command. -/
theorem command_reaches (built : Built entry units p)
    (identifier : ∀ name ∈ entry, IsIdentifier name) (plain : ∀ u ∈ units, IsPlainUnit u.name)
    (linked : Linked (program entry units)) (short : p.words.length ≤ romSize)
    (split : program entry units = front ++ (unit, c) :: back) (core : Core)
    (touched : ∀ x ∈ c.touched core.ram, InStack x) :
    let following := place (startOf entry (front ++ [(unit, c)]))
    ∃ next : Core,
      Reaches (core.machine (romOf (source entry units)) (place (startOf entry front)))
        (next.machine (romOf (source entry units))
          (c.continues (targetOf entry (program entry units)) following core.ram)) ∧
      next.ram.Agrees (c.effect (tableOf p) unit following core.ram) := by
  intro following
  have member : (unit, c) ∈ program entry units := by simp [split]
  have valid : c.Valid := valid_of_mem_program identifier member
  have code := built.here split (statements_plain valid (plain_of_mem_program plain member) _)
  obtain ⟨next, reach, ram⟩ := statements_reach (built.holds short) built.cells valid code
    (built.ownLabels identifier linked split) core touched
  rw [← startOf_concat] at reach
  rw [← startOf_concat, built.words_eq] at ram
  refine ⟨next, ?_, ram⟩
  have targets : ∀ name ∈ c.target?, words (addresses entry units) name =
      targetOf entry (program entry units) name :=
    fun name target =>
      built.words_of_target identifier linked (linked.targets _ member name target)
  rwa [Command.continues_congr targets] at reach

end Built

/-- **The machine runs the program.** A program that fits the ROM is loaded, and reaches its
first command with the stack at its base if there is an entry function. Static cells are
variables of their own. At the first word of any command, whatever the registers hold, the
machine goes on to the first word of the command that is next, and memory is what the command
makes of it but for the two scratch cells. -/
theorem command_runs (built : Built entry units p)
    (identifier : ∀ name ∈ entry, IsIdentifier name) (plain : ∀ u ∈ units, IsPlainUnit u.name)
    (linked : Linked (program entry units)) (short : p.words.length ≤ romSize) (m₀ : Machine) :
    ∃ loaded, m₀.load hack p.toText = .ok loaded ∧
      (∃ begun, Reaches loaded begun ∧ begun.rom = loaded.rom ∧
        begun.pc = place (startOf entry []) ∧
        begun.ram = if entry.isSome then m₀.ram.setCell .sp (BitVec.ofNat 16 Hack.stackBase)
          else m₀.ram) ∧
      (∀ name ∈ staticNames (program entry units),
        name ∉ (generated ⟨0, 0⟩ (program entry units)).map Generated.text →
        (∃ k, p.symbols.get? name = some ⟨.var, hack.varBase + k⟩) ∧
        ∀ other ∈ staticNames (program entry units),
          other ∉ (generated ⟨0, 0⟩ (program entry units)).map Generated.text →
          name ≠ other → p.symbols.address? name ≠ p.symbols.address? other) ∧
      ∀ front unit c back, program entry units = front ++ (unit, c) :: back →
        ∀ m : Machine, m.rom = loaded.rom → m.pc = place (startOf entry front) →
          (∀ x ∈ c.touched m.ram, InStack x) →
          let following := place (startOf entry (front ++ [(unit, c)]))
          ∃ next, Reaches m next ∧ next.rom = loaded.rom ∧
            next.pc = c.continues (targetOf entry (program entry units)) following m.ram ∧
            next.ram.Agrees (c.effect (tableOf p) unit following m.ram) := by
  refine ⟨_, load_of_means built.means short m₀, ?_, ?_, ?_⟩
  · obtain ⟨begun, reach, ram⟩ := built.begins short ⟨m₀.ram, m₀.a, m₀.d⟩
    exact ⟨_, reach, rfl, rfl, ram⟩
  · intro name static unmade
    obtain ⟨free, used⟩ := built.static_free identifier plain linked static unmade
    refine ⟨⟨_, built.means.get?_used free used⟩, ?_⟩
    intro other static' unmade' apart
    obtain ⟨free', used'⟩ := built.static_free identifier plain linked static' unmade'
    exact built.means.address?_ne free used free' used' apart
  · intro front unit c back split m rom pc touched following
    obtain ⟨core, reach, ram⟩ := built.command_reaches identifier plain linked short split
      ⟨m.ram, m.a, m.d⟩ touched
    rw [Core.machine_eq rom pc] at reach
    exact ⟨_, reach, rfl, rfl, ram⟩

end

/-- The call leads to its function, with the frame on the stack. -/
theorem command_runs_answering :
    ∃ (p : Program) (m next : Machine), Built none [answering] p ∧ Reaches m next ∧
      next.pc = targetOf none (program none [answering]) "Main.same" ∧
      next.ram.Agrees ((Command.call "Main.same" 1).effect (tableOf p) "Main"
        (place (startOf none ((program none [answering]).take 2))) m.ram) := by
  obtain ⟨p, built, size⟩ := answering_built
  have plain : ∀ u ∈ [answering], IsPlainUnit u.name := by
    intro u hu
    obtain rfl := List.mem_singleton.1 hu
    decide
  have linked : Linked (program none [answering]) :=
    ⟨by decide +kernel, by decide +kernel, by decide +kernel, by decide +kernel,
      by decide +kernel⟩
  have calls : program none [answering] = [("Main", .push .constant 7)] ++
      ("Main", .call "Main.same" 1) :: (program none [answering]).drop 2 := by decide +kernel
  obtain ⟨loaded, -, -, -, runs⟩ := command_runs built (by simp) plain linked
    (by rw [size]; decide) .initial
  let m : Machine :=
    { loaded with
      ram := Memory.zero.setCell .sp 257
      pc := place (startOf none [("Main", .push .constant 7)]) }
  have sp : m.ram.cell .sp = 257 := Memory.cell_setCell_self ..
  have touched : ∀ x ∈ (Command.call "Main.same" 1).touched m.ram, InStack x := by
    simp only [Command.touched, sp]
    intro x hx
    obtain ⟨k, hk, rfl⟩ := List.mem_map.1 hx
    have small := List.mem_range.1 hk
    have base : Hack.stackBase = 256 := rfl
    have size : ramSize = 32768 := rfl
    constructor <;> bv_omega
  obtain ⟨next, reach, -, pc, ram⟩ := runs _ _ _ _ calls m rfl rfl touched
  exact ⟨p, m, next, built, reach, pc, ram⟩

end HackToolchain.Vm
