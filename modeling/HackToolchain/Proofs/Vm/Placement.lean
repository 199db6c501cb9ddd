import HackToolchain.Proofs.Vm.Steps

/-!
# Where commands are

* `startOf`: the address of the first word of a command;
* `Built.here`: the code of a command stands there in the ROM;
* `Built.words_of_label`: a name with a single line leads to the place of the line.
-/

namespace HackToolchain.Vm

open Assembly (Instruction Program Reading)
open CommandLine (SourceUnit translateUnits)
open Hack (Cell)
open Expansion

/-- The lines of a whole program. -/
def linesOf (entry : Option String) (program : List Placed) : List Item :=
  preamble entry ++ expansion ⟨0, 0⟩ program

/-- The address of the first word behind commands. -/
def startOf (entry : Option String) (front : List Placed) : Nat := codeSize (linesOf entry front)

/-- The program is what the assembler makes of the output of the translator. -/
def Built (entry : Option String) (units : List SourceUnit) (p : Program) : Prop :=
  ∃ t lines, translateUnits (.started entry) units = .ok t ∧
    lines.map SourceLine.raw = t.lines ∧ Assembly.assemble hack lines = .ok p

theorem codeSize_eq (items : List Item) : codeSize items = (codeOf items).length :=
  List.length_filterMap_eq_countP.symm

theorem codeSize_append (front back : List Item) :
    codeSize (front ++ back) = codeSize front + codeSize back :=
  List.countP_append

section

variable {entry : Option String} {front back : List Placed} {unit : String} {c : Command}

theorem linesOf_append (entry : Option String) (front back : List Placed) :
    linesOf entry (front ++ back) =
      linesOf entry front ++ expansion (countersAfter ⟨0, 0⟩ front) back := by
  rw [linesOf, linesOf, expansion_append, List.append_assoc]

/-- The lines of a command stand behind a note of its text. -/
theorem linesOf_split (entry : Option String) (front back : List Placed) (unit : String)
    (c : Command) :
    linesOf entry (front ++ (unit, c) :: back) =
      (linesOf entry front ++ [.note c.text]) ++
        c.statements unit (countersAfter ⟨0, 0⟩ front) ++
          expansion ((countersAfter ⟨0, 0⟩ front).next c) back := by
  simp [linesOf_append, expansion, Command.expand]

theorem codeSize_note (items : List Item) (text : String) :
    codeSize (items ++ [.note text]) = codeSize items := by
  rw [codeSize_append]
  rfl

/-- The next command begins where the code of a command ends. -/
theorem startOf_concat (entry : Option String) (front : List Placed) (unit : String)
    (c : Command) :
    startOf entry (front ++ [(unit, c)]) =
      startOf entry front + (codeOf (c.statements unit (countersAfter ⟨0, 0⟩ front))).length := by
  rw [startOf, linesOf_split, expansion, List.append_nil, codeSize_append, codeSize_note,
    codeSize_eq (c.statements _ _)]
  rfl

end

/-- Lines that are read as they are meant hold the instructions that they are. -/
theorem instructions_readings {items : List Item} (plain : AllPlain items) :
    Assembly.instructions (items.map Item.reading) = codeOf items := by
  rw [Assembly.instructions, List.filterMap_map, codeOf]
  exact List.filterMap_congr fun item hitem => Item.instruction?_reading (plain item hitem)

namespace Built

variable {entry : Option String} {units : List SourceUnit} {p : Program}

/-- How the assembler has read the lines. -/
abbrev source (entry : Option String) (units : List SourceUnit) : List Reading :=
  (linesOf entry (program entry units)).map Item.reading

theorem means (built : Built entry units p) : p.Means hack (source entry units) := by
  obtain ⟨t, lines, translated, raw, assembled⟩ := built
  have means := means_of_output raw assembled
  rwa [output_of_translateUnits translated] at means

/-- The addresses that names stand for. -/
abbrev addresses (entry : Option String) (units : List SourceUnit) : String → Nat :=
  Assembly.addressOf hack (source entry units)

theorem words_of_address (built : Built entry units p) {name : String} {address : Nat}
    (bound : p.symbols.address? name = some address) :
    words (addresses entry units) name = place address :=
  congrArg place (built.means.addressOf_eq bound)

theorem cells (built : Built entry units p) : KnowsCells (addresses entry units) := by
  intro c
  have known : hack.symbols.get? c.name = some c.address := by
    cases c <;> decide +kernel
  apply built.means.addressOf_eq
  rw [Assembly.SymbolTable.address?, built.means.get?_predefined known]
  rfl

theorem counted (entry : Option String) (units : List SourceUnit) :
    ∀ item ∈ linesOf entry (program entry units), item.reading.takesWord = item.takesWord := by
  apply output_counted
  intro c hc
  rcases valid_or_entry hc with valid | ⟨name, -, called⟩
  · exact .inl valid
  · exact .inr ⟨name, called⟩

/-- A name with a single line leads to the place of the line. -/
theorem words_of_label (built : Built entry units p) {name : String} {before after : List Item}
    (once : (Assembly.labelNames (source entry units)).count name = 1)
    (plain : (label name).Plain) (unknown : name ∉ hack.symbols.keys)
    (split : linesOf entry (program entry units) = before ++ label name :: after) :
    words (addresses entry units) name = place (codeSize before) := by
  have readings : source entry units =
      before.map Item.reading ++ (label name).reading :: after.map Item.reading := by
    rw [source, split, List.map_append, List.map_cons]
  have line : (label name).reading.label? = some name := plain.faithful.label
  have first : name ∉ Assembly.labelNames (before.map Item.reading) := by
    rw [readings, Assembly.labelNames, List.filterMap_append, List.filterMap_cons_some line,
      List.count_append, List.count_cons_self] at once
    exact List.count_eq_zero.1 (by rw [Assembly.labelNames]; omega)
  have part : ∀ item ∈ before, item.reading.takesWord = item.takesWord :=
    fun item hitem => counted entry units item (by simp [split, hitem])
  apply built.words_of_address
  rw [Assembly.SymbolTable.address?,
    built.means.get?_label readings line first (Table.get?_eq_none_iff.2 unknown),
    wordCount_readings part]
  rfl

/-- Lines that are read as they are meant stand as code where they begin. -/
theorem code_at (built : Built entry units p) {before items after : List Item}
    (split : linesOf entry (program entry units) = before ++ items ++ after)
    (plain : AllPlain items) :
    codeOf items <+: (Assembly.instructions (source entry units)).drop (codeSize before) := by
  have readings : source entry units =
      before.map Item.reading ++ (items.map Item.reading ++ after.map Item.reading) := by
    rw [source, split, List.append_assoc, List.map_append, List.map_append]
  have front : codeSize before = (Assembly.instructions (before.map Item.reading)).length := by
    have part : ∀ item ∈ before, item.reading.takesWord = item.takesWord :=
      fun item hitem => counted entry units item (by simp [split, hitem])
    rw [← wordCount_readings part]
    exact built.means.wordCount_eq (by simp [readings])
  refine ⟨Assembly.instructions (after.map Item.reading), ?_⟩
  rw [readings, front, ← instructions_readings plain, Assembly.instructions, Assembly.instructions,
    Assembly.instructions, Assembly.instructions, List.filterMap_append, List.filterMap_append,
    List.drop_left]

variable {front back : List Placed} {unit : String} {c : Command}

/-- **The code of a command stands where it begins.** -/
theorem here (built : Built entry units p)
    (split : program entry units = front ++ (unit, c) :: back)
    (plain : AllPlain (c.statements unit (countersAfter ⟨0, 0⟩ front))) :
    codeOf (c.statements unit (countersAfter ⟨0, 0⟩ front)) <+:
      (Assembly.instructions (source entry units)).drop (startOf entry front) := by
  have lines := linesOf_split entry front back unit c
  rw [← split] at lines
  have there := built.code_at lines plain
  rwa [codeSize_note] at there

/-- A label in the code of a command leads to its place there. -/
theorem words_of_own (built : Built entry units p)
    (split : program entry units = front ++ (unit, c) :: back) {name : String}
    {before after : List Item}
    (lines : c.statements unit (countersAfter ⟨0, 0⟩ front) = before ++ label name :: after)
    (once : (Assembly.labelNames (source entry units)).count name = 1)
    (plain : (label name).Plain) (unknown : name ∉ hack.symbols.keys) :
    words (addresses entry units) name = place (startOf entry front + (codeOf before).length) := by
  have whole : linesOf entry (program entry units) =
      (linesOf entry front ++ [.note c.text] ++ before) ++ label name :: (after ++
        expansion ((countersAfter ⟨0, 0⟩ front).next c) back) := by
    rw [split, linesOf_split, lines]
    simp
  rw [built.words_of_label once plain unknown whole, codeSize_append, codeSize_note, codeSize_eq before]
  rfl

/-- Labels that are made up for a command and have single lines lead to these. -/
theorem ownLabels_of_once (built : Built entry units p)
    (split : program entry units = front ++ (unit, c) :: back)
    (once : ∀ g ∈ c.generated (countersAfter ⟨0, 0⟩ front),
      (Assembly.labelNames (source entry units)).count g.text = 1)
    (plain : ∀ g ∈ c.generated (countersAfter ⟨0, 0⟩ front),
      label g.text ∈ c.statements unit (countersAfter ⟨0, 0⟩ front) → (label g.text).Plain) :
    OwnLabels (addresses entry units) unit (countersAfter ⟨0, 0⟩ front) c
      (startOf entry front) := by
  intro g hg before after lines
  exact built.words_of_own split lines (once g hg) (plain g hg (by simp [lines]))
    (generated_unknown g)

/-- The names in the code of a command have addresses. -/
theorem address?_of_here (built : Built entry units p)
    (split : program entry units = front ++ (unit, c) :: back)
    (plain : AllPlain (c.statements unit (countersAfter ⟨0, 0⟩ front))) {name : String}
    (used : symbol name ∈ c.statements unit (countersAfter ⟨0, 0⟩ front)) :
    ∃ address, p.symbols.address? name = some address := by
  have there : Instruction.address (.symbol name) ∈
      codeOf (c.statements unit (countersAfter ⟨0, 0⟩ front)) :=
    List.mem_filterMap.2 ⟨symbol name, used, rfl⟩
  exact built.means.address?_of_used
    (List.mem_of_mem_drop ((built.here split plain).subset there)) rfl

theorem holds (built : Built entry units p) (short : p.words.length ≤ romSize) :
    Holds (romOf (source entry units)) (addresses entry units)
      (Assembly.instructions (source entry units)) :=
  holds_of_means built.means short

end Built

/-- A call with one argument, which comes back as the result. -/
def answering : SourceUnit :=
  ⟨"Main", SourceLine.ofRaws "Main.vm"
    ["push constant 7", "call Main.same 1", "label END", "goto END", "function Main.same 0",
     "push argument 0", "return"]⟩

/-- A unit of its own makes a program when its translation is assembled. -/
theorem built_of_shown {unit : SourceUnit} {size : Nat}
    (done : (Translator.empty.translate unit.name unit.lines).1 = none)
    (shown : ((Assembly.assemble hack (SourceLine.ofRaws "out.asm"
      (Translator.empty.translate unit.name unit.lines).2.lines)).toOption.map
        fun p => p.words.length) = some size) :
    ∃ p, Built none [unit] p ∧ p.words.length = size := by
  let t := (Translator.empty.translate unit.name unit.lines).2
  have whole : Translator.empty.translate unit.name unit.lines = (none, t) := Prod.ext done rfl
  have translated : translateUnits (.started none) [unit] = .ok t := by
    simp only [translateUnits, Translator.started, whole]
  obtain ⟨p, assembled, length⟩ := eq_ok_of_shown shown
  exact ⟨p, ⟨t, _, translated, SourceLine.raw_ofRaws "out.asm" t.lines, assembled⟩, length⟩

theorem answering_built : ∃ p, Built none [answering] p ∧ p.words.length = 112 :=
  built_of_shown (by decide +kernel) (by decide +kernel)

end HackToolchain.Vm
