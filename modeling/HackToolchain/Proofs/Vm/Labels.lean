import Mathlib.Data.List.Basic
import HackToolchain.Proofs.Assembly.TwoPass
import HackToolchain.Proofs.Vm.Lines

/-!
# Labels of a program

A label line carries a name that a command defines or one that the translator makes up for a
comparison or a call.

* `Generated.text_injective`, `generated_nodup`: the translator never makes up a name twice;
* `generated_unknown`: nor one that the machine has predefined;
* `count_labels`: the label lines of a program are these two families and no others;
* `label_lines_are_targets`: a name leads to its own line unless it is predefined or belongs to
  both families.
-/

namespace HackToolchain.Vm

open Assembly (Instruction Operand Program Reading)
open CommandLine (SourceUnit translateUnits)
open Expansion

/-- A label that the translator makes up, with its number. -/
inductive Generated
  | no (name : String) (id : Nat)
  | done (name : String) (id : Nat)
  | back (callee : String) (id : Nat)
  deriving DecidableEq

namespace Generated

def text : Generated → String
  | no name id => noLabel name id
  | done name id => doneLabel name id
  | back callee id => returnLabel callee id

def id : Generated → Nat
  | no _ id | done _ id | back _ id => id

/-- What stands in front of the number, but for the last character. -/
def stem : Generated → List Char
  | no name _ => "NOT_".toList ++ name.toList
  | done name _ => "END_".toList ++ name.toList
  | back callee _ => callee.toList ++ "$ret".toList

def mark : Generated → Char
  | no .. | done .. => '_'
  | back .. => '.'

theorem toList_text (g : Generated) : g.text.toList = g.stem ++ g.mark :: Nat.toDigits 10 g.id := by
  cases g <;> simp [text, noLabel, doneLabel, returnLabel, stem, mark, id]

theorem mark_not_digit (g : Generated) : g.mark.isDigit = false := by
  cases g <;> rfl

/-- The number is what can be read off the end. -/
theorem number_injective {a b : List Char} {c d : Char} {n m : Nat} (hc : c.isDigit = false)
    (hd : d.isDigit = false) (h : a ++ c :: Nat.toDigits 10 n = b ++ d :: Nat.toDigits 10 m) :
    a = b ∧ c = d ∧ n = m := by
  have number : ∀ {a : List Char} {c : Char} {n : Nat}, c.isDigit = false →
      (a ++ c :: Nat.toDigits 10 n).reverse.takeWhile Char.isDigit =
        (Nat.toDigits 10 n).reverse := by
    intro a c n hc
    have back : (a ++ c :: Nat.toDigits 10 n).reverse =
        (Nat.toDigits 10 n).reverse ++ c :: a.reverse := by simp
    rw [back]
    apply Assembly.takeWhile_append_cons_of_stop _ hc
    exact fun x hx => Text.isDigit_of_mem_toDigits (List.mem_reverse.1 hx)
  have digits : Nat.toDigits 10 n = Nat.toDigits 10 m := by
    rw [← List.reverse_inj, ← number hc (a := a), h, number hd]
  obtain rfl : n = m := by
    have same := Text.decimal?_toDigits n
    rw [digits, Text.decimal?_toDigits] at same
    exact (Option.some.inj same).symm
  have whole : (a ++ [c]) ++ Nat.toDigits 10 n = (b ++ [d]) ++ Nat.toDigits 10 n := by
    simpa using h
  have front : a ++ [c] = b ++ [d] := List.append_cancel_right whole
  obtain ⟨rfl, last⟩ := List.append_inj' front rfl
  exact ⟨rfl, List.singleton_inj.1 last, rfl⟩

theorem text_injective {g h : Generated} (same : g.text = h.text) : g = h := by
  have chars := congrArg String.toList same
  rw [toList_text, toList_text] at chars
  obtain ⟨stems, marks, ids⟩ := number_injective g.mark_not_digit h.mark_not_digit chars
  have cancel : ∀ {front a b : String},
      front.toList ++ a.toList = front.toList ++ b.toList → a = b :=
    fun e => String.toList_inj.1 (List.append_cancel_left e)
  cases g with
  | no name n =>
    cases h with
    | no name' m =>
      obtain rfl : name = name' := cancel stems
      exact congrArg (no name) ids
    | done => simp [stem] at stems
    | back => simp [mark] at marks
  | done name n =>
    cases h with
    | no => simp [stem] at stems
    | done name' m =>
      obtain rfl : name = name' := cancel stems
      exact congrArg (done name) ids
    | back => simp [mark] at marks
  | back callee n =>
    cases h with
    | no => simp [mark] at marks
    | done => simp [mark] at marks
    | back callee' m =>
      obtain rfl : callee = callee' :=
        String.toList_inj.1 (List.append_cancel_right stems)
      exact congrArg (back callee) ids

/-- The label is made up at these counters or later. -/
def Since (n : Counters) : Generated → Prop
  | no _ id | done _ id => n.comparisons ≤ id
  | back _ id => n.calls ≤ id

theorem Since.of_next {n : Counters} {c : Command} {g : Generated} (h : g.Since (n.next c)) :
    g.Since n := by
  have grow : n.comparisons ≤ (n.next c).comparisons ∧ n.calls ≤ (n.next c).calls := by
    unfold Counters.next
    split <;> simp
  cases g with
  | no name id => exact Nat.le_trans grow.1 h
  | done name id => exact Nat.le_trans grow.1 h
  | back callee id => exact Nat.le_trans grow.2 h

end Generated

/-- How a comparison appears in its labels. -/
def Operator.capitals? : Operator → Option String
  | eq => some "EQ"
  | lt => some "LT"
  | gt => some "GT"
  | _ => none

namespace Command

/-- The labels made up for one command. -/
def generated (n : Counters) : Command → List Generated
  | operate op =>
    match op.capitals? with
    | some name => [.no name n.comparisons, .done name n.comparisons]
    | none => []
  | call name _ => [.back name n.calls]
  | _ => []

theorem since_of_mem_generated {n : Counters} {c : Command} {g : Generated}
    (h : g ∈ c.generated n) : g.Since n ∧ ¬ g.Since (n.next c) := by
  cases c with
  | operate op =>
    cases op <;>
      simp only [generated, Operator.capitals?, List.mem_cons, List.not_mem_nil, or_false] at h
    all_goals
      rcases h with rfl | rfl
      all_goals simp [Generated.Since, Counters.next]
  | call name arguments =>
    obtain rfl := List.mem_singleton.1 h
    simp [Generated.Since, Counters.next]
  | _ => cases h

theorem generated_nodup (n : Counters) (c : Command) : (c.generated n).Nodup := by
  cases c with
  | operate op => cases op <;> simp [generated, Operator.capitals?]
  | _ => simp [generated]

end Command

/-- The labels made up for commands, in order. -/
def generated (n : Counters) : List Placed → List Generated
  | [] => []
  | (_, c) :: rest => c.generated n ++ generated (n.next c) rest

theorem generated_append (n : Counters) (front back : List Placed) :
    generated n (front ++ back) = generated n front ++ generated (countersAfter n front) back := by
  induction front generalizing n with
  | nil => rfl
  | cons c rest ih => rw [List.cons_append, generated, ih, ← List.append_assoc]; rfl

/-- The names that commands define, in order. -/
def definedNames (program : List Placed) : List String :=
  program.filterMap fun c => c.2.defined?

theorem since_of_mem_generated {n : Counters} {program : List Placed} {g : Generated}
    (h : g ∈ generated n program) : g.Since n := by
  induction program generalizing n with
  | nil => cases h
  | cons c rest ih =>
    rcases List.mem_append.1 h with h | h
    · exact (Command.since_of_mem_generated h).1
    · exact (ih h).of_next

theorem generated_nodup (n : Counters) (program : List Placed) : (generated n program).Nodup := by
  induction program generalizing n with
  | nil => exact List.nodup_nil
  | cons c rest ih =>
    refine List.nodup_append.2 ⟨Command.generated_nodup n c.2, ih _, ?_⟩
    rintro g hg _ hr rfl
    exact (Command.since_of_mem_generated hg).2 (since_of_mem_generated hr)

/-- **No label is made up twice.** -/
theorem generated_texts_nodup (n : Counters) (program : List Placed) :
    ((generated n program).map Generated.text).Nodup :=
  List.Pairwise.map _ (fun _ _ ne same => ne (Generated.text_injective same))
    (generated_nodup n program)

/-- The predefined names are letters and digits. -/
theorem predefined_signs : ∀ name ∈ hack.symbols.keys, '_' ∉ name.toList ∧ '.' ∉ name.toList := by
  decide +kernel

theorem generated_unknown (g : Generated) : g.text ∉ hack.symbols.keys := by
  intro known
  have marked : g.mark ∈ g.text.toList := by simp [Generated.toList_text]
  obtain ⟨underscore, point⟩ := predefined_signs _ known
  cases g with
  | no => exact underscore marked
  | done => exact underscore marked
  | back => exact point marked

/-! ## Label lines -/

def labelsOf (items : List Item) : List String := items.filterMap Item.label?

/-- The number of words that lines make. -/
def codeSize (items : List Item) : Nat := items.countP Item.takesWord

theorem labelsOf_append (front back : List Item) :
    labelsOf (front ++ back) = labelsOf front ++ labelsOf back :=
  List.filterMap_append

theorem labelsOf_function (name : String) (locals : Word) :
    labelsOf (function name locals) = [name] := by
  have push : ∀ item ∈ pushD, item.label? = none := by decide
  have pushes : labelsOf (List.replicate locals.toNat pushD).flatten = [] := by
    rw [labelsOf, List.filterMap_eq_nil_iff]
    intro item hitem
    obtain ⟨part, hpart, hitem⟩ := List.mem_flatten.1 hitem
    obtain rfl := List.eq_of_mem_replicate hpart
    exact push item hitem
  unfold function
  rw [labelsOf_append]
  split
  · rfl
  · have zero : ∀ rest, labelsOf (assign "D" "0" :: rest) = labelsOf rest := fun _ => rfl
    rw [zero, pushes]
    rfl

/-- A command has label lines for the name that it defines and for those made up. -/
theorem labelsOf_expand (unit : String) (n : Counters) (c : Command) :
    labelsOf (c.expand unit n) = c.defined?.toList ++ (c.generated n).map Generated.text := by
  have note : labelsOf (c.expand unit n) = labelsOf (c.statements unit n) := rfl
  rw [note]
  cases c with
  | function name locals => exact labelsOf_function name locals
  | push segment index =>
    cases segment <;> rfl
  | pop segment index =>
    cases segment <;> rfl
  | operate op => cases op <;> rfl
  | _ => rfl

theorem count_labels (n : Counters) (program : List Placed) (name : String) :
    (labelsOf (expansion n program)).count name =
      (definedNames program).count name +
        ((generated n program).map Generated.text).count name := by
  induction program generalizing n with
  | nil => rfl
  | cons c rest ih =>
    have defined : definedNames (c :: rest) = c.2.defined?.toList ++ definedNames rest := by
      cases h : c.2.defined? <;> simp [definedNames, h]
    have made : generated n (c :: rest) = c.2.generated n ++ generated (n.next c.2) rest := rfl
    rw [defined, made, expansion, labelsOf_append, labelsOf_expand, List.map_append]
    simp only [List.count_append, ih]
    omega

theorem labelsOf_preamble (entry : Option String) : labelsOf (preamble entry) = [] := by
  cases entry <;> rfl

section

variable {entry : Option String} {units : List SourceUnit} {t : Translator}

theorem count_labels_output (translated : translateUnits (.started entry) units = .ok t)
    (name : String) :
    (labelsOf t.output.toList).count name =
      (definedNames (program entry units)).count name +
        ((generated ⟨0, 0⟩ (program entry units)).map Generated.text).count name := by
  rw [output_of_translateUnits translated, labelsOf_append, labelsOf_preamble, List.nil_append,
    count_labels]

/-- A name with one line has it in one place. -/
theorem split_at_label {items : List Item} {name : String} (h : (labelsOf items).count name = 1) :
    ∃ before after, items = before ++ label name :: after ∧ name ∉ labelsOf before ∧
      name ∉ labelsOf after := by
  have there : name ∈ labelsOf items := List.count_pos_iff.1 (by omega)
  obtain ⟨item, hitem, named⟩ := List.mem_filterMap.1 there
  obtain rfl : item = label name := by
    rcases item with _ | _ | _
    · cases named
    · cases named
      rfl
    · cases named
  obtain ⟨before, after, rfl⟩ := List.append_of_mem hitem
  have once : (labelsOf before).count name + (1 + (labelsOf after).count name) = 1 := by
    have line : labelsOf (before ++ label name :: after) =
        labelsOf before ++ name :: labelsOf after := labelsOf_append _ _
    rw [line, List.count_append, List.count_cons_self] at h
    omega
  exact ⟨before, after, rfl, List.count_eq_zero.1 (by omega), List.count_eq_zero.1 (by omega)⟩

end

/-! ## Assembled programs -/

section

variable {items : List Item} {lines : List SourceLine}

theorem readings_of_raw (raw : lines.map SourceLine.raw = items.map Item.text) :
    lines.map SourceLine.reading = items.map Item.reading := by
  have texts : lines.map SourceLine.reading = (lines.map SourceLine.raw).map Reading.ofText := by
    rw [List.map_map]
    rfl
  rw [texts, raw, List.map_map]
  rfl

theorem wordCount_readings
    (counted : ∀ item ∈ items, item.reading.takesWord = item.takesWord) :
    Assembly.wordCount (items.map Item.reading) = codeSize items := by
  rw [Assembly.wordCount, codeSize, List.countP_map]
  apply List.countP_congr
  intro item hitem
  rw [Function.comp_apply, counted item hitem]

theorem labelNames_readings (faithful : ∀ item ∈ items, item.Faithful) :
    Assembly.labelNames (items.map Item.reading) = labelsOf items := by
  rw [Assembly.labelNames, labelsOf, List.filterMap_map]
  apply List.filterMap_congr
  intro item hitem
  exact (faithful item hitem).label

variable {p : Program} {name : String} {before after : List Item}

/-- The first line with a name that is not predefined gives the name the place of the next
word. -/
theorem get?_of_first_label (means : p.Means hack (items.map Item.reading))
    (faithful : ∀ item ∈ items, item.Faithful) (split : items = before ++ label name :: after)
    (first : name ∉ labelsOf before) (unknown : name ∉ hack.symbols.keys) :
    p.symbols.get? name = some ⟨.label, codeSize before⟩ := by
  have part : ∀ item ∈ before, item.Faithful :=
    fun item hitem => faithful item (by simp [split, hitem])
  have line : (label name).reading.label? = some name :=
    (faithful (label name) (by simp [split])).label
  rw [← wordCount_readings fun item hitem => (part item hitem).word]
  have readings : items.map Item.reading =
      before.map Item.reading ++ (label name).reading :: after.map Item.reading := by
    rw [split, List.map_append, List.map_cons]
  have earlier : name ∉ Assembly.labelNames (before.map Item.reading) :=
    fun h => first (labelNames_readings part ▸ h)
  exact means.get?_label readings line earlier (Table.get?_eq_none_iff.2 unknown)

/-- The word of a line that loads a name holds the address of the name. -/
theorem word_of_symbol (means : p.Means hack (items.map Item.reading))
    (faithful : ∀ item ∈ items, item.Faithful) (split : items = before ++ symbol name :: after)
    (plain : (symbol name).Plain) {address : Nat} (h : p.symbols.address? name = some address) :
    ∃ word, p.words[codeSize before]? = some word ∧ ∀ table,
      ((Instruction.address (.literal (BitVec.ofNat 64 address))).encode hack table).1 =
        .ok word := by
  have part : ∀ item ∈ before, item.Faithful :=
    fun item hitem => faithful item (by simp [split, hitem])
  have readings : items.map Item.reading =
      before.map Item.reading ++ (symbol name).reading :: after.map Item.reading := by
    rw [split, List.map_append, List.map_cons]
  have holds : (symbol name).reading.instruction? = some (.address (.symbol name)) :=
    Item.instruction?_reading plain
  obtain ⟨word, there, encoded⟩ := means.word_at readings holds
  rw [wordCount_readings fun item hitem => (part item hitem).word] at there
  refine ⟨word, there, fun table => ?_⟩
  rw [← encoded table, Instruction.resolved, means.addressOf_eq h]

end

section

variable {entry : Option String} {units : List SourceUnit} {t : Translator}
  {lines : List SourceLine} {p : Program} {name : String}

theorem means_of_output (raw : lines.map SourceLine.raw = t.lines)
    (assembled : Assembly.assemble hack lines = .ok p) :
    p.Means hack (t.output.toList.map Item.reading) := by
  rw [← readings_of_raw raw]
  apply Assembly.means_of_assemble _ assembled
  intro layout there
  obtain rfl := Option.some.inj there
  decide

theorem translated_faithful (identifier : ∀ name ∈ entry, IsIdentifier name)
    (translated : translateUnits (.started entry) units = .ok t) :
    ∀ item ∈ t.output.toList, item.Faithful := by
  rw [output_of_translateUnits translated]
  exact output_faithful fun c hc => valid_of_mem_program identifier hc

/-- The names of label lines are identifiers. -/
theorem isIdentifier_of_mem_labels {program : List Placed} {n : Counters}
    (valid : ∀ c ∈ program, c.2.Valid)
    (h : name ∈ definedNames program ∨ name ∈ (generated n program).map Generated.text) :
    IsIdentifier name := by
  rcases h with h | h
  · obtain ⟨c, hc, named⟩ := List.mem_filterMap.1 h
    exact (valid c hc).named name (by rw [Command.name?, named, Option.some_or])
  · obtain ⟨g, hg, rfl⟩ := List.mem_map.1 h
    clear h
    induction program generalizing n with
    | nil => cases hg
    | cons c rest ih =>
      rcases List.mem_append.1 hg with hg | hg
      · have here := valid c List.mem_cons_self
        obtain ⟨unit, command⟩ := c
        cases command with
        | operate op =>
          cases op <;>
            simp only [Command.generated, Operator.capitals?, List.mem_cons, List.not_mem_nil,
              or_false] at hg
          all_goals
            rcases hg with rfl | rfl
            all_goals exact isIdentifier_numbered (by decide) _
        | call callee arguments =>
          obtain rfl := List.mem_singleton.1 hg
          exact (here.named callee rfl).returnLabel n.calls
        | _ => cases hg
      · exact ih (fun c hc => valid c (List.mem_cons_of_mem _ hc)) hg

/-- **A label leads to its own line.** No made-up label is predefined, and none is made up
twice. A name that a command defines or the translator makes up, but not both, has a single
line. If it is not predefined, it is bound to the number of words in front of that line, and
every instruction that loads it holds this number. A predefined name keeps its address, and
of the lines of a name that is both defined and made up the first one counts. -/
theorem label_lines_are_targets (identifier : ∀ name ∈ entry, IsIdentifier name)
    (translated : translateUnits (.started entry) units = .ok t)
    (raw : lines.map SourceLine.raw = t.lines)
    (assembled : Assembly.assemble hack lines = .ok p)
    (distinct : (definedNames (program entry units)).Nodup) :
    let defined := definedNames (program entry units)
    let made := (generated ⟨0, 0⟩ (program entry units)).map Generated.text
    (made.Nodup ∧ ∀ name ∈ made, name ∉ hack.symbols.keys) ∧
    (∀ name, name ∈ defined ∨ name ∈ made → ¬ (name ∈ defined ∧ name ∈ made) →
      ∃ before after, t.output.toList = before ++ label name :: after ∧
        name ∉ labelsOf before ∧ name ∉ labelsOf after ∧
        (name ∉ hack.symbols.keys →
          p.symbols.get? name = some ⟨.label, codeSize before⟩ ∧
          ∀ front back, t.output.toList = front ++ symbol name :: back →
            ∃ word, p.words[codeSize front]? = some word ∧ ∀ table,
              ((Instruction.address (.literal (BitVec.ofNat 64 (codeSize before)))).encode
                hack table).1 = .ok word)) ∧
    (∀ name address, hack.symbols.get? name = some address →
      p.symbols.get? name = some ⟨.predefined, address⟩) ∧
    (∀ before name after, t.output.toList = before ++ label name :: after →
      name ∉ labelsOf before → name ∉ hack.symbols.keys →
      p.symbols.get? name = some ⟨.label, codeSize before⟩) := by
  have means := means_of_output raw assembled
  have faithful := translated_faithful identifier translated
  have unknown : ∀ name ∈ (generated ⟨0, 0⟩ (program entry units)).map Generated.text,
      name ∉ hack.symbols.keys := by
    intro name hname
    obtain ⟨g, -, rfl⟩ := List.mem_map.1 hname
    exact generated_unknown g
  intro defined made
  refine ⟨⟨generated_texts_nodup _ _, unknown⟩, ?_, fun name address => means.get?_predefined,
    fun before name after split first => get?_of_first_label means faithful split first⟩
  intro name there apart
  have once : (labelsOf t.output.toList).count name = 1 := by
    rw [count_labels_output translated, distinct.count,
      (generated_texts_nodup ⟨0, 0⟩ (program entry units)).count]
    by_cases one : name ∈ defined
    · have other : name ∉ made := fun h => apart ⟨one, h⟩
      rw [if_pos one, if_neg other]
    · rw [if_neg one, if_pos (there.resolve_left one)]
  obtain ⟨before, after, split, first, last⟩ := split_at_label once
  refine ⟨before, after, split, first, last, fun free => ?_⟩
  have bound := get?_of_first_label means faithful split first free
  have plain : (symbol name).Plain := plain_symbol
    (isIdentifier_of_mem_labels (fun c hc => valid_of_mem_program identifier hc) there)
  have address : p.symbols.address? name = some (codeSize before) := by
    rw [Assembly.SymbolTable.address?, bound]
    rfl
  exact ⟨bound, fun front back use => word_of_symbol means faithful use plain address⟩

end

/-- A loop that is left when a comparison fails. -/
def waiting : SourceUnit :=
  ⟨"Main", SourceLine.ofRaws "Main.vm"
    ["label WAIT", "push static 0", "push constant 1", "eq", "if-goto WAIT"]⟩

theorem label_lines_are_targets_waiting :
    ∃ t p before after, translateUnits (.started none) [waiting] = .ok t ∧
      Assembly.assemble hack (SourceLine.ofRaws "out.asm" t.lines) = .ok p ∧
      t.output.toList = before ++ label "WAIT" :: after ∧
      p.symbols.get? "WAIT" = some ⟨.label, codeSize before⟩ := by
  let t := (Translator.empty.translate waiting.name waiting.lines).2
  have translated : translateUnits (.started none) [waiting] = .ok t := by rfl
  have done : (Assembly.assemble hack (SourceLine.ofRaws "out.asm" t.lines)).toOption.isSome =
      true := by decide +kernel
  cases h : Assembly.assemble hack (SourceLine.ofRaws "out.asm" t.lines) with
  | error e =>
    rw [h] at done
    cases done
  | ok p =>
    have raw := SourceLine.raw_ofRaws "out.asm" t.lines
    obtain ⟨-, lines, -⟩ :=
      label_lines_are_targets (by simp) translated raw h (by decide +kernel)
    obtain ⟨before, after, split, -, -, bound⟩ :=
      lines "WAIT" (.inl (by decide +kernel)) (fun both => absurd both.2 (by decide +kernel))
    exact ⟨t, p, before, after, translated, h, split, (bound (by decide +kernel)).1⟩

/-- A label with the name of a cell. -/
def shadowing : SourceUnit :=
  ⟨"Main", SourceLine.ofRaws "Main.vm" ["push constant 7", "label SP", "goto SP"]⟩

/-- A label with the name that the first comparison makes up. -/
def colliding : SourceUnit :=
  ⟨"Main", SourceLine.ofRaws "Main.vm"
    ["label NOT_EQ_0", "push constant 1", "push constant 2", "eq"]⟩

/-- Neither exception can be left out: names may be taken before their line is reached. -/
theorem names_taken_before :
    (∃ t p before after, translateUnits (.started none) [shadowing] = .ok t ∧
      Assembly.assemble hack (SourceLine.ofRaws "out.asm" t.lines) = .ok p ∧
      (definedNames (program none [shadowing])).Nodup ∧
      "SP" ∈ definedNames (program none [shadowing]) ∧
      t.output.toList = before ++ label "SP" :: after ∧
      p.symbols.address? "SP" ≠ some (codeSize before)) ∧
    ∃ t p before after, translateUnits (.started none) [colliding] = .ok t ∧
      Assembly.assemble hack (SourceLine.ofRaws "out.asm" t.lines) = .ok p ∧
      (definedNames (program none [colliding])).Nodup ∧
      "NOT_EQ_0" ∈ (generated ⟨0, 0⟩ (program none [colliding])).map Generated.text ∧
      t.output.toList = before ++ label "NOT_EQ_0" :: after ∧
      p.symbols.address? "NOT_EQ_0" ≠ some (codeSize before) := by
  have runs : ∀ (lines : List SourceLine) (name : String) (address : Nat),
      (Assembly.assemble hack lines).toOption.bind (·.symbols.address? name) = some address →
        ∃ p, Assembly.assemble hack lines = .ok p ∧ p.symbols.address? name = some address := by
    intro lines name address h
    cases hp : Assembly.assemble hack lines with
    | error e => simp [hp, Except.toOption] at h
    | ok p => exact ⟨p, rfl, by simpa [hp, Except.toOption] using h⟩
  constructor
  · let t := (Translator.empty.translate shadowing.name shadowing.lines).2
    obtain ⟨p, assembled, address⟩ :=
      runs (SourceLine.ofRaws "out.asm" t.lines) "SP" 0 (by decide +kernel)
    refine ⟨t, p, t.output.toList.take 9, t.output.toList.drop 10, by rfl, assembled,
      by decide +kernel, by decide +kernel, by decide +kernel, ?_⟩
    rw [address]
    decide +kernel
  · let t := (Translator.empty.translate colliding.name colliding.lines).2
    obtain ⟨p, assembled, address⟩ :=
      runs (SourceLine.ofRaws "out.asm" t.lines) "NOT_EQ_0" 0 (by decide +kernel)
    refine ⟨t, p, t.output.toList.take 31, t.output.toList.drop 32, by rfl, assembled,
      by decide +kernel, by decide +kernel, by decide +kernel, ?_⟩
    rw [address]
    decide +kernel

end HackToolchain.Vm
