import HackToolchain.Proofs.Assembly.Diagnosis
import HackToolchain.Proofs.Vm.Calls
import HackToolchain.Proofs.Vm.Labels

/-!
# The output is in the language of the assembler

* `failure?_emitted`: a line of the output fails only by the value of its operand;
* `oversized_of_emitted`: such a value comes from an index, from a number of arguments or from
  the address of a name;
* `output_assembles`: so the output of any calls assembles, with a word for each line of code,
  or the values that no word can load are reported.
-/

namespace HackToolchain.Vm

open Assembly (Instruction Operand Reading Statement addressOf assemble)
open Expansion

/-! ## Lines -/

def isNote (line : String) : Bool := ['/', '/'].isPrefixOf line.toList

/-- The line has the form of a label between parentheses. -/
def isLabelLine (line : String) : Bool :=
  line.toList.head? = some '(' && line.toList.getLast? = some ')'

namespace Item

variable {unit : String} {c : Command} {item : Item} {operand : String}

/-- What a line holds behind `@`. -/
def operand? : Item → Option String
  | .code (.instruction (.address operand)) => some operand.text
  | _ => none

theorem text_of_operand? (h : item.operand? = some operand) : item.text = "@" ++ operand := by
  rcases item with _ | _ | _ | _
  · cases h
  · cases h
  · obtain rfl := Option.some.inj h
    rfl
  · cases h

namespace Emitted

/-- A computation is no note, no label and no address. -/
theorem chars_of_compute {dest comp jump : String}
    (h : Item.Emitted unit c (.code (.instruction (.compute dest comp jump)))) :
    ∀ ch ∈ (Item.code (.instruction (.compute dest comp jump))).text.toList,
      ch ≠ '/' ∧ ch ≠ '(' ∧ ch ≠ '@' := by
  cases h with
  | compute known =>
    have spelled := Assembly.spelling_text dest comp jump
    exact fun ch hch => (Assembly.chars_of_spelling (plain_compute known) spelled ch hch).2

theorem operand?_of_text (h : item.Emitted unit c) (text : item.text = "@" ++ operand) :
    item.operand? = some operand := by
  have first : item.text.toList.head? = some '@' := by rw [text, String.toList_append]; rfl
  rcases item with note | name | address | ⟨dest, comp, jump⟩
  · rw [Item.text, String.toList_append] at first
    cases first
  · rw [Item.text, Statement.text, String.toList_append, String.toList_append] at first
    cases first
  · exact congrArg some ((String.append_right_inj "@").1 text)
  · exact absurd rfl (h.chars_of_compute '@' (List.mem_of_head? first)).2.2

/-- A line of the output takes a word by its form. -/
theorem takesWord_eq (h : item.Emitted unit c) :
    item.takesWord = (!isNote item.text && !isLabelLine item.text) := by
  rcases item with note | name | address | ⟨dest, comp, jump⟩
  · simp [takesWord, instruction?, isNote, Item.text]
  · have last : ('(' :: (name.toList ++ [')'])).getLast? = some ')' := by
      rw [← List.cons_append, List.getLast?_concat]
    simp [takesWord, instruction?, isLabelLine, Item.text, Statement.text, last]
  · simp [takesWord, instruction?, isNote, isLabelLine, Item.text, Statement.text, Instruction.text,
      List.isPrefixOf]
  · have chars := h.chars_of_compute
    have note : isNote (Item.code (.instruction (.compute dest comp jump))).text = false := by
      by_contra comment
      rw [Bool.not_eq_false, isNote, List.isPrefixOf_iff_prefix] at comment
      exact (chars '/' (comment.subset List.mem_cons_self)).1 rfl
    have label : isLabelLine (Item.code (.instruction (.compute dest comp jump))).text = false := by
      by_contra parenthesis
      rw [Bool.not_eq_false, isLabelLine, Bool.and_eq_true, decide_eq_true_eq] at parenthesis
      exact (chars '(' (List.mem_of_head? parenthesis.1)).2.1 rfl
    rw [note, label]
    rfl

end Emitted

end Item

/-! ## Operands -/

section

variable {unit : String} {c : Command} {item : Item} {σ : String → Nat}

/-- The value of what stands behind `@`. -/
def valueOf (σ : String → Nat) (operand : String) : Nat :=
  Hack.operandValue σ (Text.trim operand.toList)

/-- A text with a character that no number has. -/
def HasLetter (operand : String) : Prop :=
  ∃ ch ∈ operand.toList, Text.isBlank ch = false ∧ ch.isDigit = false

/-- What can be read behind `@`: a number of 64 bits, or a name without a comment in it. -/
inductive Operable : String → Prop
  | number {n : Nat} (small : n < UInt64.size) : Operable (toString n)
  | name {operand : String} (comment : ¬ ['/', '/'] <:+: operand.toList)
      (letter : HasLetter operand) : Operable operand

theorem valueOf_number (σ : String → Nat) (n : Nat) : valueOf σ (toString n) = n := by
  rw [valueOf, Hack.operandValue, Text.toList_toString, Text.trim_toDigits, Text.decimal?_toDigits,
    Option.getD_some]

theorem HasLetter.decimal? {operand : String} (h : HasLetter operand) :
    Text.decimal? (Text.trim operand.toList) = none := by
  obtain ⟨ch, hch, blank, digit⟩ := h
  exact Text.decimal?_of_not_digit (Text.mem_trim hch blank) digit

/-- A name is looked up without the blanks around it. -/
theorem valueOf_name {operand : String}
    (name : Text.decimal? (Text.trim operand.toList) = none) :
    valueOf σ operand = σ (String.ofList (Text.trim operand.toList)) := by
  rw [valueOf, Hack.operandValue, name, Option.getD_none]

theorem failure?_operable {operand : String} (h : Operable operand)
    (narrow : ∀ name, σ name < UInt64.size) {l : SourceLine} (raw : l.raw = "@" ++ operand) :
    l.failure? hack σ = Hack.valueFault? (valueOf σ operand) := by
  cases h with
  | @number n small =>
    apply Assembly.failure?_operand raw (SourceLine.no_slashes_toString n) _ narrow
    · change valueOf σ (toString n) < UInt64.size
      rwa [valueOf_number]
    · rw [Text.toList_toString, Text.trim_toDigits]
      exact Nat.toDigits_ne_nil
  | name comment letter =>
    apply Assembly.failure?_operand raw comment _ narrow
    · change valueOf σ operand < UInt64.size
      rw [valueOf_name letter.decimal?]
      exact narrow _
    · obtain ⟨ch, hch, blank, -⟩ := letter
      exact List.ne_nil_of_mem (Text.mem_trim hch blank)

theorem IsIdentifier.letter {name : String} (h : IsIdentifier name) : HasLetter name := by
  obtain ⟨ch, rest, text, digit⟩ := h.head
  have first : ch ∈ name.toList := by simp [text]
  have label := Assembly.isLabelChar_iff.1 (isLabelChar_of_isNameChar (h.chars ch first))
  exact ⟨ch, first, label.1, digit⟩

theorem staticName_letter (unit : String) (index : Word) : HasLetter (staticName unit index) :=
  ⟨'.', by simp [toList_staticName], by decide, by decide⟩

theorem operable_identifier {name : String} (h : IsIdentifier name) : Operable name := by
  refine .name (SourceLine.no_slashes_of_notMem fun slash => ?_) h.letter
  have label := isLabelChar_of_isNameChar (h.chars _ slash)
  exact absurd label (by decide)

theorem operable_static (slashes : ¬ ['/', '/'] <:+: unit.toList) (index : Word) :
    Operable (staticName unit index) :=
  .name (no_slashes_static slashes index) (staticName_letter unit index)

/-! ## Lines that fail -/

theorem eq_of_literal {n : Nat} {operand : String} (small : n < 2 ^ 17)
    (behind : (literal n).operand? = some operand) : operand = toString n := by
  have value : (BitVec.ofNat 64 n).toNat = n := by
    rw [BitVec.toNat_ofNat]
    exact Nat.mod_eq_of_lt (by omega)
  rw [literal, Item.operand?, Operand.text, value] at behind
  exact (Option.some.inj behind).symm

/-- The numbers in the output are far from what the assembler cannot read. -/
theorem operable_of_literal {n : Nat} {operand : String} (small : n < 2 ^ 17)
    (behind : (literal n).operand? = some operand) : Operable operand := by
  obtain rfl := eq_of_literal small behind
  exact .number (Nat.lt_trans small (by decide))

theorem operable_of_emitted (h : item.Emitted unit c) (slashes : ¬ ['/', '/'] <:+: unit.toList)
    {operand : String} (behind : item.operand? = some operand) : Operable operand := by
  cases h with
  | note => cases behind
  | compute => cases behind
  | label => cases behind
  | number low => exact operable_of_literal (Nat.lt_of_le_of_lt low (by decide)) behind
  | @index segment index =>
    have bound := index.isLt
    exact operable_of_literal (by omega) behind
  | @arguments name arguments =>
    have bound := arguments.isLt
    exact operable_of_literal (by omega) behind
  | symbol named =>
    obtain rfl := Option.some.inj behind
    exact operable_identifier named
  | static index =>
    obtain rfl := Option.some.inj behind
    exact operable_static slashes index

/-- **A line of the output fails only by the value of its operand.** -/
theorem failure?_emitted (h : item.Emitted unit c) (slashes : ¬ ['/', '/'] <:+: unit.toList)
    (narrow : ∀ name, σ name < UInt64.size) {l : SourceLine} (raw : l.raw = item.text) :
    l.failure? hack σ = item.operand?.bind fun operand => Hack.valueFault? (valueOf σ operand) := by
  cases behind : item.operand? with
  | some operand =>
    exact failure?_operable (operable_of_emitted h slashes behind) narrow
      (raw.trans (Item.text_of_operand? behind))
  | none =>
    have plain : item.Plain := by
      rcases h.plain_or_static with plain | ⟨index, rfl⟩
      · exact plain
      · cases behind
    have reading : l.reading = .ok item.statement? := by
      rw [← Item.reading_of_plain plain, Item.reading, ← raw]
      rfl
    cases h with
    | note => rw [SourceLine.failure?, SourceLine.encodingFailure?, reading]; rfl
    | label => rw [SourceLine.failure?, SourceLine.encodingFailure?, reading]; rfl
    | @compute dest comp jump known =>
      obtain ⟨hd, hc, hj⟩ := computations_known _ known
      rw [Assembly.failure?_of_instruction reading, Assembly.failure?_compute, Hack.computeFault?,
        if_neg (Option.isSome_iff_ne_none.1 hc), if_neg (Option.isSome_iff_ne_none.1 hd),
        if_neg (Option.isSome_iff_ne_none.1 hj)]
      rfl
    | number => cases behind
    | index => cases behind
    | arguments => cases behind
    | symbol => cases behind
    | static => cases behind

/-- Where an operand that is too large comes from. -/
inductive Oversized (σ : String → Nat) (program : List Placed) : String → Prop
  | index {unit : String} {segment : Segment} {index : Word}
      (placed : (unit, .push segment index) ∈ program ∨ (unit, .pop segment index) ∈ program)
      (large : 32767 < index.toNat) : Oversized σ program (toString index.toNat)
  | arguments {unit name : String} {arguments : Word}
      (placed : (unit, .call name arguments) ∈ program) (large : 32762 < arguments.toNat) :
      Oversized σ program (toString (5 + arguments.toNat))
  | address {operand : String} (name : Text.decimal? (Text.trim operand.toList) = none)
      (large : 32767 < σ (String.ofList (Text.trim operand.toList))) : Oversized σ program operand

theorem oversized_of_emitted {program : List Placed} (placed : (unit, c) ∈ program)
    (h : item.Emitted unit c) {operand : String} (behind : item.operand? = some operand)
    (large : Hack.maxValue < valueOf σ operand) : Oversized σ program operand := by
  have top : Hack.maxValue = 32767 := rfl
  have number : ∀ {n : Nat}, n < 2 ^ 17 → (literal n).operand? = some operand →
      operand = toString n ∧ 32767 < n := by
    intro n small behind
    obtain rfl := eq_of_literal small behind
    rw [valueOf_number, top] at large
    exact ⟨rfl, large⟩
  have named : Text.decimal? (Text.trim operand.toList) = none → Oversized σ program operand := by
    intro name
    rw [valueOf_name name] at large
    exact .address name large
  cases h with
  | note => cases behind
  | compute => cases behind
  | label => cases behind
  | @number n low =>
    have base : Hack.stackBase < 32767 := by decide
    obtain ⟨-, above⟩ := number (by omega) behind
    omega
  | @index segment index origin =>
    have bound := index.isLt
    obtain ⟨rfl, above⟩ := number (by omega) behind
    exact .index (origin.imp (· ▸ placed) (· ▸ placed)) above
  | @arguments name arguments origin =>
    subst origin
    have bound := arguments.isLt
    obtain ⟨rfl, above⟩ := number (by omega) behind
    exact .arguments placed (by omega)
  | symbol identifier =>
    obtain rfl := Option.some.inj behind
    exact named identifier.letter.decimal?
  | static index =>
    obtain rfl := Option.some.inj behind
    exact named (staticName_letter unit index).decimal?

end

/-! ## Assembling the output -/

section

variable {calls : List Call} {lines : List SourceLine} {σ : String → Nat}

/-- Every line comes from an item of a command, whose unit begins no comment. -/
theorem item_of_line (proper : ∀ call ∈ calls, call.Proper)
    (raw : lines.map SourceLine.raw = (Translator.empty.performAll calls).lines) {l : SourceLine}
    (hl : l ∈ lines) :
    ∃ item ∈ (Translator.empty.performAll calls).output.toList, ∃ c ∈ programOf calls,
      l.raw = item.text ∧ item.Emitted c.1 c.2 ∧ ¬ ['/', '/'] <:+: c.1.toList := by
  have text : l.raw ∈ (Translator.empty.performAll calls).lines :=
    raw ▸ List.mem_map_of_mem hl
  obtain ⟨item, hitem, text⟩ := List.mem_map.1 text
  obtain ⟨c, hc, emitted⟩ := output_emitted proper item hitem
  obtain ⟨call, hcall, placed⟩ := List.mem_flatMap.1 hc
  exact ⟨item, hitem, c, hc, text.symm, emitted,
    Call.no_slashes_of_mem_program (proper call hcall) placed⟩

/-- A line that fails has an operand that is too large. -/
theorem oversized_of_failure (proper : ∀ call ∈ calls, call.Proper)
    (raw : lines.map SourceLine.raw = (Translator.empty.performAll calls).lines)
    (narrow : ∀ name, σ name < UInt64.size) {l : SourceLine} (hl : l ∈ lines)
    {e : Assembly.Error} (failed : l.failure? hack σ = some e) :
    ∃ operand, l.raw = "@" ++ operand ∧ 32767 < valueOf σ operand ∧
      e = Hack.tooWide (BitVec.ofNat 64 (valueOf σ operand)) ∧
      Oversized σ (programOf calls) operand := by
  obtain ⟨item, -, c, hc, text, emitted, slashes⟩ := item_of_line proper raw hl
  rw [failure?_emitted emitted slashes narrow text] at failed
  obtain ⟨operand, behind, fault⟩ := Option.bind_eq_some_iff.1 failed
  obtain ⟨large, error⟩ := Hack.valueFault?_eq_some.1 fault
  exact ⟨operand, text.trans (Item.text_of_operand? behind), large, error,
    oversized_of_emitted hc emitted behind large⟩

/-- No line fails if no operand is too large. -/
theorem sound_iff (proper : ∀ call ∈ calls, call.Proper)
    (raw : lines.map SourceLine.raw = (Translator.empty.performAll calls).lines)
    (narrow : ∀ name, σ name < UInt64.size) :
    (∀ l ∈ lines, l.failure? hack σ = none) ↔
      ∀ operand, "@" ++ operand ∈ (Translator.empty.performAll calls).lines →
        valueOf σ operand ≤ 32767 := by
  constructor
  · intro sound operand hline
    rw [← raw] at hline
    obtain ⟨l, hl, text⟩ := List.mem_map.1 hline
    obtain ⟨item, -, c, -, same, emitted, slashes⟩ := item_of_line proper raw hl
    have behind := emitted.operand?_of_text (same.symm.trans text)
    have none := sound l hl
    rw [failure?_emitted emitted slashes narrow same, behind, Option.bind_some] at none
    exact Hack.valueFault?_eq_none.1 none
  · intro small l hl
    obtain ⟨item, hitem, c, -, same, emitted, slashes⟩ := item_of_line proper raw hl
    rw [failure?_emitted emitted slashes narrow same, Option.bind_eq_none_iff]
    intro operand behind
    apply Hack.valueFault?_eq_none.2
    apply small
    exact List.mem_map.2 ⟨item, hitem, Item.text_of_operand? behind⟩

/-- The words of a program that comes out are those of the lines that are code. -/
theorem length_words_of_output {t : Translator} {p : Assembly.Program}
    (emitted : ∀ item ∈ t.output.toList, ∃ unit c, item.Emitted unit c)
    (raw : lines.map SourceLine.raw = t.lines) (assembled : assemble hack lines = .ok p) :
    p.words.length = t.lines.countP fun line => !isNote line && !isLabelLine line := by
  have means := means_of_output raw assembled
  have counted : ∀ item ∈ t.output.toList, item.reading.takesWord = item.takesWord := by
    intro item hitem
    obtain ⟨unit, c, h⟩ := emitted item hitem
    exact h.faithful.word
  rw [means.length_words, ← means.wordCount_eq (List.Subset.refl _), wordCount_readings counted,
    codeSize, Translator.lines, List.countP_map]
  apply List.countP_congr
  intro item hitem
  obtain ⟨unit, c, h⟩ := emitted item hitem
  rw [Function.comp_apply, h.takesWord_eq]

end

/-- **The output assembles, but for values that no word can load.** Whatever is called, no code
is ever wanted for a command that pops into a constant: what a call adds are commands that were
read. If the output assembles, there is a word for each line that is neither a note nor a label.
If it does not, each report is about the value of an operand, which is an index, a number of
arguments or the address that the table of the second pass has for a name. It assembles if and
only if there is no such value. -/
theorem output_assembles {calls : List Call} (proper : ∀ call ∈ calls, call.Proper)
    (short : (Translator.empty.performAll calls).output.size < 2 ^ 31) {lines : List SourceLine}
    (raw : lines.map SourceLine.raw = (Translator.empty.performAll calls).lines) :
    let output := (Translator.empty.performAll calls).lines
    let σ := addressOf hack (lines.map SourceLine.reading)
    (∀ unit texts, .translate unit texts ∈ calls →
      (∀ t : Translator, t.addLines unit texts =
        (texts.findSome? refusal?, (commandsOf texts).foldl (fun t c => t.add unit c) t)) ∧
      ∀ index, .pop .constant index ∉ commandsOf texts) ∧
    (Assembly.Output.ofSurvey hack (Assembly.Survey.ofLines hack lines)).symbols.addresses = σ ∧
    (∀ p, assemble hack lines = .ok p →
      p.words.length = output.countP fun line => !isNote line && !isLabelLine line) ∧
    (∀ ds, assemble hack lines = .error ds → ∀ r ∈ ds,
      r.line ∈ lines ∧ ∃ operand, r.line.raw = "@" ++ operand ∧ 32767 < valueOf σ operand ∧
        r.error = Hack.tooWide (BitVec.ofNat 64 (valueOf σ operand)) ∧
        Oversized σ (programOf calls) operand) ∧
    ((∃ p, assemble hack lines = .ok p) ↔
      ∀ operand, "@" ++ operand ∈ output → valueOf σ operand ≤ 32767) := by
  intro output σ
  have countable : Assembly.Countable hack (lines.map SourceLine.reading) := by
    have size : lines.length = (Translator.empty.performAll calls).output.size := by
      rw [← List.length_map SourceLine.raw, raw, Translator.lines, List.length_map,
        Array.length_toList]
    have room : hack.varBase + 2 ^ 31 ≤ Assembly.maxAddress := by decide
    apply Assembly.Countable.of_length
    rw [List.length_map]
    omega
  have narrow := Assembly.addressOf_lt countable
  refine ⟨?_, ?_, ?_, ?_, ?_⟩
  · exact fun unit texts _ =>
      ⟨fun t => t.addLines_eq unit texts, pop_constant_notMem texts⟩
  · apply Assembly.SymbolTable.addresses_of_entries
    rw [← Assembly.tableEntries_eq (by rfl)]
    exact (Assembly.output_reports countable).1
  · intro p assembled
    apply length_words_of_output _ raw assembled
    intro item hitem
    obtain ⟨c, -, emitted⟩ := output_emitted proper item hitem
    exact ⟨c.1, c.2, emitted⟩
  · intro ds failed r hr
    obtain rfl := Assembly.eq_reports countable failed
    obtain ⟨hl, failure⟩ := Assembly.failure?_of_mem_reports hr
    exact ⟨hl, oversized_of_failure proper raw narrow hl failure⟩
  · rw [Assembly.assembles_iff countable]
    exact sound_iff proper raw narrow

/-- A unit that pushes too large a constant, and one that is refused after its first line. -/
def overloading : List Call :=
  [.bootstrap "Sys.init",
   .translate "Main" (SourceLine.ofRaws "Main.vm"
    ["function Sys.init 0", "push static 1", "push constant 40000", "return"]),
   .translate "Other" (SourceLine.ofRaws "Other.vm" ["push constant 50000", "pop constant 0"])]

theorem output_assembles_overloading :
    ∃ ds, assemble hack (SourceLine.ofRaws "out.asm"
        (Translator.empty.performAll overloading).lines) = .error ds ∧
      ∀ r ∈ ds, ∃ word, r.error = .wordWidth word 16 := by
  obtain ⟨-, -, -, reports, assembles⟩ := @output_assembles overloading (by decide)
    (by decide +kernel) _ (SourceLine.raw_ofRaws "out.asm" _)
  cases outcome : assemble hack (SourceLine.ofRaws "out.asm"
      (Translator.empty.performAll overloading).lines) with
  | ok p =>
    have small := assembles.1 ⟨p, outcome⟩ (toString 40000) (by decide +kernel)
    rw [valueOf_number] at small
    omega
  | error ds =>
    refine ⟨ds, rfl, ?_⟩
    intro r hr
    obtain ⟨-, operand, -, -, error, -⟩ := reports ds outcome r hr
    exact ⟨_, error⟩

end HackToolchain.Vm
