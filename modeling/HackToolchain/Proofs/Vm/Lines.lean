import HackToolchain.Proofs.Machine.Mnemonics
import HackToolchain.Proofs.Vm.Meaning
import HackToolchain.Proofs.Vm.Output

/-!
# How the assembler reads the output

* `reading_of_plain`: a line whose names and mnemonics are plain is read as it was meant;
* `expand_emitted`: the lines of a valid command are of a few kinds, whatever the unit is called;
* `Item.Emitted.plain`: in a unit with a plain name all of them are plain;
* `Item.Emitted.faithful`: in any unit they are read as the labels and the words that they are.
-/

namespace HackToolchain.Vm

open Assembly (Instruction Operand Reading Statement isMnemonic isLabelChar)
open Expansion

namespace Item

/-- What the assembler makes of the line. -/
def reading (item : Item) : Reading := .ofText item.text

def statement? : Item → Option Statement
  | note _ => none
  | code s => some s

def label? : Item → Option String
  | code (.label name) => some name
  | _ => none

def instruction? : Item → Option Instruction
  | code (.instruction i) => some i
  | _ => none

def takesWord (item : Item) : Bool := item.instruction?.isSome

def Plain : Item → Prop
  | note _ => True
  | code s => s.Plain

/-- The line is read as the label or the word that it is. -/
structure Faithful (item : Item) : Prop where
  label : item.reading.label? = item.label?
  word : item.reading.takesWord = item.takesWord

theorem reading_of_plain {item : Item} (h : item.Plain) : item.reading = .ok item.statement? := by
  cases item with
  | note text => exact Assembly.reading_comment text
  | code s => exact Assembly.reading_text h

theorem instruction?_reading {item : Item} (h : item.Plain) :
    item.reading.instruction? = item.instruction? := by
  rw [reading_of_plain h]
  rcases item with _ | _ | _ <;> rfl

theorem Plain.faithful {item : Item} (h : item.Plain) : item.Faithful := by
  constructor
  · rw [reading_of_plain h]
    rcases item with _ | _ | _ <;> rfl
  · rw [reading_of_plain h]
    rcases item with _ | _ | _ <;> rfl

/-- A line that begins with `@` is no label, whatever follows. -/
theorem symbol_faithful (name : String) : (symbol name).Faithful := by
  obtain ⟨label, word⟩ := Assembly.reading_at name
  exact ⟨label, word⟩

/-- A line that begins with `(` takes no word, whatever follows. -/
theorem label_takesWord (name : String) : (label name).reading.takesWord = false := by
  have text : (label name).text = "(" ++ (name ++ ")") := String.append_assoc
  rw [reading, text]
  exact Assembly.reading_parenthesis _

end Item

/-! ## Identifiers -/

theorem isNameChar_of_isDigit {c : Char} (h : c.isDigit = true) : isNameChar c = true :=
  isNameChar_iff.2 (.inl (by simp [Char.isAlphanum, h]))

/-- The characters of names are no blanks and no signs of the assembler. -/
theorem isLabelChar_of_isNameChar {c : Char} (h : isNameChar c = true) : isLabelChar c = true := by
  have code : 32 < c.toNat ∧ c.toNat < 127 ∧ c.toNat ≠ 47 ∧ c.toNat ≠ 41 := by
    rcases isNameChar_iff.1 h with h | rfl | rfl | rfl | rfl
    · have range : 48 ≤ c.toNat ∧ c.toNat ≤ 57 ∨ 65 ≤ c.toNat ∧ c.toNat ≤ 90 ∨
          97 ≤ c.toNat ∧ c.toNat ≤ 122 := by
        change ((decide (65 ≤ c.val ∧ c.val ≤ 90) || (97 ≤ c.val && c.val ≤ 122)) ||
          (48 ≤ c.val && c.val ≤ 57)) = true at h
        simpa [UInt32.le_iff_toNat_le, or_comm, or_assoc, or_left_comm] using h
      omega
    all_goals decide
  obtain ⟨low, high, slash, close⟩ := code
  have ne : ∀ d : Char, c.toNat ≠ d.toNat → c ≠ d := fun d hd e => hd (congrArg Char.toNat e)
  simp [isLabelChar, Text.isBlank_of_ascii low high, ne '/' slash, ne ')' close]

section

variable {name : String}

theorem IsIdentifier.chars (h : IsIdentifier name) : ∀ c ∈ name.toList, isNameChar c = true := by
  obtain ⟨good, -⟩ := h
  cases hn : name.toList with
  | nil => simp
  | cons c r =>
    rw [hn, isName, Bool.and_eq_true] at good
    exact List.all_eq_true.1 good.1

/-- An identifier begins with a character that is no digit. -/
theorem IsIdentifier.head (h : IsIdentifier name) :
    ∃ c r, name.toList = c :: r ∧ c.isDigit = false := by
  obtain ⟨good, nonempty⟩ := h
  cases hn : name.toList with
  | nil => exact absurd (String.toList_eq_nil_iff.1 hn) nonempty
  | cons c r =>
    rw [hn, isName, Bool.and_eq_true] at good
    exact ⟨c, r, rfl, by simpa using good.2⟩

theorem isIdentifier_of_chars (chars : ∀ c ∈ name.toList, isNameChar c = true)
    (head : ∃ c r, name.toList = c :: r ∧ c.isDigit = false) : IsIdentifier name := by
  obtain ⟨c, r, hn, digit⟩ := head
  constructor
  · rw [hn, isName, Bool.and_eq_true]
    refine ⟨List.all_eq_true.2 ?_, by simp [digit]⟩
    rwa [hn] at chars
  · rintro rfl
    cases hn

theorem IsIdentifier.append (h : IsIdentifier name) (more : String)
    (chars : more.toList.all isNameChar = true) : IsIdentifier (name ++ more) := by
  apply isIdentifier_of_chars
  · intro c hc
    rw [String.toList_append, List.mem_append] at hc
    rcases hc with hc | hc
    · exact h.chars c hc
    · exact List.all_eq_true.1 chars c hc
  · obtain ⟨c, r, hn, digit⟩ := h.head
    exact ⟨c, r ++ more.toList, by rw [String.toList_append, hn]; rfl, digit⟩

theorem isNameChar_toString (n : Nat) : (toString n).toList.all isNameChar = true := by
  rw [List.all_eq_true, Text.toList_toString]
  exact fun c hc => isNameChar_of_isDigit (Text.isDigit_of_mem_toDigits hc)

theorem IsIdentifier.returnLabel (h : IsIdentifier name) (id : Nat) :
    IsIdentifier (returnLabel name id) :=
  (h.append "$ret." (by decide)).append _ (isNameChar_toString id)

/-- Where a comparison leads when it fails. -/
def noLabel (name : String) (id : Nat) : String := "NOT_" ++ name ++ "_" ++ toString id

/-- Where a comparison ends. -/
def doneLabel (name : String) (id : Nat) : String := "END_" ++ name ++ "_" ++ toString id

theorem isIdentifier_numbered (front : IsIdentifier name) (id : Nat) :
    IsIdentifier (name ++ "_" ++ toString id) :=
  (front.append "_" (by decide)).append _ (isNameChar_toString id)

/-! ## Plain lines -/

theorem plain_label (h : IsIdentifier name) : (label name).Plain :=
  List.all_eq_true.2 fun c hc => isLabelChar_of_isNameChar (h.chars c hc)

theorem plain_symbol (h : IsIdentifier name) : (symbol name).Plain := by
  have chars : ∀ c ∈ name.toList, Text.isBlank c = false ∧ c ≠ '/' := by
    intro c hc
    have good := Assembly.isLabelChar_iff.1 (isLabelChar_of_isNameChar (h.chars c hc))
    exact ⟨good.1, good.2.1⟩
  obtain ⟨c, r, hn, digit⟩ := h.head
  refine ⟨Text.trim_of_no_blank fun c hc => (chars c hc).1, ?_, c, hn ▸ List.mem_cons_self, digit⟩
  exact SourceLine.no_slashes_of_notMem fun hc => (chars _ hc).2 rfl

end

/-- Nothing in the name of a unit is lost around the operand of an instruction. -/
def IsPlainUnit (unit : String) : Prop :=
  Text.trim unit.toList = unit.toList ∧ ¬ ['/', '/'] <:+: unit.toList

instance (unit : String) : Decidable (IsPlainUnit unit) := inferInstanceAs (Decidable (_ ∧ _))

theorem toList_staticName (unit : String) (index : Word) :
    (staticName unit index).toList = unit.toList ++ '.' :: Nat.toDigits 10 index.toNat := by
  simp [staticName]

theorem no_slashes_static {unit : String} (h : ¬ ['/', '/'] <:+: unit.toList) (index : Word) :
    ¬ ['/', '/'] <:+: (staticName unit index).toList := by
  rw [toList_staticName]
  apply SourceLine.no_slashes_append h
  simpa using Text.notMem_toDigits (by decide) index.toNat

theorem plain_static {unit : String} (h : IsPlainUnit unit) (index : Word) :
    (symbol (staticName unit index)).Plain := by
  obtain ⟨trimmed, slashes⟩ := h
  refine ⟨?_, no_slashes_static slashes index, '.', by simp [toList_staticName], by decide⟩
  -- The last character is a digit, and in front there is the unit or the point.
  obtain ⟨front, last, split⟩ : ∃ front last, Nat.toDigits 10 index.toNat = front ++ [last] :=
    ⟨_, _, (List.dropLast_concat_getLast Nat.toDigits_ne_nil).symm⟩
  have ends : Text.isBlank last = false :=
    Text.isBlank_of_isDigit (Text.isDigit_of_mem_toDigits (split ▸ List.mem_concat_self))
  rw [toList_staticName, split, ← List.cons_append, ← List.append_assoc]
  refine Text.trim_concat ?_ ends
  rw [List.dropWhile_append, Text.dropWhile_of_trimmed trimmed]
  split
  · rename_i empty
    simp [List.isEmpty_iff.1 empty, show Text.isBlank '.' = false by decide]
  · rfl

/-- The computations that commands are expanded to. -/
def computations : List (String × String × String) :=
  [("A", "M", "null"), ("A", "M-1", "null"), ("A", "A-1", "null"), ("A", "D+M", "null"),
   ("A", "D-A", "null"), ("D", "A", "null"), ("D", "M", "null"), ("D", "0", "null"),
   ("D", "D+M", "null"), ("D", "D-A", "null"), ("D", "M-D", "null"), ("D", "M+1", "null"),
   ("M", "D", "null"), ("M", "M+1", "null"), ("M", "D+M", "null"), ("M", "M-D", "null"),
   ("M", "D&M", "null"), ("M", "D|M", "null"), ("M", "-M", "null"), ("M", "!M", "null"),
   ("M", "-1", "null"), ("M", "0", "null"), ("AM", "M-1", "null"), ("null", "0", "JMP"),
   ("null", "D", "JLT"), ("null", "D", "JNE"), ("null", "D", "JGE"), ("null", "D", "JLE")]

/-- All of them are in mnemonics of the machine. -/
theorem computations_known : ∀ i ∈ computations,
    (hack.dest.code? i.1).isSome ∧ (hack.comp.code? i.2.1).isSome ∧
      (hack.jump.code? i.2.2).isSome := by
  decide +kernel

theorem plain_compute {dest comp jump : String} (h : (dest, comp, jump) ∈ computations) :
    (Instruction.compute dest comp jump).Plain := by
  obtain ⟨hd, hc, hj⟩ := computations_known _ h
  obtain ⟨_, hd⟩ := Option.isSome_iff_exists.1 hd
  obtain ⟨_, hc⟩ := Option.isSome_iff_exists.1 hc
  obtain ⟨_, hj⟩ := Option.isSome_iff_exists.1 hj
  exact (Hack.plain_of_codes hc hd hj).1

theorem cell_isIdentifier (c : Hack.Cell) : IsIdentifier c.name := by
  cases c <;> decide

def AllPlain (items : List Item) : Prop := ∀ item ∈ items, item.Plain

/-! ## Expansions -/

/-- The kinds of lines that a command in a unit is expanded to. Numbers that the code itself
holds are small; the others are an index or a number of arguments. -/
inductive Item.Emitted (unit : String) (c : Command) : Item → Prop
  | note {text : String} (h : text = c.text ∨ text = "bootstrap") : Emitted unit c (.note text)
  | compute {dest comp jump : String} (h : (dest, comp, jump) ∈ computations) :
      Emitted unit c (.code (.instruction (.compute dest comp jump)))
  | number {n : Nat} (h : n ≤ Hack.stackBase) : Emitted unit c (literal n)
  | index {segment : Segment} {index : Word}
      (h : c = .push segment index ∨ c = .pop segment index) : Emitted unit c (literal index.toNat)
  | arguments {name : String} {arguments : Word} (h : c = .call name arguments) :
      Emitted unit c (literal (5 + arguments.toNat))
  | symbol {name : String} (h : IsIdentifier name) : Emitted unit c (symbol name)
  | static (index : Word) : Emitted unit c (Expansion.symbol (staticName unit index))
  | label {name : String} (h : IsIdentifier name) : Emitted unit c (label name)

def AllEmitted (unit : String) (c : Command) (items : List Item) : Prop :=
  ∀ item ∈ items, item.Emitted unit c

section

variable {unit : String} {c : Command}

@[simp] theorem allEmitted_nil : AllEmitted unit c [] := by
  simp [AllEmitted]

@[simp] theorem allEmitted_cons {item : Item} {items : List Item} :
    AllEmitted unit c (item :: items) ↔ item.Emitted unit c ∧ AllEmitted unit c items :=
  List.forall_mem_cons

@[simp] theorem allEmitted_append {front back : List Item} :
    AllEmitted unit c (front ++ back) ↔ AllEmitted unit c front ∧ AllEmitted unit c back :=
  List.forall_mem_append

theorem assign_emitted {dest comp : String} (h : (dest, comp, "null") ∈ computations) :
    (assign dest comp).Emitted unit c :=
  .compute h

theorem branch_emitted {comp jump : String} (h : ("null", comp, jump) ∈ computations) :
    (branch comp jump).Emitted unit c :=
  .compute h

theorem cell_emitted (x : Hack.Cell) : (cell x).Emitted unit c :=
  .symbol (cell_isIdentifier x)

theorem pushD_emitted : AllEmitted unit c pushD := by
  simp +decide [pushD, cell_emitted, assign_emitted]

theorem popD_emitted : AllEmitted unit c popD := by
  simp +decide [popD, cell_emitted, assign_emitted]

theorem unary_emitted {comp : String} (h : ("M", comp, "null") ∈ computations) :
    AllEmitted unit c (unary comp) := by
  simp +decide [unary, cell_emitted, assign_emitted, h]

theorem binary_emitted {comp : String} (h : ("M", comp, "null") ∈ computations) :
    AllEmitted unit c (binary comp) := by
  simp +decide [binary, popD_emitted, assign_emitted, h]

theorem temp_small {c : Command} {index : Word} (valid : c.Valid)
    (h : c = .push .temp index ∨ c = .pop .temp index) :
    Hack.tempBase + index.toNat ≤ Hack.stackBase := by
  have check := valid.check
  have small : index.toNat < Hack.tempSize := by
    rcases h with rfl | rfl
    · by_contra large
      simp [Command.check, large] at check
    · by_contra large
      simp [Command.check, large] at check
  have bases : Hack.tempBase + Hack.tempSize ≤ Hack.stackBase := by decide
  omega

theorem push_emitted {segment : Segment} {index : Word} (valid : (Command.push segment index).Valid) :
    AllEmitted unit (.push segment index) (push unit segment index) := by
  have number : (literal index.toNat).Emitted unit (.push segment index) := .index (.inl rfl)
  cases segment with
  | temp =>
    have small : (literal (Hack.tempBase + index.toNat)).Emitted unit (.push .temp index) :=
      .number (temp_small valid (.inl rfl))
    simp +decide [push, access, pushD_emitted, assign_emitted, small]
  | static =>
    have own : (symbol (unit ++ "." ++ index.toNat.repr)).Emitted unit (.push .static index) :=
      .static index
    simp +decide [push, access, pushD_emitted, assign_emitted, own]
  | _ => simp +decide [push, access, pushD_emitted, assign_emitted, cell_emitted, number]

theorem pop_emitted {segment : Segment} {index : Word} (valid : (Command.pop segment index).Valid) :
    AllEmitted unit (.pop segment index) (pop unit segment index) := by
  have number : (literal index.toNat).Emitted unit (.pop segment index) := .index (.inr rfl)
  cases segment with
  | temp =>
    have small : (literal (Hack.tempBase + index.toNat)).Emitted unit (.pop .temp index) :=
      .number (temp_small valid (.inr rfl))
    simp +decide [pop, access, popD_emitted, assign_emitted, small]
  | static =>
    have own : (symbol (unit ++ "." ++ index.toNat.repr)).Emitted unit (.pop .static index) :=
      .static index
    simp +decide [pop, access, popD_emitted, assign_emitted, own]
  | _ => simp +decide [pop, access, popD_emitted, assign_emitted, cell_emitted, number]

theorem compare_eq (name skip : String) (id : Nat) :
    Expansion.compare name skip id =
      popD ++ [assign "A" "A-1", assign "D" "M-D", symbol (noLabel name id), branch "D" skip] ++
        unary "-1" ++ [symbol (doneLabel name id), branch "0" "JMP", label (noLabel name id)] ++
          unary "0" ++ [label (doneLabel name id)] :=
  rfl

theorem compare_emitted {name skip : String} (id : Nat) (no : IsIdentifier ("NOT_" ++ name))
    (done : IsIdentifier ("END_" ++ name)) (jump : ("null", "D", skip) ∈ computations) :
    AllEmitted unit c (Expansion.compare name skip id) := by
  have no : IsIdentifier (noLabel name id) := isIdentifier_numbered no id
  have done : IsIdentifier (doneLabel name id) := isIdentifier_numbered done id
  simp +decide [compare_eq, popD_emitted, unary_emitted, assign_emitted, branch_emitted, jump,
    Item.Emitted.symbol no, Item.Emitted.label no, Item.Emitted.symbol done,
    Item.Emitted.label done]

theorem operate_emitted (id : Nat) (op : Operator) : AllEmitted unit c (operate id op) := by
  cases op with
  | eq => exact compare_emitted id (by decide) (by decide) (by decide)
  | lt => exact compare_emitted id (by decide) (by decide) (by decide)
  | gt => exact compare_emitted id (by decide) (by decide) (by decide)
  | neg => exact unary_emitted (by decide)
  | not => exact unary_emitted (by decide)
  | add => exact binary_emitted (by decide)
  | sub => exact binary_emitted (by decide)
  | and => exact binary_emitted (by decide)
  | or => exact binary_emitted (by decide)

theorem function_emitted {name : String} (h : IsIdentifier name) (locals : Word) :
    AllEmitted unit c (function name locals) := by
  have pushes : AllEmitted unit c (List.replicate locals.toNat pushD).flatten := by
    intro item hitem
    obtain ⟨part, hpart, hitem⟩ := List.mem_flatten.1 hitem
    obtain rfl := List.eq_of_mem_replicate hpart
    exact pushD_emitted item hitem
  unfold function
  split
  · simp +decide [Item.Emitted.label h, cell_emitted, assign_emitted]
  · simp +decide [Item.Emitted.label h, cell_emitted, assign_emitted, pushes]

theorem call_emitted {name : String} (h : IsIdentifier name) (arguments : Word) (id : Nat) :
    AllEmitted unit (.call name arguments) (call name arguments id) := by
  have frame : (literal (5 + arguments.toNat)).Emitted unit (.call name arguments) :=
    .arguments rfl
  simp +decide [call, pushCell, pushD_emitted, cell_emitted, assign_emitted, branch_emitted, frame,
    Item.Emitted.symbol h, Item.Emitted.symbol (h.returnLabel id),
    Item.Emitted.label (h.returnLabel id)]

theorem ret_emitted : AllEmitted unit c ret := by
  have five : (literal 5).Emitted unit c := .number (by decide)
  simp +decide [ret, restore, popD_emitted, cell_emitted, assign_emitted, branch_emitted, five]

/-- **The lines of a command are of these kinds.** -/
theorem statements_emitted (valid : c.Valid) (unit : String) (n : Counters) :
    AllEmitted unit c (c.statements unit n) := by
  cases c with
  | operate op => exact operate_emitted n.comparisons op
  | push segment index => exact push_emitted valid
  | pop segment index => exact pop_emitted valid
  | label name => simp [Command.statements, Item.Emitted.label (valid.named name rfl)]
  | goto name =>
    simp +decide [Command.statements, Item.Emitted.symbol (valid.named name rfl), branch_emitted]
  | ifGoto name =>
    simp +decide [Command.statements, popD_emitted, Item.Emitted.symbol (valid.named name rfl),
      branch_emitted]
  | function name locals => exact function_emitted (valid.named name rfl) locals
  | call name arguments => exact call_emitted (valid.named name rfl) arguments n.calls
  | ret => exact ret_emitted

theorem expand_emitted (valid : c.Valid) (unit : String) (n : Counters) :
    AllEmitted unit c (c.expand unit n) := by
  simp [Command.expand, Item.Emitted.note (.inl rfl), statements_emitted valid unit n]

/-! ## Lines that are read as they are meant -/

namespace Item.Emitted

variable {item : Item}

/-- Only the name of a static cell can be other than plain. -/
theorem plain_or_static (h : item.Emitted unit c) :
    item.Plain ∨ ∃ index, item = Expansion.symbol (staticName unit index) := by
  cases h with
  | note => exact .inl trivial
  | compute h => exact .inl (plain_compute h)
  | number => exact .inl trivial
  | index => exact .inl trivial
  | arguments => exact .inl trivial
  | symbol h => exact .inl (plain_symbol h)
  | static index => exact .inr ⟨index, rfl⟩
  | label h => exact .inl (plain_label h)

theorem plain (h : item.Emitted unit c) (plain : IsPlainUnit unit) : item.Plain := by
  rcases h.plain_or_static with h | ⟨index, rfl⟩
  · exact h
  · exact plain_static plain index

theorem faithful (h : item.Emitted unit c) : item.Faithful := by
  rcases h.plain_or_static with h | ⟨index, rfl⟩
  · exact h.faithful
  · exact symbol_faithful _

end Item.Emitted

theorem AllEmitted.plain {items : List Item} (h : AllEmitted unit c items)
    (plain : IsPlainUnit unit) : AllPlain items :=
  fun item hitem => (h item hitem).plain plain

end

/-- What holds no static cell may belong to a unit without a name. -/
theorem isPlainUnit_empty : IsPlainUnit "" := by decide

theorem mem_expansion {n : Counters} {program : List Placed} {item : Item}
    (h : item ∈ expansion n program) : ∃ c ∈ program, ∃ k, item ∈ c.2.expand c.1 k := by
  induction program generalizing n with
  | nil => cases h
  | cons c rest ih =>
    rw [expansion, List.mem_append] at h
    rcases h with h | h
    · exact ⟨c, List.mem_cons_self, n, h⟩
    · obtain ⟨other, hother, k, there⟩ := ih h
      exact ⟨other, List.mem_cons_of_mem _ hother, k, there⟩

/-- Whatever the name, only three lines of a call hold it. -/
theorem mem_call {name : String} {arguments : Word} {id : Nat} {item : Item}
    (h : item ∈ call name arguments id) :
    item = symbol (returnLabel name id) ∨ item = symbol name ∨
      item = label (returnLabel name id) ∨ item.Emitted "" (.call name arguments) := by
  let nameless : List Item := assign "D" "A" :: (pushD ++ pushCell .lcl ++ pushCell .arg ++
    pushCell .this ++ pushCell .that ++
    [cell .sp, assign "D" "M", literal (5 + arguments.toNat), assign "D" "D-A", cell .arg,
     assign "M" "D", cell .sp, assign "D" "M", cell .lcl, assign "M" "D"])
  have parts : call name arguments id =
      symbol (returnLabel name id) :: (nameless ++
        [symbol name, branch "0" "JMP", label (returnLabel name id)]) := by
    simp [call, nameless]
  have emitted : AllEmitted "" (.call name arguments) (branch "0" "JMP" :: nameless) := by
    have frame : (literal (5 + arguments.toNat)).Emitted "" (.call name arguments) :=
      .arguments rfl
    simp +decide [nameless, pushCell, pushD_emitted, cell_emitted, assign_emitted, branch_emitted,
      frame]
  simp only [parts, List.mem_cons, List.mem_append, List.not_mem_nil, or_false] at h
  rcases h with rfl | h | rfl | rfl | rfl
  · exact .inl rfl
  · exact .inr (.inr (.inr (emitted item (List.mem_cons_of_mem _ h))))
  · exact .inr (.inl rfl)
  · exact .inr (.inr (.inr (emitted _ List.mem_cons_self)))
  · exact .inr (.inr (.inl rfl))

/-- Whatever the name, a call takes the words that it is made of. -/
theorem call_counted (name : String) (arguments : Word) (id : Nat) :
    ∀ item ∈ call name arguments id, item.reading.takesWord = item.takesWord := by
  intro item hitem
  rcases mem_call hitem with rfl | rfl | rfl | emitted
  · exact (Item.symbol_faithful _).word
  · exact (Item.symbol_faithful _).word
  · exact Item.label_takesWord _
  · exact emitted.faithful.word

theorem preamble_emitted (entry : Option String) (unit : String) (c : Command) :
    AllEmitted unit c (preamble entry) := by
  cases entry with
  | none => simp [preamble]
  | some name =>
    have base : (literal Hack.stackBase).Emitted unit c := .number (Nat.le_refl _)
    simp +decide [preamble, Item.Emitted.note (.inr rfl), base, assign_emitted, cell_emitted]

section

variable {entry : Option String} {program : List Placed}

theorem output_faithful (valid : ∀ c ∈ program, c.2.Valid) :
    ∀ item ∈ preamble entry ++ expansion ⟨0, 0⟩ program, item.Faithful := by
  intro item hitem
  rcases List.mem_append.1 hitem with hitem | hitem
  · exact (preamble_emitted entry "" .ret item hitem).faithful
  · obtain ⟨c, hc, n, hitem⟩ := mem_expansion hitem
    exact (expand_emitted (valid c hc) c.1 n item hitem).faithful

/-- Whatever is called first, every line takes the words that it is made of. -/
theorem output_counted
    (known : ∀ c ∈ program, c.2.Valid ∨ ∃ name, c.2 = .call name 0) :
    ∀ item ∈ preamble entry ++ expansion ⟨0, 0⟩ program,
      item.reading.takesWord = item.takesWord := by
  intro item hitem
  rcases List.mem_append.1 hitem with hitem | hitem
  · exact (preamble_emitted entry "" .ret item hitem).faithful.word
  · obtain ⟨⟨unit, c⟩, hc, n, hitem⟩ := mem_expansion hitem
    rcases known (unit, c) hc with valid | ⟨name, rfl⟩
    · exact (expand_emitted valid unit n item hitem).faithful.word
    · rcases List.mem_cons.1 hitem with rfl | hitem
      · have note : (Item.note (Command.call name 0).text).Plain := trivial
        exact note.faithful.word
      · exact call_counted name 0 n.calls item hitem

end

theorem statements_plain {c : Command} {unit : String} (valid : c.Valid) (plain : IsPlainUnit unit)
    (n : Counters) : AllPlain (c.statements unit n) :=
  (statements_emitted valid unit n).plain plain

theorem plain_of_mem_program {entry : Option String} {units : List CommandLine.SourceUnit}
    {c : Placed} (plain : ∀ u ∈ units, IsPlainUnit u.name) (h : c ∈ program entry units) :
    IsPlainUnit c.1 := by
  rcases unit_of_mem_program h with unit | ⟨u, hu, unit⟩
  · exact unit ▸ isPlainUnit_empty
  · exact unit ▸ plain u hu

end HackToolchain.Vm
