import Mathlib.Data.List.TakeWhile
import HackToolchain.Proofs.Assembly.Meaning

/-!
# Printed statements are read back

A statement is `Plain` when its names and mnemonics hold nothing that the reader takes for
something else.

* `reading_spelling`: a plain computation is read however it is spelled;
* `reading_text`: the text of a plain statement says that statement.
-/

namespace HackToolchain

namespace Text

theorem dropWhile_isBlank_of_none {s : List Char} (h : ∀ c ∈ s, isBlank c = false) :
    s.dropWhile isBlank = s := by
  cases s with
  | nil => rfl
  | cons c r => rw [List.dropWhile_cons, h c List.mem_cons_self]; rfl

theorem trim_of_no_blank {s : List Char} (h : ∀ c ∈ s, isBlank c = false) : trim s = s := by
  rw [trim, dropWhile_isBlank_of_none h, dropWhile_isBlank_of_none, List.reverse_reverse]
  exact fun c hc => h c (List.mem_reverse.1 hc)

/-- A text that begins with another character keeps it. -/
theorem trim_cons {c : Char} (h : isBlank c = false) (s : List Char) :
    trim (c :: s) = c :: (s.reverse.dropWhile isBlank).reverse := by
  have kept : (s.reverse ++ [c]).dropWhile isBlank = s.reverse.dropWhile isBlank ++ [c] := by
    rw [List.dropWhile_append]
    split
    · rename_i empty
      simp [List.isEmpty_iff.1 empty, h]
    · rfl
  rw [trim, List.dropWhile_cons, h]
  simp [kept]

theorem trim_append_blanks {s blanks : List Char} (h : ∀ c ∈ blanks, isBlank c = true) :
    trim (s ++ blanks) = trim s := by
  have front : blanks.dropWhile isBlank = [] := List.dropWhile_eq_nil_iff.2 h
  have back : blanks.reverse.dropWhile isBlank = [] :=
    List.dropWhile_eq_nil_iff.2 fun c hc => h c (List.mem_reverse.1 hc)
  unfold trim
  rw [List.dropWhile_append]
  split
  · rename_i empty
    rw [front, List.isEmpty_iff.1 empty]
  · rw [List.reverse_append, List.dropWhile_append, back]
    rfl

/-- Blanks that were taken off the end make no difference. -/
theorem trim_dropBack (s : List Char) : trim (s.reverse.dropWhile isBlank).reverse = trim s := by
  have parts : s = (s.reverse.dropWhile isBlank).reverse ++ (s.reverse.takeWhile isBlank).reverse := by
    rw [← List.reverse_append, List.takeWhile_append_dropWhile, List.reverse_reverse]
  have blanks : ∀ c ∈ (s.reverse.takeWhile isBlank).reverse, isBlank c = true := fun c hc =>
    List.all_eq_true.1 List.all_takeWhile c (List.mem_reverse.1 hc)
  calc trim (s.reverse.dropWhile isBlank).reverse
      = trim ((s.reverse.dropWhile isBlank).reverse ++ (s.reverse.takeWhile isBlank).reverse) :=
        (trim_append_blanks blanks).symm
    _ = trim s := by rw [← parts]

/-- Only blanks are taken off. -/
theorem mem_trim {s : List Char} {c : Char} (hc : c ∈ s) (h : isBlank c = false) : c ∈ trim s := by
  have kept : ∀ {s : List Char}, c ∈ s → c ∈ s.dropWhile isBlank := by
    intro s hc
    rw [← List.takeWhile_append_dropWhile (p := isBlank) (l := s), List.mem_append] at hc
    rcases hc with hc | hc
    · have blank := List.all_eq_true.1 List.all_takeWhile c hc
      rw [h] at blank
      cases blank
    · exact hc
  exact List.mem_reverse.2 (kept (List.mem_reverse.2 (kept hc)))

/-- A trimmed text has no blanks in front. -/
theorem dropWhile_of_trimmed {s : List Char} (trimmed : trim s = s) : s.dropWhile isBlank = s := by
  apply (List.dropWhile_suffix isBlank).eq_of_length_le
  calc s.length = (trim s).length := by rw [trimmed]
    _ = ((s.dropWhile isBlank).reverse.dropWhile isBlank).length := List.length_reverse
    _ ≤ (s.dropWhile isBlank).reverse.length := (List.dropWhile_suffix isBlank).length_le
    _ = (s.dropWhile isBlank).length := List.length_reverse

/-- What ends in another character and has no blanks in front is trimmed. -/
theorem trim_concat {s : List Char} {c : Char} (front : s.dropWhile isBlank = s)
    (h : isBlank c = false) : trim (s ++ [c]) = s ++ [c] := by
  have kept : (s ++ [c]).dropWhile isBlank = s ++ [c] := by
    rw [List.dropWhile_append, front]
    split
    · rename_i empty
      simp [List.isEmpty_iff.1 empty, h]
    · rfl
  rw [trim, kept, List.reverse_concat, List.dropWhile_cons, h]
  simp

theorem splitAtFirst_append {sep : Char} {a : List Char} (b : List Char) (h : sep ∉ a) :
    splitAtFirst sep (a ++ sep :: b) = some (a, b) := by
  induction a with
  | nil => simp [splitAtFirst]
  | cons c r ih =>
    obtain ⟨hc, hr⟩ := not_or.1 (mt List.mem_cons.2 h)
    rw [List.cons_append, splitAtFirst, if_neg (Ne.symm hc), ih hr]
    rfl

theorem splitAtFirst_of_notMem {sep : Char} {a : List Char} (h : sep ∉ a) :
    splitAtFirst sep a = none := by
  induction a with
  | nil => rfl
  | cons c r ih =>
    obtain ⟨hc, hr⟩ := not_or.1 (mt List.mem_cons.2 h)
    rw [splitAtFirst, if_neg (Ne.symm hc), ih hr]
    rfl

theorem isDigit_of_mem_toDigits {n : Nat} {c : Char} (h : c ∈ Nat.toDigits 10 n) :
    c.isDigit = true :=
  Nat.isDigit_of_mem_toDigits (by decide) (by decide) h

theorem notMem_toDigits {c : Char} (h : c.isDigit = false) (n : Nat) : c ∉ Nat.toDigits 10 n := by
  intro hc
  rw [isDigit_of_mem_toDigits hc] at h
  cases h

theorem decimal?_toDigits (n : Nat) : decimal? (Nat.toDigits 10 n) = some n := by
  have digits : (Nat.toDigits 10 n).all Char.isDigit = true :=
    List.all_eq_true.2 fun c hc => isDigit_of_mem_toDigits hc
  simp [decimal?, digits, Nat.ofDigitChars_ten_toDigits]

/-- Only digits make a number. -/
theorem decimal?_of_not_digit {s : List Char} {c : Char} (hc : c ∈ s) (h : c.isDigit = false) :
    decimal? s = none := by
  have some_other : s.all Char.isDigit = false := by
    rw [List.all_eq_false]
    exact ⟨c, hc, by simp [h]⟩
  simp [decimal?, some_other]

theorem isBlank_of_ascii {c : Char} (low : 32 < c.toNat) (high : c.toNat < 127) :
    isBlank c = false := by
  simp [isBlank, blankRanges]
  omega

theorem toNat_of_isDigit {c : Char} (h : c.isDigit = true) : 48 ≤ c.toNat ∧ c.toNat ≤ 57 := by
  simpa [Char.isDigit, UInt32.le_iff_toNat_le] using h

theorem isBlank_of_isDigit {c : Char} (h : c.isDigit = true) : isBlank c = false := by
  obtain ⟨low, high⟩ := toNat_of_isDigit h
  exact isBlank_of_ascii (by omega) (by omega)

theorem trim_toDigits (n : Nat) : trim (Nat.toDigits 10 n) = Nat.toDigits 10 n :=
  trim_of_no_blank fun _ hc => isBlank_of_isDigit (isDigit_of_mem_toDigits hc)

theorem toList_toString (n : Nat) : (toString n).toList = Nat.toDigits 10 n := by simp

end Text

namespace SourceLine

/-- A text without two slashes in a row has no comment. -/
theorem splitComment_of_no_slashes {s : List Char} (h : ¬ ['/', '/'] <:+: s) :
    splitComment s = (s, none) := by
  fun_induction splitComment s with
  | case1 => rfl
  | case2 r => exact absurd (List.IsPrefix.isInfix ⟨r, rfl⟩) h
  | case3 c r _ ih =>
    have later : ¬ ['/', '/'] <:+: r := fun hr => h (hr.trans (List.suffix_cons c r).isInfix)
    rw [ih later]

theorem no_slashes_of_notMem {s : List Char} (h : '/' ∉ s) : ¬ ['/', '/'] <:+: s :=
  fun hs => h (hs.subset List.mem_cons_self)

theorem no_slashes_toString (n : Nat) : ¬ ['/', '/'] <:+: (toString n).toList := by
  rw [Text.toList_toString]
  exact no_slashes_of_notMem (Text.notMem_toDigits (by decide) n)

theorem no_slashes_append {s r : List Char} (h : ¬ ['/', '/'] <:+: s) (hr : '/' ∉ r) :
    ¬ ['/', '/'] <:+: s ++ r := by
  induction s with
  | nil => exact no_slashes_of_notMem hr
  | cons c s ih =>
    intro hs
    rcases List.infix_cons_iff.1 hs with front | later
    · obtain ⟨rfl, second⟩ := List.cons_prefix_cons.1 front
      cases s with
      | nil => exact hr (second.subset List.mem_cons_self)
      | cons d s =>
        obtain ⟨rfl, -⟩ := List.cons_prefix_cons.1 second
        exact h (List.IsPrefix.isInfix ⟨s, rfl⟩)
    · exact ih (fun inner => h (inner.trans (List.suffix_cons c s).isInfix)) later

theorem no_slashes_cons {c : Char} {s : List Char} (hc : c ≠ '/') (h : ¬ ['/', '/'] <:+: s) :
    ¬ ['/', '/'] <:+: c :: s := by
  intro hs
  rcases List.infix_cons_iff.1 hs with front | later
  · exact hc (List.cons_prefix_cons.1 front).1.symm
  · exact h later

end SourceLine

namespace Assembly

open SourceLine Text

/-- What is neither blank nor a sign that the reader cuts a computation at. -/
def isMnemonicChar (c : Char) : Bool := !isBlank c && c ∉ ['/', '=', ';', '@', '(']

def isMnemonic (m : String) : Bool := m.toList.all isMnemonicChar

/-- What may stand between the parentheses of a label. -/
def isLabelChar (c : Char) : Bool := !isBlank c && c ∉ ['/', ')']

def Operand.Plain : Operand → Prop
  | .literal _ => True
  | .symbol name =>
    trim name.toList = name.toList ∧ ¬ ['/', '/'] <:+: name.toList ∧
      ∃ c ∈ name.toList, c.isDigit = false

def Instruction.Plain : Instruction → Prop
  | .address operand => operand.Plain
  | .compute dest comp jump =>
    isMnemonic dest ∧ isMnemonic comp ∧ isMnemonic jump ∧ comp ≠ ""

def Statement.Plain : Statement → Prop
  | .label name => name.toList.all isLabelChar
  | .instruction i => i.Plain

theorem isMnemonicChar_iff {c : Char} :
    isMnemonicChar c = true ↔
      isBlank c = false ∧ c ≠ '/' ∧ c ≠ '=' ∧ c ≠ ';' ∧ c ≠ '@' ∧ c ≠ '(' := by
  simp [isMnemonicChar]

theorem isLabelChar_iff {c : Char} :
    isLabelChar c = true ↔ isBlank c = false ∧ c ≠ '/' ∧ c ≠ ')' := by
  simp [isLabelChar]

theorem reading_of_clean {raw : String} (comment : ¬ ['/', '/'] <:+: raw.toList)
    (ends : trim raw.toList = raw.toList) : Reading.ofText raw = Statement.parse raw.toList := by
  rw [Reading.ofText, splitComment_of_no_slashes comment, ends]

theorem reading_comment (text : String) : Reading.ofText ("// " ++ text) = .ok none := by
  rw [Reading.ofText, String.toList_append]
  rfl

theorem parse_at (operand : List Char) :
    Statement.parse ('@' :: operand) =
      ((Operand.parse (trim operand)).map Instruction.address).map fun i => some (.instruction i) :=
  rfl

theorem parse_of_head {c : Char} {r : List Char} (label : c ≠ '(') (at_sign : c ≠ '@') :
    Statement.parse (c :: r) =
      .ok (some (.instruction (Instruction.parseCompute ((c :: r).filter (!isBlank ·))))) := by
  rw [Statement.parse, Instruction.parse]
  · rfl
  · simpa using at_sign
  · simp
  · simpa using label

/-- Neither a comment nor blanks take away the first character of a line. -/
theorem front_of_line {c : Char} (sign : Text.isBlank c = false ∧ c ≠ '/') (text : List Char) :
    ∃ rest, trim (splitComment (c :: text)).1 = c :: rest := by
  rw [splitComment]
  · exact ⟨_, trim_cons sign.1 _⟩
  · rintro rest rfl
    exact absurd rfl sign.2

/-- A line that begins with `@` holds an instruction or cannot be read. -/
theorem reading_at (text : String) :
    (Reading.ofText ("@" ++ text)).label? = none ∧
      (Reading.ofText ("@" ++ text)).takesWord = true := by
  obtain ⟨rest, h⟩ := front_of_line (c := '@') (by decide) text.toList
  have line : ("@" ++ text).toList = '@' :: text.toList := String.toList_append
  rw [Reading.ofText, line, h, parse_at]
  cases Operand.parse (trim rest) with
  | error e => exact ⟨rfl, rfl⟩
  | ok operand => exact ⟨rfl, rfl⟩

/-- A line that begins with `(` is a label, whatever its name turns out to be. -/
theorem reading_parenthesis (text : String) :
    (Reading.ofText ("(" ++ text)).takesWord = false := by
  obtain ⟨rest, h⟩ := front_of_line (c := '(') (by decide) text.toList
  have line : ("(" ++ text).toList = '(' :: text.toList := String.toList_append
  rw [Reading.ofText, line, h]
  rfl

theorem reading_label {name : String} (h : name.toList.all isLabelChar) :
    Reading.ofText ("(" ++ name ++ ")") = .ok (some (.label name)) := by
  have chars : ∀ c ∈ name.toList, isBlank c = false ∧ c ≠ '/' ∧ c ≠ ')' := by
    simpa [isLabelChar] using h
  have text : ("(" ++ name ++ ")").toList = '(' :: (name.toList ++ [')']) := by simp
  have slash : '/' ∉ '(' :: (name.toList ++ [')']) := by
    simpa using fun hc => (chars _ hc).2.1 rfl
  have blank : ∀ c ∈ '(' :: (name.toList ++ [')']), isBlank c = false := by
    intro c hc
    rcases List.mem_cons.1 hc with rfl | hc
    · decide
    · rcases List.mem_append.1 hc with hc | hc
      · exact (chars c hc).1
      · obtain rfl := List.mem_singleton.1 hc
        decide
  rw [reading_of_clean, text]
  · have inside : (name.toList ++ [')']).takeWhile (· ≠ ')') = name.toList :=
      takeWhile_append_cons_of_stop (fun c hc => by simpa using (chars c hc).2.2) (by simp)
    simp only [Statement.parse, inside]
    rw [trim_of_no_blank fun c hc => (chars c hc).1, String.ofList_toList]
  · rw [text]
    exact no_slashes_of_notMem slash
  · rw [text, trim_of_no_blank blank]

/-- Without a comment only blanks are taken off a line that begins with `@`. -/
theorem code_at {operand : String} (comment : ¬ ['/', '/'] <:+: operand.toList) :
    trim (splitComment ("@" ++ operand).toList).1 =
      '@' :: (operand.toList.reverse.dropWhile isBlank).reverse := by
  have text : ("@" ++ operand).toList = '@' :: operand.toList := String.toList_append
  rw [text, splitComment_of_no_slashes (no_slashes_cons (by decide) comment)]
  exact trim_cons (by decide) _

/-- A line that begins with `@` is read by the text behind it. -/
theorem reading_operand {operand : String} (comment : ¬ ['/', '/'] <:+: operand.toList) :
    Reading.ofText ("@" ++ operand) =
      ((Operand.parse (trim operand.toList)).map Instruction.address).map
        fun i => some (.instruction i) := by
  rw [Reading.ofText, code_at comment, parse_at, trim_dropBack]

theorem reading_literal (v : BitVec 64) :
    Reading.ofText ("@" ++ toString v.toNat) =
      .ok (some (.instruction (.address (.literal v)))) := by
  have operand : Operand.parse (trim (toString v.toNat).toList) = .ok (.literal v) := by
    rw [toList_toString, trim_toDigits, Operand.parse]
    simp [decimal?_toDigits, v.isLt]
  rw [reading_operand (no_slashes_toString _), operand]
  rfl

/-- What holds something other than digits is a name, but for the blanks around it. -/
theorem reading_name {name : String} (comment : ¬ ['/', '/'] <:+: name.toList)
    (other : ∃ c ∈ trim name.toList, c.isDigit = false) :
    Reading.ofText ("@" ++ name) =
      .ok (some (.instruction (.address (.symbol (String.ofList (trim name.toList)))))) := by
  obtain ⟨c, hc, digit⟩ := other
  have nonempty : (trim name.toList).isEmpty = false := by
    simpa using List.ne_nil_of_mem hc
  have operand : Operand.parse (trim name.toList) =
      .ok (.symbol (String.ofList (trim name.toList))) := by
    rw [Operand.parse, decimal?_of_not_digit hc digit, nonempty]
    rfl
  rw [reading_operand comment, operand]
  rfl

theorem reading_symbol {name : String} (h : (Operand.symbol name).Plain) :
    Reading.ofText ("@" ++ name) = .ok (some (.instruction (.address (.symbol name)))) := by
  obtain ⟨ends, comment, other⟩ := h
  rw [reading_name comment (ends.symm ▸ other), ends, String.ofList_toList]

/-- A computation written out. A destination or a jump named `null` may be left out. -/
def Instruction.Spelling (dest comp jump text : String) : Prop :=
  ∃ front back, text = front ++ comp ++ back ∧
    (front = dest ++ "=" ∨ dest = "null" ∧ front = "") ∧
      (back = ";" ++ jump ∨ jump = "null" ∧ back = "")

section

variable {dest comp jump text : String}

theorem spelling_text (dest comp jump : String) :
    Instruction.Spelling dest comp jump (Instruction.compute dest comp jump).text := by
  refine ⟨_, _, rfl, ?_, ?_⟩
  · split
    · exact .inr ⟨‹_›, rfl⟩
    · exact .inl rfl
  · split
    · exact .inr ⟨‹_›, rfl⟩
    · exact .inl rfl

/-- The pieces of a computation are cut at the signs that were put between them. -/
theorem parseCompute_spelling (h : (Instruction.compute dest comp jump).Plain)
    (spelled : Instruction.Spelling dest comp jump text) :
    Instruction.parseCompute text.toList = .compute dest comp jump := by
  have sign : ∀ {m : String}, isMnemonic m → '=' ∉ m.toList ∧ ';' ∉ m.toList := by
    intro m hm
    have chars := List.all_eq_true.1 hm
    exact ⟨fun hc => (isMnemonicChar_iff.1 (chars _ hc)).2.2.1 rfl,
      fun hc => (isMnemonicChar_iff.1 (chars _ hc)).2.2.2.1 rfl⟩
  obtain ⟨hd, hc, hj, -⟩ := h
  obtain ⟨front, back, rfl, hfront, hback⟩ := spelled
  have tail : '=' ∉ (comp ++ back).toList := by
    rcases hback with rfl | ⟨-, rfl⟩
    · simpa using ⟨(sign hc).1, (sign hj).1⟩
    · simpa using (sign hc).1
  have first : (splitAtFirst '=' (front ++ comp ++ back).toList).getD
      ("null".toList, (front ++ comp ++ back).toList) = (dest.toList, (comp ++ back).toList) := by
    rcases hfront with rfl | ⟨rfl, rfl⟩
    · have text : (dest ++ "=" ++ comp ++ back).toList =
          dest.toList ++ '=' :: (comp ++ back).toList := by simp
      rw [text, splitAtFirst_append _ (sign hd).1]
      rfl
    · have text : "" ++ comp ++ back = comp ++ back := by simp
      rw [text, splitAtFirst_of_notMem tail]
      rfl
  have second : (splitAtFirst ';' (comp ++ back).toList).getD
      ((comp ++ back).toList, "null".toList) = (comp.toList, jump.toList) := by
    rcases hback with rfl | ⟨rfl, rfl⟩
    · simp [splitAtFirst_append _ (sign hc).2]
    · rw [String.append_empty, splitAtFirst_of_notMem (sign hc).2]
      rfl
  simp only [Instruction.parseCompute, first, second, String.ofList_toList]

theorem mem_spelling {c : Char} (spelled : Instruction.Spelling dest comp jump text)
    (h : c ∈ text.toList) :
    c ∈ dest.toList ∨ c ∈ comp.toList ∨ c ∈ jump.toList ∨ c = '=' ∨ c = ';' := by
  obtain ⟨front, back, rfl, hfront, hback⟩ := spelled
  have hd : c ∈ front.toList → c ∈ dest.toList ∨ c = '=' := by
    rcases hfront with rfl | ⟨-, rfl⟩ <;> simp
  have hj : c ∈ back.toList → c = ';' ∨ c ∈ jump.toList := by
    rcases hback with rfl | ⟨-, rfl⟩ <;> simp
  simp only [String.toList_append, List.mem_append] at h
  rcases h with (h | h) | h
  · rcases hd h with h | h <;> simp [h]
  · simp [h]
  · rcases hj h with h | h <;> simp [h]

/-- Nothing in a computation begins a comment, a label or an address. -/
theorem chars_of_spelling (h : (Instruction.compute dest comp jump).Plain)
    (spelled : Instruction.Spelling dest comp jump text) :
    ∀ c ∈ text.toList, isBlank c = false ∧ c ≠ '/' ∧ c ≠ '(' ∧ c ≠ '@' := by
  have of : ∀ {m : String}, isMnemonic m → ∀ c ∈ m.toList,
      isBlank c = false ∧ c ≠ '/' ∧ c ≠ '(' ∧ c ≠ '@' := by
    intro m hm c hc
    obtain ⟨blank, slash, -, -, at_sign, label⟩ :=
      isMnemonicChar_iff.1 (List.all_eq_true.1 hm c hc)
    exact ⟨blank, slash, label, at_sign⟩
  intro c hc
  obtain ⟨hd, hcomp, hj, -⟩ := h
  rcases mem_spelling spelled hc with hc | hc | hc | rfl | rfl
  · exact of hd c hc
  · exact of hcomp c hc
  · exact of hj c hc
  · decide
  · decide

/-- **Any spelling of a plain computation says that computation.** -/
theorem reading_spelling (h : (Instruction.compute dest comp jump).Plain)
    (spelled : Instruction.Spelling dest comp jump text) :
    Reading.ofText text = .ok (some (.instruction (.compute dest comp jump))) := by
  have chars := chars_of_spelling h spelled
  have blank : ∀ c ∈ text.toList, isBlank c = false := fun c hc => (chars c hc).1
  have nonempty : text.toList ≠ [] := by
    obtain ⟨front, back, rfl, -, -⟩ := spelled
    simp [h.2.2.2]
  obtain ⟨c, r, first⟩ := List.exists_cons_of_ne_nil nonempty
  obtain ⟨-, -, label, at_sign⟩ := chars c (first ▸ List.mem_cons_self)
  rw [reading_of_clean (no_slashes_of_notMem fun hc => (chars _ hc).2.1 rfl)
    (trim_of_no_blank blank), first, parse_of_head label at_sign, ← first, List.filter_eq_self.2,
    parseCompute_spelling h spelled]
  intro c hc
  rw [blank c hc]
  rfl

end

/-- **The text of a plain statement says that statement.** -/
theorem reading_text {s : Statement} (h : s.Plain) : Reading.ofText s.text = .ok (some s) := by
  cases s with
  | label name => exact reading_label h
  | instruction i =>
    cases i with
    | compute dest comp jump => exact reading_spelling h (spelling_text dest comp jump)
    | address operand =>
      cases operand with
      | literal v => exact reading_literal v
      | symbol name => exact reading_symbol h

end Assembly

end HackToolchain
