import Mathlib.Algebra.Ring.Nat
import Mathlib.Data.List.Induction
import Mathlib.Data.Nat.Digits.Defs
import HackToolchain.Vm.Command

/-!
# The grammar of commands

* `Text.words_eq`: words are the pieces between blanks that are not empty;
* `Wording`: the words that a command may be written with, given with no reader;
* `parse_eq_some_iff`: a line is read as a command if and only if its words are a wording of it;
* `parse_eq_none_iff`: it is read as no command if and only if it is blank.
-/

namespace HackToolchain

namespace Text

/-! ## Words -/

theorem splitOnP_firstWord (s : List Char) :
    ∃ rest, s.splitOnP isBlank = (firstWord s).1 :: rest ∧
      (firstWord s).2 = rest.filter fun w => !w.isEmpty := by
  induction s with
  | nil => exact ⟨[], List.splitOnP_nil .., rfl⟩
  | cons c r ih =>
    obtain ⟨rest, pieces, later⟩ := ih
    rw [List.splitOnP_cons_eq_if_modifyHead, pieces, firstWord]
    by_cases blank : isBlank c = true
    · refine ⟨(firstWord r).1 :: rest, by simp [blank], ?_⟩
      simp only [blank, if_true, consWord, List.filter_cons, later]
      cases (firstWord r).1 <;> rfl
    · exact ⟨rest, by simp [blank], by simp [blank, later]⟩

/-- **Words are the pieces between blanks that are not empty.** -/
theorem words_eq (s : List Char) :
    words s = (s.splitOnP isBlank).filter fun w => !w.isEmpty := by
  obtain ⟨rest, pieces, later⟩ := splitOnP_firstWord s
  rw [pieces, words, later, consWord, List.filter_cons]
  cases (firstWord s).1 <;> rfl

theorem words_cons_blank {c : Char} (blank : isBlank c = true) (s : List Char) :
    words (c :: s) = words s := by
  simp [words, firstWord, blank, consWord]

theorem words_append_blank {c : Char} (blank : isBlank c = true) (s r : List Char) :
    words (s ++ c :: r) = words s ++ words r := by
  rw [words_eq, List.splitOnP_append_cons _ _ blank, List.filter_append, ← words_eq, ← words_eq]

theorem words_of_no_blank {w : List Char} (nonempty : w ≠ []) (h : ∀ c ∈ w, isBlank c = false) :
    words w = [w] := by
  rw [words_eq, List.splitOnP_eq_singleton h]
  simp [nonempty]

/-- Only blanks hold no word. -/
theorem words_eq_nil_iff {s : List Char} : words s = [] ↔ ∀ c ∈ s, isBlank c = true := by
  induction s with
  | nil => exact ⟨fun _ _ => nofun, fun _ => rfl⟩
  | cons c r ih =>
    rw [List.forall_mem_cons, ← ih]
    cases blank : isBlank c with
    | true =>
      rw [words_cons_blank blank]
      exact (and_iff_right rfl).symm
    | false =>
      have some_word : words (c :: r) ≠ [] := by simp [words, firstWord, blank, consWord]
      exact iff_of_false some_word nofun

theorem ne_nil_of_mem_words {s w : List Char} (h : w ∈ words s) : w ≠ [] := by
  rw [words_eq, List.mem_filter] at h
  simpa using h.2

end Text

namespace Vm

/-! ## The grammar -/

/-- Letters and digits of ASCII and four signs, the first no digit. -/
structure NameWord (w : List Char) : Prop where
  nonempty : w ≠ []
  chars : ∀ c ∈ w, 'A' ≤ c ∧ c ≤ 'Z' ∨ 'a' ≤ c ∧ c ≤ 'z' ∨ '0' ≤ c ∧ c ≤ '9' ∨
    c ∈ ['_', '.', '$', ':']
  head : ∀ c, w.head? = some c → ¬ ('0' ≤ c ∧ c ≤ '9')

/-- Digits of ASCII, after a plus sign or not, that say a number of 16 bits. -/
def NumberWord (w : List Char) (n : Word) : Prop :=
  ∃ digits, (w = digits ∨ w = '+' :: digits) ∧ digits ≠ [] ∧ (∀ c ∈ digits, '0' ≤ c ∧ c ≤ '9') ∧
    Nat.ofDigits 10 (digits.reverse.map fun c => c.toNat - '0'.toNat) = n.toNat

/-- The segment has a cell of this index. -/
def Segment.Has (segment : Segment) (index : Word) : Prop :=
  (segment = .temp → index.toNat ≤ 7) ∧ (segment = .pointer → index.toNat ≤ 1)

/-- The words that a command may be written with. -/
inductive Wording : Command → List (List Char) → Prop
  | operate (op : Operator) : Wording (.operate op) [op.name.toList]
  | ret : Wording .ret ["return".toList]
  | label {w : List Char} : NameWord w → Wording (.label (.ofList w)) ["label".toList, w]
  | goto {w : List Char} : NameWord w → Wording (.goto (.ofList w)) ["goto".toList, w]
  | ifGoto {w : List Char} : NameWord w → Wording (.ifGoto (.ofList w)) ["if-goto".toList, w]
  | function {w number : List Char} {n : Word} : NameWord w → NumberWord number n →
      Wording (.function (.ofList w) n) ["function".toList, w, number]
  | call {w number : List Char} {n : Word} : NameWord w → NumberWord number n →
      Wording (.call (.ofList w) n) ["call".toList, w, number]
  | push {segment : Segment} {number : List Char} {n : Word} : NumberWord number n →
      segment.Has n → Wording (.push segment n) ["push".toList, segment.name.toList, number]
  | pop {segment : Segment} {number : List Char} {n : Word} : NumberWord number n →
      segment.Has n → segment ≠ .constant →
      Wording (.pop segment n) ["pop".toList, segment.name.toList, number]

/-! ## Arguments -/

theorem Segment.ofName?_eq_some_iff {name : String} {segment : Segment} :
    ofName? name = some segment ↔ segment.name = name := by
  constructor
  · intro h
    simpa using List.find?_some h
  · rintro rfl
    cases segment <;> rfl

theorem Operator.ofName?_eq_some_iff {name : String} {op : Operator} :
    ofName? name = some op ↔ op.name = name := by
  constructor
  · intro h
    simpa using List.find?_some h
  · rintro rfl
    cases op <;> rfl

theorem isDigit_iff {c : Char} : c.isDigit = true ↔ '0' ≤ c ∧ c ≤ '9' := by
  simp [Char.isDigit, Char.le_def]

theorem isNameChar_iff {c : Char} :
    isNameChar c = true ↔ c.isAlphanum = true ∨ c = '_' ∨ c = '.' ∨ c = '$' ∨ c = ':' := by
  simp [isNameChar, or_assoc]

theorem isUpper_iff {c : Char} : c.isUpper = true ↔ 'A' ≤ c ∧ c ≤ 'Z' := decide_eq_true_iff

theorem isLower_iff {c : Char} : c.isLower = true ↔ 'a' ≤ c ∧ c ≤ 'z' := by
  change (decide ('a' ≤ c) && decide (c ≤ 'z')) = true ↔ _
  rw [Bool.and_eq_true, decide_eq_true_iff, decide_eq_true_iff]

theorem isNameChar_iff_ranges {c : Char} :
    isNameChar c = true ↔ 'A' ≤ c ∧ c ≤ 'Z' ∨ 'a' ≤ c ∧ c ≤ 'z' ∨ '0' ≤ c ∧ c ≤ '9' ∨
      c ∈ ['_', '.', '$', ':'] := by
  have letters : c.isAlphanum = (c.isUpper || c.isLower || c.isDigit) := rfl
  simp only [isNameChar_iff, letters, Bool.or_eq_true, isUpper_iff, isLower_iff, isDigit_iff,
    or_assoc, List.mem_cons, List.not_mem_nil, or_false]

theorem nameWord_iff {w : List Char} : NameWord w ↔ w ≠ [] ∧ isName w = true := by
  cases w with
  | nil => exact iff_of_false (fun h => h.nonempty rfl) fun h => h.1 rfl
  | cons c r =>
    have first : (∀ d, (c :: r).head? = some d → ¬ ('0' ≤ d ∧ d ≤ '9')) ↔ c.isDigit = false := by
      simp [← isDigit_iff]
    simp only [isName, Bool.and_eq_true, List.all_eq_true, isNameChar_iff_ranges,
      Bool.not_eq_true', ← first]
    exact ⟨fun h => ⟨h.nonempty, h.chars, h.head⟩, fun ⟨h, chars, head⟩ => ⟨h, chars, head⟩⟩

/-- Digits are read from the highest on. -/
theorem ofDigitChars_eq (s : List Char) :
    Nat.ofDigitChars 10 s 0 = Nat.ofDigits 10 (s.reverse.map fun c => c.toNat - '0'.toNat) := by
  induction s using List.reverseRecOn with
  | nil => rfl
  | append_singleton s c ih =>
    rw [Nat.ofDigitChars_append, ih, List.reverse_concat, List.map_cons, Nat.ofDigits_cons,
      Nat.add_comm]
    rfl

theorem decimal?_eq_some_iff {s : List Char} {n : Nat} :
    Text.decimal? s = some n ↔ s ≠ [] ∧ (∀ c ∈ s, '0' ≤ c ∧ c ≤ '9') ∧
      Nat.ofDigits 10 (s.reverse.map fun c => c.toNat - '0'.toNat) = n := by
  rw [← ofDigitChars_eq]
  simp [Text.decimal?, isDigit_iff, and_assoc]

/-- Of the numbers that digits say, those of 16 bits are kept. -/
theorem decimalWord_eq_some_iff {s : List Char} {n : Word} :
    ((Text.decimal? s).bind fun m =>
        if m < UInt16.size then some (BitVec.ofNat 16 m) else none) = some n ↔
      s ≠ [] ∧ (∀ c ∈ s, '0' ≤ c ∧ c ≤ '9') ∧
        Nat.ofDigits 10 (s.reverse.map fun c => c.toNat - '0'.toNat) = n.toNat := by
  rw [Option.bind_eq_some_iff, ← decimal?_eq_some_iff]
  constructor
  · rintro ⟨m, read, small⟩
    split at small
    · rename_i fits
      obtain rfl := Option.some.inj small
      rw [read, BitVec.toNat_ofNat, Nat.mod_eq_of_lt fits]
    · cases small
  · intro read
    exact ⟨n.toNat, read, by rw [if_pos n.isLt, BitVec.ofNat_toNat, BitVec.setWidth_eq]⟩

theorem number?_eq_some_iff {w : List Char} {n : Word} : number? w = some n ↔ NumberWord w n := by
  have plus : ¬ ('0' ≤ '+' ∧ '+' ≤ '9') := by decide
  unfold number?
  dsimp only
  -- A plus sign is no digit, so a word has only one part that can be the digits.
  split
  · rename_i r
    rw [decimalWord_eq_some_iff]
    constructor
    · exact fun h => ⟨r, .inr rfl, h⟩
    · rintro ⟨ds, rfl | same, h⟩
      · exact absurd (h.2.1 _ List.mem_cons_self) plus
      · obtain ⟨-, rfl⟩ := List.cons.inj same
        exact h
  · rename_i unsigned
    rw [decimalWord_eq_some_iff]
    constructor
    · exact fun h => ⟨w, .inl rfl, h⟩
    · rintro ⟨ds, rfl | rfl, h⟩
      · exact h
      · exact absurd rfl (unsigned ds)

theorem NumberWord.nonempty {w : List Char} {n : Word} (h : NumberWord w n) : w ≠ [] := by
  obtain ⟨digits, rfl | rfl, some_digit, -⟩ := h
  · exact some_digit
  · exact List.cons_ne_nil _ _

theorem segmentOf_eq_ok_iff {w : List Char} {segment : Segment} :
    segmentOf w = .ok segment ↔ w = segment.name.toList := by
  have named : Segment.ofName? (.ofList w) = some segment ↔ w = segment.name.toList := by
    rw [Segment.ofName?_eq_some_iff, ← String.toList_inj, String.toList_ofList, eq_comm]
  rw [← named, segmentOf]
  cases Segment.ofName? (.ofList w) <;> simp

theorem nameOf_eq_ok_iff {w : List Char} (nonempty : w ≠ []) {name : String} :
    nameOf w = .ok name ↔ NameWord w ∧ name = String.ofList w := by
  unfold nameOf
  rw [nameWord_iff]
  split
  · rename_i good
    simp [good, nonempty, eq_comm]
  · rename_i bad
    simp [bad]

theorem numberOf_eq_ok_iff {w : List Char} {n : Word} :
    numberOf w = .ok n ↔ NumberWord w n := by
  rw [← number?_eq_some_iff, numberOf]
  cases number? w <;> simp

namespace Command

theorem finish_eq_ok_iff {c r : Command} {args : List (List Char)} :
    finish c args = .ok r ↔ args = [] ∧ c = r := by
  cases args <;> simp [finish]

section

variable {α : Type} {read : List Char → Except Error α}
  {next : α → List (List Char) → Except Error Command}

/-- An argument was there, could be read and was handed on. -/
theorem take_eq_ok {args : List (List Char)} {r : Command} (h : take read next args = .ok r) :
    ∃ word rest a, args = word :: rest ∧ read word = .ok a ∧ next a rest = .ok r := by
  cases args with
  | nil => cases h
  | cons word rest =>
    cases ha : read word with
    | error e =>
      rw [take, ha] at h
      cases h
    | ok a =>
      rw [take, ha] at h
      exact ⟨word, rest, a, rfl, ha, h⟩

end

section

variable {args : List (List Char)} {c : Command}

theorem takeSegmentIndex_eq_ok_iff {make : Segment → Word → Command} :
    takeSegmentIndex make args = .ok c ↔ ∃ segment number n,
      args = [segment.name.toList, number] ∧ NumberWord number n ∧ make segment n = c := by
  constructor
  · intro h
    obtain ⟨w, rest, segment, rfl, read, h⟩ := take_eq_ok h
    obtain ⟨number, rest, n, rfl, counted, h⟩ := take_eq_ok h
    obtain ⟨rfl, made⟩ := finish_eq_ok_iff.1 h
    rw [segmentOf_eq_ok_iff.1 read]
    exact ⟨segment, number, n, rfl, numberOf_eq_ok_iff.1 counted, made⟩
  · rintro ⟨segment, number, n, rfl, counted, rfl⟩
    simp only [takeSegmentIndex, take, segmentOf_eq_ok_iff.2 rfl, numberOf_eq_ok_iff.2 counted,
      Except.bind, finish]

theorem takeName_eq_ok_iff {make : String → Command} (words : ∀ w ∈ args, w ≠ []) :
    takeName make args = .ok c ↔ ∃ w, args = [w] ∧ NameWord w ∧ make (.ofList w) = c := by
  constructor
  · intro h
    obtain ⟨w, rest, name, rfl, read, h⟩ := take_eq_ok h
    obtain ⟨rfl, made⟩ := finish_eq_ok_iff.1 h
    obtain ⟨named, rfl⟩ := (nameOf_eq_ok_iff (words w List.mem_cons_self)).1 read
    exact ⟨w, rfl, named, made⟩
  · rintro ⟨w, rfl, named, rfl⟩
    simp only [takeName, take, (nameOf_eq_ok_iff named.nonempty).2 ⟨named, rfl⟩, Except.bind, finish]

theorem takeNameNumber_eq_ok_iff {make : String → Word → Command} (words : ∀ w ∈ args, w ≠ []) :
    takeNameNumber make args = .ok c ↔ ∃ w number n,
      args = [w, number] ∧ NameWord w ∧ NumberWord number n ∧ make (.ofList w) n = c := by
  constructor
  · intro h
    obtain ⟨w, rest, name, rfl, read, h⟩ := take_eq_ok h
    obtain ⟨number, rest, n, rfl, counted, h⟩ := take_eq_ok h
    obtain ⟨rfl, made⟩ := finish_eq_ok_iff.1 h
    obtain ⟨named, rfl⟩ := (nameOf_eq_ok_iff (words w List.mem_cons_self)).1 read
    exact ⟨w, number, n, rfl, named, numberOf_eq_ok_iff.1 counted, made⟩
  · rintro ⟨w, number, n, rfl, named, counted, rfl⟩
    simp only [takeNameNumber, take, (nameOf_eq_ok_iff named.nonempty).2 ⟨named, rfl⟩,
      numberOf_eq_ok_iff.2 counted, Except.bind, finish]

end

/-! ## Commands -/

theorem check_push_iff {segment : Segment} {n : Word} :
    (push segment n).check = .ok () ↔ segment.Has n := by
  cases segment <;> simp [check, Segment.Has, Hack.tempSize, Nat.lt_succ_iff]

theorem check_pop_iff {segment : Segment} {n : Word} :
    (pop segment n).check = .ok () ↔ segment.Has n ∧ segment ≠ .constant := by
  cases segment <;> simp [check, Segment.Has, Hack.tempSize, Nat.lt_succ_iff]

/-- What is read out of words is what the words are a wording of. -/
theorem wording_of_parseArguments {word : String} {args : List (List Char)} {c : Command}
    (words : ∀ w ∈ args, w ≠ []) (read : parseArguments word args = .ok c)
    (good : c.check = .ok ()) : Wording c (word.toList :: args) := by
  unfold parseArguments at read
  split at read
  case isTrue push =>
    obtain ⟨segment, number, n, rfl, counted, rfl⟩ := takeSegmentIndex_eq_ok_iff.1 read
    exact push ▸ .push counted (check_push_iff.1 good)
  split at read
  case isTrue pop =>
    obtain ⟨segment, number, n, rfl, counted, rfl⟩ := takeSegmentIndex_eq_ok_iff.1 read
    obtain ⟨range, writable⟩ := check_pop_iff.1 good
    exact pop ▸ .pop counted range writable
  split at read
  case isTrue label =>
    obtain ⟨w, rfl, named, rfl⟩ := (takeName_eq_ok_iff words).1 read
    exact label ▸ .label named
  split at read
  case isTrue goto =>
    obtain ⟨w, rfl, named, rfl⟩ := (takeName_eq_ok_iff words).1 read
    exact goto ▸ .goto named
  split at read
  case isTrue ifGoto =>
    obtain ⟨w, rfl, named, rfl⟩ := (takeName_eq_ok_iff words).1 read
    exact ifGoto ▸ .ifGoto named
  split at read
  case isTrue function =>
    obtain ⟨w, number, n, rfl, named, counted, rfl⟩ := (takeNameNumber_eq_ok_iff words).1 read
    exact function ▸ .function named counted
  split at read
  case isTrue call =>
    obtain ⟨w, number, n, rfl, named, counted, rfl⟩ := (takeNameNumber_eq_ok_iff words).1 read
    exact call ▸ .call named counted
  split at read
  case isTrue ret =>
    obtain ⟨rfl, rfl⟩ := finish_eq_ok_iff.1 read
    exact ret ▸ .ret
  cases known : Operator.ofName? word with
  | none =>
    rw [known] at read
    cases read
  | some op =>
    rw [known] at read
    obtain ⟨rfl, rfl⟩ := finish_eq_ok_iff.1 read
    obtain rfl := Operator.ofName?_eq_some_iff.1 known
    exact .operate op

theorem parseArguments_operator (op : Operator) :
    parseArguments op.name = finish (operate op) := by
  cases op <;> rfl

/-- A wording of a command is read as that command. -/
theorem parseArguments_of_wording {word : List Char} {args : List (List Char)} {c : Command}
    (h : Wording c (word :: args)) : parseArguments (.ofList word) args = .ok c := by
  cases h with
  | operate op =>
    rw [String.ofList_toList, parseArguments_operator]
    rfl
  | ret => rfl
  | label named | goto named | ifGoto named =>
    exact (takeName_eq_ok_iff (by simp [named.nonempty])).2 ⟨_, rfl, named, rfl⟩
  | function named counted | call named counted =>
    refine (takeNameNumber_eq_ok_iff ?_).2 ⟨_, _, _, rfl, named, counted, rfl⟩
    simp [named.nonempty, counted.nonempty]
  | push counted | pop counted =>
    exact takeSegmentIndex_eq_ok_iff.2 ⟨_, _, _, rfl, counted, rfl⟩

theorem check_of_wording {c : Command} {ws : List (List Char)} (h : Wording c ws) :
    c.check = .ok () := by
  cases h with
  | push _ range => exact check_push_iff.2 range
  | pop _ range writable => exact check_pop_iff.2 ⟨range, writable⟩
  | operate | ret | label | goto | ifGoto | function | call => rfl

theorem parse_of_words {code word : List Char} {args : List (List Char)} {r : Option Command}
    (words : Text.words code = word :: args) :
    parse code = .ok r ↔ ∃ c, parseArguments (.ofList word) args = .ok c ∧ c.check = .ok () ∧
      r = some c := by
  rw [parse, words]
  dsimp only
  cases parseArguments (.ofList word) args with
  | error e => simp [Except.bind]
  | ok c => cases good : c.check <;> simp [Except.bind, Except.map, good, eq_comm]

/-- **A line is read as a command if and only if its words are a wording of it.** -/
theorem parse_eq_some_iff {code : List Char} {c : Command} :
    parse code = .ok (some c) ↔ Wording c (Text.words code) := by
  cases words : Text.words code with
  | nil =>
    rw [parse, words]
    exact iff_of_false nofun nofun
  | cons word args =>
    have nonempty : ∀ w ∈ args, w ≠ [] :=
      fun w there => Text.ne_nil_of_mem_words (words ▸ List.mem_cons_of_mem word there)
    rw [parse_of_words words]
    constructor
    · rintro ⟨d, read, good, same⟩
      obtain rfl := Option.some.inj same
      simpa using wording_of_parseArguments nonempty read good
    · intro h
      exact ⟨c, parseArguments_of_wording h, check_of_wording h, rfl⟩

/-- A line is blank to the reader if and only if it is. -/
theorem parse_eq_none_iff {code : List Char} :
    parse code = .ok none ↔ ∀ c ∈ code, Text.isBlank c = true := by
  rw [← Text.words_eq_nil_iff]
  cases words : Text.words code with
  | nil =>
    rw [parse, words]
    exact iff_of_true rfl rfl
  | cons word args =>
    rw [parse_of_words words]
    exact iff_of_false nofun nofun

end Command

end Vm

end HackToolchain
