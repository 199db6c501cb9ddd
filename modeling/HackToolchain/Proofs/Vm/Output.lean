import HackToolchain.CommandLine.Translator
import HackToolchain.Proofs.Vm.Grammar

/-!
# What the translator puts out

* `parse_valid`: the names of a command that was read are identifiers, and its index is in
  the range of its segment;
* `output_of_translateUnits`: the output of units that were all translated is the preamble and
  the expansions of their commands in order, under counters that run through the program.
-/

namespace HackToolchain

namespace Vm

/-- What a label or function may be called. -/
def IsIdentifier (name : String) : Prop := isName name.toList = true ∧ name ≠ ""

instance (name : String) : Decidable (IsIdentifier name) := inferInstanceAs (Decidable (_ ∧ _))

namespace Command

/-- The name that a command gives to the place where it stands. -/
def defined? : Command → Option String
  | label name | function name _ => some name
  | _ => none

/-- The name that a command leaves to. -/
def target? : Command → Option String
  | goto name | ifGoto name | call name _ => some name
  | _ => none

def name? (c : Command) : Option String := c.defined?.or c.target?

structure Valid (c : Command) : Prop where
  named : ∀ name, c.name? = some name → IsIdentifier name
  check : c.check = .ok ()

end Command

/-! ## Commands that were read -/

theorem NameWord.isIdentifier {w : List Char} (h : NameWord w) : IsIdentifier (.ofList w) := by
  obtain ⟨nonempty, good⟩ := nameWord_iff.1 h
  exact ⟨by rwa [String.toList_ofList], by simpa using nonempty⟩

/-- The name in a command that has a wording is an identifier. -/
theorem Wording.isIdentifier {c : Command} {ws : List (List Char)} (h : Wording c ws) {name : String}
    (named : c.name? = some name) : IsIdentifier name := by
  cases h with
  | operate | ret | push | pop => cases named
  | label good | goto good | ifGoto good | function good | call good =>
    obtain rfl := Option.some.inj named
    exact good.isIdentifier

namespace Command

/-- **A command that was read is valid.** -/
theorem parse_valid {code : List Char} {c : Command} (h : parse code = .ok (some c)) :
    c.Valid := by
  have wording := parse_eq_some_iff.1 h
  exact ⟨fun name => wording.isIdentifier, check_of_wording wording⟩

theorem valid_call {name : String} (h : IsIdentifier name) (arguments : Word) :
    (call name arguments).Valid where
  named other hother := by
    obtain rfl : name = other := Option.some.inj hother
    exact h
  check := rfl

end Command

/-! ## Programs -/

/-- A command in its unit. -/
abbrev Placed := String × Command

/-- The counters after commands. -/
def countersAfter (n : Counters) (program : List Placed) : Counters :=
  program.foldl (fun n c => n.next c.2) n

/-- The lines of commands from given counters on. -/
def expansion (n : Counters) : List Placed → List Item
  | [] => []
  | (unit, c) :: rest => c.expand unit n ++ expansion (n.next c) rest

theorem expansion_append (n : Counters) (front back : List Placed) :
    expansion n (front ++ back) = expansion n front ++ expansion (countersAfter n front) back := by
  induction front generalizing n with
  | nil => rfl
  | cons c rest ih => rw [List.cons_append, expansion, ih, ← List.append_assoc]; rfl

theorem countersAfter_append (n : Counters) (front back : List Placed) :
    countersAfter n (front ++ back) = countersAfter (countersAfter n front) back :=
  List.foldl_append

/-- The command of a line, if one can be read. -/
def commandOf? (line : SourceLine) : Option Command :=
  (Command.parse line.code).toOption.join

theorem valid_of_commandOf? {line : SourceLine} {c : Command} (h : commandOf? line = some c) :
    c.Valid := by
  unfold commandOf? at h
  cases hp : Command.parse line.code with
  | error e => simp [hp, Except.toOption] at h
  | ok read =>
    obtain rfl : read = some c := by simpa [hp, Except.toOption] using h
    exact Command.parse_valid hp

def unitProgram (unit : String) (lines : List SourceLine) : List Placed :=
  (lines.filterMap commandOf?).map fun c => (unit, c)

namespace Translator

/-- A translator before any unit, with the call of an entry function in front or not. -/
def started : Option String → Translator
  | none => empty
  | some entry => empty.bootstrap entry

/-- More commands than before, all of them at the end. -/
structure Extends (t : Translator) (program : List Placed) (next : Translator) : Prop where
  output : next.output.toList = t.output.toList ++ expansion t.counters program
  counters : next.counters = countersAfter t.counters program

theorem Extends.nil (t : Translator) : t.Extends [] t :=
  ⟨(List.append_nil _).symm, rfl⟩

theorem Extends.trans {t u v : Translator} {front back : List Placed} (h : t.Extends front u)
    (k : u.Extends back v) : t.Extends (front ++ back) v := by
  constructor
  · rw [k.output, h.output, h.counters, expansion_append, List.append_assoc]
  · rw [k.counters, h.counters, countersAfter_append]

theorem add_extends (t : Translator) (unit : String) (c : Command) :
    t.Extends [(unit, c)] (t.add unit c) := by
  constructor
  · simp [add, expansion]
  · rfl

/-- Without an error every line that is not blank holds a command, and they are added in
order. -/
theorem addLines_extends {t next : Translator} {unit : String} {lines : List SourceLine}
    (h : t.addLines unit lines = (none, next)) : t.Extends (unitProgram unit lines) next := by
  induction lines generalizing t with
  | nil =>
    obtain rfl : t = next := (Prod.mk.inj h).2
    exact Extends.nil t
  | cons line rest ih =>
    rw [addLines] at h
    cases hp : Command.parse line.code with
    | error e => simp [hp] at h
    | ok read =>
      cases read with
      | none =>
        have skip : unitProgram unit (line :: rest) = unitProgram unit rest := by
          simp [unitProgram, commandOf?, hp, Except.toOption]
        rw [skip]
        exact ih (by simpa only [hp] using h)
      | some c =>
        have front : unitProgram unit (line :: rest) = [(unit, c)] ++ unitProgram unit rest := by
          simp [unitProgram, commandOf?, hp, Except.toOption]
        rw [front]
        exact (add_extends t unit c).trans (ih (by simpa only [hp] using h))

theorem translate_extends {t next : Translator} {unit : String} {lines : List SourceLine}
    (h : t.translate unit lines = (none, next)) : t.Extends (unitProgram unit lines) next := by
  apply addLines_extends
  unfold translate at h
  cases ha : t.addLines unit lines with
  | mk failed after =>
    rw [ha] at h
    cases failed with
    | none => exact h
    | some d => cases h

end Translator

open CommandLine (SourceUnit translateUnits)

/-- The commands of a whole program in order. The call of an entry function belongs to no
unit. -/
def program (entry : Option String) (units : List SourceUnit) : List Placed :=
  entry.toList.map (fun name => ("", .call name 0)) ++
    units.flatMap fun unit => unitProgram unit.name unit.lines

/-- The lines that set the stack to its base in front of the call of an entry function. -/
def preamble : Option String → List Item
  | none => []
  | some _ =>
    [.note "bootstrap", Expansion.literal Hack.stackBase, Expansion.assign "D" "A",
     Expansion.cell .sp, Expansion.assign "M" "D"]

theorem translateUnits_extends {t next : Translator} {units : List SourceUnit}
    (h : translateUnits t units = .ok next) :
    t.Extends (units.flatMap fun unit => unitProgram unit.name unit.lines) next := by
  induction units generalizing t with
  | nil =>
    obtain rfl := Except.ok.inj h
    exact .nil t
  | cons unit rest ih =>
    rw [translateUnits] at h
    cases ht : t.translate unit.name unit.lines with
    | mk failed after =>
      rw [ht] at h
      cases failed with
      | none => exact (Translator.translate_extends ht).trans (ih h)
      | some d => cases h

/-- **The output of a program.** -/
theorem output_of_translateUnits {entry : Option String} {units : List SourceUnit}
    {t : Translator} (h : translateUnits (.started entry) units = .ok t) :
    t.output.toList = preamble entry ++ expansion ⟨0, 0⟩ (program entry units) := by
  have rest := (translateUnits_extends h).output
  cases entry with
  | none => exact rest
  | some name =>
    have front : (Translator.started (some name)).output.toList =
        preamble (some name) ++ expansion ⟨0, 0⟩ [("", .call name 0)] := by
      simp [Translator.started, Translator.bootstrap, Translator.add, Translator.empty, preamble,
        expansion]
    rw [rest, front, List.append_assoc]
    congr 1

/-- Every command of the units is valid, which the call of an entry function need not be. -/
theorem valid_or_entry {entry : Option String} {units : List SourceUnit} {c : Placed}
    (h : c ∈ program entry units) : c.2.Valid ∨ ∃ name ∈ entry, c.2 = .call name 0 := by
  rw [program, List.mem_append] at h
  rcases h with h | h
  · obtain ⟨name, hname, rfl⟩ := List.mem_map.1 h
    exact .inr ⟨name, Option.mem_toList.1 hname, rfl⟩
  · obtain ⟨unit, -, hc⟩ := List.mem_flatMap.1 h
    obtain ⟨command, hcommand, rfl⟩ := List.mem_map.1 hc
    obtain ⟨line, -, read⟩ := List.mem_filterMap.1 hcommand
    exact .inl (valid_of_commandOf? read)

/-- The call of an entry function belongs to a unit without a name. -/
theorem unit_of_mem_program {entry : Option String} {units : List SourceUnit} {c : Placed}
    (h : c ∈ program entry units) : c.1 = "" ∨ ∃ u ∈ units, c.1 = u.name := by
  rw [program, List.mem_append] at h
  rcases h with h | h
  · obtain ⟨name, -, rfl⟩ := List.mem_map.1 h
    exact .inl rfl
  · obtain ⟨u, hu, hc⟩ := List.mem_flatMap.1 h
    obtain ⟨command, -, rfl⟩ := List.mem_map.1 hc
    exact .inr ⟨u, hu, rfl⟩

theorem valid_of_mem_program {entry : Option String} {units : List SourceUnit} {c : Placed}
    (identifier : ∀ name ∈ entry, IsIdentifier name) (h : c ∈ program entry units) :
    c.2.Valid := by
  rcases valid_or_entry h with valid | ⟨name, hname, called⟩
  · exact valid
  · rw [called]
    exact Command.valid_call (identifier name hname) 0

end Vm

end HackToolchain
