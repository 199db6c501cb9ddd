import Mathlib.Data.List.Forall2
import Mathlib.Data.Prod.Basic
import Mathlib.Logic.Equiv.Basic
import HackToolchain.Descriptor.Hack
import HackToolchain.Proofs.Assembly.Fates

/-!
# Sources under other names

The names of a source are told apart and nothing else, so they may be exchanged for others.

* `resolve_renamed`: a table with the other names gives the same addresses, and grows alike;
* `survey_renamed`: the first pass counts the same words and binds the same labels;
* `fates_renamed`: each line comes to the same word, or to an error of the same kind;
* `assemble_renamed`: so the program is the same but for the names in its table, and what fails is
  reported for the same places.
-/

namespace HackToolchain

/-- The report is about the line in this place. -/
def Diagnostic.At {ε : Type} (lines : List SourceLine) (place : Nat) (r : Diagnostic ε) : Prop :=
  lines[place]? = some r.line

instance {ε : Type} (lines : List SourceLine) (place : Nat) (r : Diagnostic ε) :
    Decidable (r.At lines place) :=
  inferInstanceAs (Decidable (_ = _))

namespace Assembly

/-! ## Other names -/

/-- Errors of one kind may still quote different texts. -/
def Error.SameKind (e e' : Error) : Prop := e.ctorIdx = e'.ctorIdx

instance (e e' : Error) : Decidable (e.SameKind e') := inferInstanceAs (Decidable (_ = _))

def Operand.rename (r : String → String) : Operand → Operand
  | literal value => literal value
  | symbol name => symbol (r name)

def Instruction.rename (r : String → String) : Instruction → Instruction
  | address operand => address (operand.rename r)
  | compute dest comp jump => compute dest comp jump

def Statement.rename (r : String → String) : Statement → Statement
  | label name => label (r name)
  | instruction i => instruction (i.rename r)

/-- The second line says what the first one says under other names. What cannot be read must fail
in the same way. -/
def Reading.Renamed (r : String → String) : Reading → Reading → Prop
  | .ok said, .ok said' => said' = said.map (Statement.rename r)
  | .error e, .error e' => e.SameKind e'
  | _, _ => False

instance (r : String → String) (x x' : Reading) : Decidable (x.Renamed r x') :=
  match x, x' with
  | .ok _, .ok _ => inferInstanceAs (Decidable (_ = _))
  | .error e, .error e' => inferInstanceAs (Decidable (e.SameKind e'))
  | .ok _, .error _ | .error _, .ok _ => inferInstanceAs (Decidable False)

/-- Both tables hold the same symbols in the same order. -/
structure SymbolTable.Renamed (r : String → String) (s t : SymbolTable) : Prop where
  entries : t.entries = s.entries.map (Prod.map r id)
  next : t.nextVariable = s.nextVariable

/-- The same answer and tables that are alike, or the same error. -/
inductive SameAnswer (r : String → String) {α : Type} :
    Except Error (α × SymbolTable) → Except Error (α × SymbolTable) → Prop
  | ok (a : α) {s t : SymbolTable} (tables : s.Renamed r t) : SameAnswer r (.ok (a, s)) (.ok (a, t))
  | error (e : Error) : SameAnswer r (.error e) (.error e)

theorem SameAnswer.map {r : String → String} {α β : Type}
    {x y : Except Error (α × SymbolTable)} (h : SameAnswer r x y) (f : α → β) :
    SameAnswer r (x.map fun p => (f p.1, p.2)) (y.map fun p => (f p.1, p.2)) := by
  cases h with
  | ok a tables => exact .ok (f a) tables
  | error e => exact .error e

section

variable {d : Descriptor} {r : String → String} {s t : SymbolTable} {name : String}

/-! ## Tables -/

namespace SymbolTable

theorem get?_renamed (injective : Function.Injective r) (h : s.Renamed r t) (name : String) :
    t.get? (r name) = s.get? name := by
  apply Option.ext
  intro symbol
  have there : t.get? (r name) = some symbol ↔ (r name, symbol) ∈ t.entries :=
    Table.get?_eq_some_iff
  have here : s.get? name = some symbol ↔ (name, symbol) ∈ s.entries := Table.get?_eq_some_iff
  rw [there, here, h.entries]
  exact List.mem_map_of_injective (a := (name, symbol)) (injective.prodMap Function.injective_id)

theorem mem_names_renamed (injective : Function.Injective r) (h : s.Renamed r t) :
    r name ∈ t.names ↔ name ∈ s.names := by
  rw [mem_names, mem_names, get?_renamed injective h]

theorem Renamed.add (injective : Function.Injective r) (h : s.Renamed r t)
    (fresh : name ∉ s.names) (symbol : Symbol) (next : Nat) :
    (s.add name symbol next).Renamed r (t.add (r name) symbol next) where
  entries := by
    rw [entries_add fresh, entries_add (mt (mem_names_renamed injective h).1 fresh), h.entries,
      List.map_append]
    rfl
  next := rfl

theorem Renamed.bindLabel (injective : Function.Injective r) (h : s.Renamed r t) (name : String)
    (counter : Nat) :
    (s.bindLabel name counter).2.Renamed r (t.bindLabel (r name) counter).2 := by
  rw [bindLabel_eq, bindLabel_eq]
  by_cases known : name ∈ s.names
  · rw [if_pos known, if_pos ((mem_names_renamed injective h).2 known)]
    exact h
  · rw [if_neg known, if_neg (mt (mem_names_renamed injective h).1 known), h.next]
    exact h.add injective known _ _

/-- **The same addresses under other names.** -/
theorem resolve_renamed (injective : Function.Injective r) (h : s.Renamed r t) (name : String) :
    SameAnswer r (s.resolve name) (t.resolve (r name)) := by
  unfold resolve
  rw [get?_renamed injective h, h.next]
  cases found : s.get? name with
  | some symbol => exact .ok symbol.address h
  | none =>
    dsimp only
    split
    · exact .ok _ (h.add injective (get?_eq_none.1 found) _ _)
    · exact .error _

/-- The table of the descriptor holds names that stay. -/
theorem ofDescriptor_renamed (fixed : ∀ name ∈ d.symbols.keys, r name = name) :
    (ofDescriptor d).Renamed r (ofDescriptor d) where
  entries := by
    have predefined : (ofDescriptor d).entries = predefinedEntries d := rfl
    rw [predefined, predefinedEntries, List.map_map]
    apply List.map_congr_left
    intro entry there
    have stays := fixed entry.1 (List.mem_map_of_mem there)
    simp [Prod.map, stays]
  next := rfl

end SymbolTable

/-! ## Encoding -/

theorem Operand.resolve_renamed (injective : Function.Injective r) (h : s.Renamed r t)
    (operand : Operand) : SameAnswer r (operand.resolve s) ((operand.rename r).resolve t) := by
  cases operand with
  | literal value => exact .ok value h
  | symbol name => exact (SymbolTable.resolve_renamed injective h name).map (BitVec.ofNat 64)

namespace Instruction

theorem shape_rename (r : String → String) (i : Instruction) : (i.rename r).shape = i.shape := by
  cases i <;> rfl

theorem codeOf_renamed (h : s.Renamed r t) (codes : TwoWay String Bits) (m : String)
    (unknown : String → Error) :
    SameAnswer r ((codeOf codes m unknown).map (·, s)) ((codeOf codes m unknown).map (·, t)) := by
  cases codeOf codes m unknown with
  | ok code => exact .ok code h
  | error e => exact .error e

theorem fieldBits_renamed (injective : Function.Injective r) (h : s.Renamed r t) (i : Instruction)
    (f : Field) (width : Nat) :
    SameAnswer r (i.fieldBits d f width s) ((i.rename r).fieldBits d f width t) := by
  have opcode : SameAnswer r (i.fieldBits d .opcode width s)
      ((i.rename r).fieldBits d .opcode width t) := by
    simp only [fieldBits, shape_rename]
    cases d.opcode? i.shape with
    | some opcode => exact .ok opcode h
    | none => exact .error _
  cases i with
  | address operand =>
    cases f with
    | opcode => exact opcode
    | value => exact (operand.resolve_renamed injective h).map (Bits.ofVal · width)
    | comp | dest | jump => exact .error _
  | compute dest comp jump =>
    cases f with
    | opcode => exact opcode
    | value => exact .error _
    | comp => exact codeOf_renamed h d.comp comp .unknownComp
    | dest => exact codeOf_renamed h d.dest dest .unknownDest
    | jump => exact codeOf_renamed h d.jump jump .unknownJump

theorem encodeFields_renamed (injective : Function.Injective r) (h : s.Renamed r t)
    (i : Instruction) (fields : List (Field × Nat)) (word : Bits) :
    (encodeFields d (i.rename r) fields word t).1 = (encodeFields d i fields word s).1 ∧
      (encodeFields d i fields word s).2.Renamed r
        (encodeFields d (i.rename r) fields word t).2 := by
  induction fields generalizing s t word with
  | nil => exact ⟨rfl, h⟩
  | cons field rest ih =>
    rw [encodeFields, encodeFields]
    have answer := fieldBits_renamed (d := d) injective h i field.1 field.2
    revert answer
    generalize i.fieldBits d field.1 field.2 s = x
    generalize (i.rename r).fieldBits d field.1 field.2 t = y
    rintro (⟨bits, tables⟩ | e)
    · dsimp only
      split
      · exact ih tables _
      · exact ⟨rfl, tables⟩
    · exact ⟨rfl, h⟩

/-- **An instruction is encoded alike under other names.** -/
theorem encode_renamed (injective : Function.Injective r) (h : s.Renamed r t) (i : Instruction) :
    ((i.rename r).encode d t).1 = (i.encode d s).1 ∧
      (i.encode d s).2.Renamed r ((i.rename r).encode d t).2 := by
  unfold encode
  rw [shape_rename]
  cases d.layout? i.shape with
  | none => exact ⟨rfl, h⟩
  | some layout =>
    obtain ⟨word, tables⟩ := encodeFields_renamed (d := d) injective h i layout.fields .empty
    exact ⟨congrArg (fun x : Except Error Bits => x.bind (checkWidth d)) word, tables⟩

end Instruction

/-! ## The first pass -/

theorem takesWord_renamed {x x' : Reading} (same : x.Renamed r x') :
    x'.takesWord = x.takesWord := by
  match x, x', same with
  | .ok none, .ok _, rfl => rfl
  | .ok (some (.label _)), .ok _, rfl => rfl
  | .ok (some (.instruction _)), .ok _, rfl => rfl
  | .error _, .error _, _ => rfl

theorem label?_renamed {x x' : Reading} (same : x.Renamed r x') :
    x'.label? = x.label?.map r := by
  match x, x', same with
  | .ok none, .ok _, rfl => rfl
  | .ok (some (.label _)), .ok _, rfl => rfl
  | .ok (some (.instruction _)), .ok _, rfl => rfl
  | .error _, .error _, _ => rfl

theorem error?_renamed {x x' : Reading} (same : x.Renamed r x') :
    x'.error?.isSome = x.error?.isSome := by
  match x, x', same with
  | .ok _, .ok _, rfl => rfl
  | .error _, .error _, _ => rfl

/-- Both sources have the same lines but for the names in them. -/
def RenamedLines (r : String → String) : List SourceLine → List SourceLine → Prop :=
  List.Forall₂ fun l l' => l.reading.Renamed r l'.reading

instance (r : String → String) (lines lines' : List SourceLine) :
    Decidable (RenamedLines r lines lines') :=
  inferInstanceAs (Decidable (List.Forall₂ _ lines lines'))

variable {lines lines' : List SourceLine}

theorem foldl_renamed (injective : Function.Injective r) (same : RenamedLines r lines lines')
    {v w : Survey} (counter : w.counter = v.counter) (symbols : v.symbols.Renamed r w.symbols) :
    (lines'.foldl Survey.step w).counter = (lines.foldl Survey.step v).counter ∧
      (lines.foldl Survey.step v).symbols.Renamed r (lines'.foldl Survey.step w).symbols := by
  induction same generalizing v w with
  | nil => exact ⟨counter, symbols⟩
  | @cons l l' _ _ here _ ih =>
    apply ih
    · rw [survey_step_counter, survey_step_counter, takesWord_renamed here, counter]
    · rw [survey_step_symbols, survey_step_symbols, label?_renamed here]
      cases l.reading.label? with
      | none => exact symbols
      | some name =>
        rw [counter]
        exact symbols.bindLabel injective name v.counter

/-- **The first pass counts the same words and binds the same labels.** -/
theorem survey_renamed (injective : Function.Injective r)
    (fixed : ∀ name ∈ d.symbols.keys, r name = name) (same : RenamedLines r lines lines') :
    (Survey.ofLines d lines').counter = (Survey.ofLines d lines).counter ∧
      (Survey.ofLines d lines).symbols.Renamed r (Survey.ofLines d lines').symbols :=
  foldl_renamed injective same rfl (SymbolTable.ofDescriptor_renamed fixed)

/-! ## Lines in the same place -/

/-- Two lines in one place of their sources, with what became of them. -/
structure Twins where
  place : Nat
  first : Fate
  second : Fate

/-- The same word, or errors of the same kind. -/
def SameResult : Except Error Bits → Except Error Bits → Prop
  | .ok w, .ok w' => w' = w
  | .error e, .error e' => e.SameKind e'
  | _, _ => False

theorem SameResult.refl (x : Except Error Bits) : SameResult x x := by
  cases x with
  | ok w => exact rfl
  | error e => exact rfl

namespace Twins

structure Alike (lines lines' : List SourceLine) (x : Twins) : Prop where
  first : lines[x.place]? = some x.first.line
  second : lines'[x.place]? = some x.second.line
  unread : x.second.unread = x.first.unread
  result : SameResult x.first.result x.second.result

/-- The same lines with one more in front of each source. -/
def later (x : Twins) : Twins := { x with place := x.place + 1 }

theorem Alike.later {x : Twins} (h : x.Alike lines lines') (l l' : SourceLine) :
    x.later.Alike (l :: lines) (l' :: lines') where
  first := h.first
  second := h.second
  unread := h.unread
  result := h.result

end Twins

/-- What becomes of a line under tables that are alike. -/
theorem handled?_renamed (injective : Function.Injective r) (h : s.Renamed r t)
    {l l' : SourceLine} (same : l.reading.Renamed r l'.reading) :
    (l.handled? d s = none ∧ l'.handled? d t = none) ∨
      ∃ x x' next next', l.handled? d s = some (x, next) ∧ l'.handled? d t = some (x', next') ∧
        SameResult x x' ∧ next.Renamed r next' := by
  unfold SourceLine.handled?
  match l.reading, l'.reading, same with
  | .ok none, .ok _, rfl => exact .inl ⟨rfl, rfl⟩
  | .ok (some (.label _)), .ok _, rfl => exact .inl ⟨rfl, rfl⟩
  | .error e, .error e', kind => exact .inr ⟨_, _, _, _, rfl, rfl, kind, h⟩
  | .ok (some (.instruction i)), .ok _, rfl =>
    obtain ⟨word, tables⟩ := i.encode_renamed (d := d) injective h
    exact .inr ⟨_, _, _, _, rfl, rfl, word ▸ SameResult.refl _, tables⟩

/-- **Each line comes to the same**, and the tables behind the lines are alike. -/
theorem fates_renamed (injective : Function.Injective r) (same : RenamedLines r lines lines')
    (h : s.Renamed r t) :
    (tableAfter d s lines).Renamed r (tableAfter d t lines') ∧
      ∃ xs : List Twins, xs.map Twins.first = fates d s lines ∧
        xs.map Twins.second = fates d t lines' ∧ (∀ x ∈ xs, x.Alike lines lines') ∧
        (xs.map Twins.place).Sublist (List.range lines.length) := by
  induction same generalizing s t with
  | nil => exact ⟨h, [], rfl, rfl, by simp, List.Sublist.refl _⟩
  | @cons l l' rest rest' here _ ih =>
    rw [fates, fates, tableAfter, tableAfter, List.length_cons, List.range_succ_eq_map]
    have shift : ∀ xs : List Twins, (xs.map Twins.later).map Twins.place =
        (xs.map Twins.place).map Nat.succ := fun xs => by rw [List.map_map, List.map_map]; rfl
    have keep : ∀ xs : List Twins, (xs.map Twins.later).map Twins.first = xs.map Twins.first ∧
        (xs.map Twins.later).map Twins.second = xs.map Twins.second :=
      fun xs => ⟨by rw [List.map_map]; rfl, by rw [List.map_map]; rfl⟩
    have moved : ∀ xs : List Twins, (∀ x ∈ xs, x.Alike rest rest') →
        ∀ x ∈ xs.map Twins.later, x.Alike (l :: rest) (l' :: rest') := by
      intro xs alike x hx
      obtain ⟨y, hy, rfl⟩ := List.mem_map.1 hx
      exact (alike y hy).later l l'
    rcases handled?_renamed (d := d) injective h here with
      ⟨none, none'⟩ | ⟨x, x', next, next', some, some', result, tables⟩
    · obtain ⟨behind, xs, first, second, alike, places⟩ := ih h
      rw [none, none']
      refine ⟨behind, xs.map Twins.later, (keep xs).1.trans first, (keep xs).2.trans second,
        moved xs alike, ?_⟩
      rw [shift]
      exact (places.map _).cons _
    · obtain ⟨behind, xs, first, second, alike, places⟩ := ih tables
      rw [some, some']
      refine ⟨behind, ⟨0, ⟨l, x⟩, ⟨l', x'⟩⟩ :: xs.map Twins.later, ?_, ?_, ?_, ?_⟩
      · exact congrArg _ ((keep xs).1.trans first)
      · exact congrArg _ ((keep xs).2.trans second)
      · exact List.forall_mem_cons.2 ⟨⟨rfl, rfl, error?_renamed here, result⟩, moved xs alike⟩
      · rw [List.map_cons, shift]
        exact (places.map _).cons_cons _

/-! ## Reports in the same places -/

/-- The reports of twins, in the order of the twins. -/
theorem reports_alike {xs : List Twins} (alike : ∀ x ∈ xs, x.Alike lines lines') :
    ∃ places, places.Sublist (xs.map Twins.place) ∧
      List.Forall₂ (Diagnostic.At lines) places (xs.filterMap (·.first.report?)) ∧
      List.Forall₂ (Diagnostic.At lines') places (xs.filterMap (·.second.report?)) ∧
      List.Forall₂ (fun x x' => x.error.SameKind x'.error) (xs.filterMap (·.first.report?))
        (xs.filterMap (·.second.report?)) := by
  induction xs with
  | nil => exact ⟨[], .slnil, .nil, .nil, .nil⟩
  | cons x rest ih =>
    obtain ⟨places, sub, first, second, kinds⟩ := ih fun y hy => alike y (List.mem_cons_of_mem _ hy)
    obtain ⟨here, here', -, result⟩ := alike x List.mem_cons_self
    obtain ⟨place, ⟨l, result₁⟩, ⟨l', result₂⟩⟩ := x
    match result₁, result₂, result with
    | .ok w, .ok _, _ => exact ⟨places, sub.cons _, first, second, kinds⟩
    | .error e, .error e', kind =>
      exact ⟨place :: places, sub.cons_cons _, .cons here first, .cons here' second,
        .cons kind kinds⟩

/-- The twins that were not read, and behind them the others. -/
def Twins.reported (xs : List Twins) : List Twins :=
  xs.filter (·.first.unread) ++ xs.filter (!·.first.unread)

theorem reportsOf_twins {xs : List Twins} (alike : ∀ x ∈ xs, x.Alike lines lines') :
    reportsOf (xs.map Twins.first) = (Twins.reported xs).filterMap (·.first.report?) ∧
      reportsOf (xs.map Twins.second) = (Twins.reported xs).filterMap (·.second.report?) := by
  have unread : xs.filter (·.second.unread) = xs.filter (·.first.unread) :=
    List.filter_congr fun x hx => (alike x hx).unread
  have read : xs.filter (!·.second.unread) = xs.filter (!·.first.unread) :=
    List.filter_congr fun x hx => congrArg _ (alike x hx).unread
  constructor
  · simp only [reportsOf, List.filter_map, List.filterMap_map, Twins.reported,
      List.filterMap_append]
    rfl
  · simp only [reportsOf, List.filter_map, List.filterMap_map, Twins.reported,
      List.filterMap_append, ← unread, ← read]
    rfl

theorem words_alike {xs : List Twins} (alike : ∀ x ∈ xs, x.Alike lines lines') :
    (xs.map Twins.second).filterMap Fate.word? = (xs.map Twins.first).filterMap Fate.word? := by
  rw [List.filterMap_map, List.filterMap_map]
  apply List.filterMap_congr
  intro x hx
  have result := (alike x hx).result
  obtain ⟨place, ⟨l, result₁⟩, ⟨l', result₂⟩⟩ := x
  match result₁, result₂, result with
  | .ok w, .ok _, rfl => rfl
  | .error e, .error e', _ => rfl

/-- **Assembling does not depend on how symbols are spelled.** Two sources have the same lines but
for the names in them, and the names of the second are those of the first under an injective
renaming that keeps the names of the descriptor; so no other name becomes one of these. Both count
the same number of words. Either both give the same words, with the same table under the other
names; or both fail, and report the same places in the same order, each with an error of the same
kind, running out of addresses included. -/
theorem assemble_renamed (injective : Function.Injective r)
    (fixed : ∀ name ∈ d.symbols.keys, r name = name) (same : RenamedLines r lines lines') :
    (Survey.ofLines d lines').counter = (Survey.ofLines d lines).counter ∧
    ((∃ p p', assemble d lines = .ok p ∧ assemble d lines' = .ok p' ∧ p'.words = p.words ∧
        p'.symbols.entries = p.symbols.entries.map fun (name, symbol) => (r name, symbol)) ∨
      ∃ ds ds' places, assemble d lines = .error ds ∧ assemble d lines' = .error ds' ∧
        places.Nodup ∧ List.Forall₂ (Diagnostic.At lines) places ds ∧
        List.Forall₂ (Diagnostic.At lines') places ds' ∧
        List.Forall₂ (fun x x' => x.error.SameKind x'.error) ds ds') := by
  obtain ⟨counter, tables⟩ := survey_renamed injective fixed same
  obtain ⟨behind, xs, first, second, alike, inPlace⟩ := fates_renamed (d := d) injective same tables
  have ordered : (Twins.reported xs).Perm xs := List.filter_append_perm _ xs
  obtain ⟨places, sub, here, here', kinds⟩ :=
    reports_alike fun x hx => alike x (ordered.subset hx)
  obtain ⟨reports, reports'⟩ := reportsOf_twins alike
  rw [← reports] at here kinds
  rw [← reports'] at here' kinds
  rw [first] at here kinds
  rw [second] at here' kinds
  refine ⟨counter, ?_⟩
  rw [assemble_fates, assemble_fates]
  by_cases clean : reportsOf (fates d (Survey.ofLines d lines).symbols lines) = []
  · rw [clean, List.forall₂_nil_left_iff] at kinds
    rw [if_pos clean, if_pos kinds, ← first, ← second]
    exact .inl ⟨_, _, rfl, rfl, words_alike alike, behind.entries⟩
  · have clean' : reportsOf (fates d (Survey.ofLines d lines').symbols lines') ≠ [] := by
      intro none
      rw [none, List.forall₂_nil_right_iff] at kinds
      exact clean kinds
    rw [if_neg clean, if_neg clean']
    have once : (xs.map Twins.place).Nodup := inPlace.nodup List.nodup_range
    exact .inr ⟨_, _, places, rfl, rfl,
      sub.nodup ((ordered.map Twins.place).nodup_iff.2 once), here, here', kinds⟩

end

/-- A label, a variable in front of it, and whatever follows. -/
def labelled (label var : String) (rest : List String) : List SourceLine :=
  SourceLine.ofRaws "labelled.asm"
    (["@" ++ var, "M=1 // once", "(" ++ label ++ ")", "@" ++ label, "0;JMP", "(SP)", "@" ++ var] ++
      rest)

/-- The label and the variable take each other's names. Then a program comes out for both sources,
and with lines that fail behind them none comes out for either. -/
theorem assemble_renamed_swapped :
    RenamedLines (Equiv.swap "loop" "i") (labelled "loop" "i" []) (labelled "i" "loop" []) ∧
    (∃ p p', assemble hack (labelled "loop" "i" []) = .ok p ∧
      assemble hack (labelled "i" "loop" []) = .ok p' ∧ p'.words = p.words ∧
      p'.symbols.entries =
        p.symbols.entries.map fun (name, symbol) => (Equiv.swap "loop" "i" name, symbol)) ∧
    ∃ ds ds', assemble hack (labelled "loop" "i" ["D=Q", "@"]) = .error ds ∧
      assemble hack (labelled "i" "loop" ["D=Q", "@ //"]) = .error ds' ∧
      List.Forall₂ (fun x x' => x.error.SameKind x'.error) ds ds' := by
  have injective : Function.Injective (Equiv.swap "loop" "i") := (Equiv.swap "loop" "i").injective
  have fixed : ∀ name ∈ hack.symbols.keys, Equiv.swap "loop" "i" name = name := by decide +kernel
  have same : RenamedLines (Equiv.swap "loop" "i") (labelled "loop" "i" [])
      (labelled "i" "loop" []) := by decide +kernel
  have faulty : RenamedLines (Equiv.swap "loop" "i") (labelled "loop" "i" ["D=Q", "@"])
      (labelled "i" "loop" ["D=Q", "@ //"]) := by decide +kernel
  have comes : (assemble hack (labelled "loop" "i" [])).toOption.isSome = true := by decide +kernel
  have fails : (assemble hack (labelled "loop" "i" ["D=Q", "@"])).toOption.isSome = false := by
    decide +kernel
  refine ⟨same, ?_, ?_⟩
  · rcases (assemble_renamed injective fixed same).2 with done | ⟨ds, _, _, failed, -⟩
    · exact done
    · rw [failed] at comes
      cases comes
  · rcases (assemble_renamed injective fixed faulty).2 with
      ⟨p, _, done, -⟩ | ⟨ds, ds', _, failed, failed', -, -, -, kinds⟩
    · rw [done] at fails
      cases fails
    · exact ⟨ds, ds', failed, failed', kinds⟩

end Assembly

end HackToolchain
