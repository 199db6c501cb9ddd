import HackToolchain.Proofs.Assembly.Fates
import HackToolchain.Proofs.Descriptor.Encoding

/-!
# Mending one line

* `comesTo_of_isUnknown`: an unknown mnemonic is one under every table;
* `survey_symbols_replace`: the first pass binds the same labels whatever takes a word in a place;
* `reportsOf_middle`: a fate with an error adds its report to the others;
* `mended_line`: so a line that is mended takes its own report away and no other.
-/

namespace HackToolchain

namespace Assembly

/-- A mnemonic is in no table. -/
def Error.isUnknown : Error → Bool
  | unknownComp _ | unknownDest _ | unknownJump _ => true
  | _ => false

end Assembly

open Assembly

/-- Under every table the line comes to this, and leaves the table as it is. -/
def SourceLine.ComesTo (d : Descriptor) (l : SourceLine) (result : Except Error Bits) : Prop :=
  ∀ s, l.handled? d s = some (result, s)

namespace Assembly

section

variable {d : Descriptor} {s next : SymbolTable} {l l' : SourceLine} {e : Error}

/-! ## Lines that need no table -/

theorem encode_of_symbol?_eq_none {i : Instruction} (plain : i.symbol? = none)
    (s t : SymbolTable) : i.encode d s = ((i.encode d t).1, s) := by
  have bound : i.BoundIn s fun _ => 0 := fun name named => by rw [plain] at named; cases named
  have same := Instruction.encode_of_bound (d := d) (t := t) bound
  rwa [Instruction.resolved_of_symbol?_eq_none plain] at same

theorem fieldBits_address {operand : Operand} {f : Field} {width : Nat}
    (h : (Instruction.address operand).fieldBits d f width s = .error e) : e.isUnknown = false := by
  cases f with
  | opcode =>
    simp only [Instruction.fieldBits] at h
    split at h
    · cases h
    · obtain rfl := Except.error.inj h
      rfl
  | value =>
    cases hr : operand.resolve s with
    | ok r => simp [Instruction.fieldBits, hr, Except.map] at h
    | error e' =>
      obtain rfl : e' = e := by simpa [Instruction.fieldBits, hr, Except.map] using h
      rw [Instruction.error_of_resolve hr]
      rfl
  | _ =>
    obtain rfl := Except.error.inj h
    rfl

/-- An address has no mnemonics. -/
theorem encode_address {operand : Operand}
    (h : (Instruction.address operand).encode d s = (.error e, next)) : e.isUnknown = false := by
  cases Instruction.fault_of_encode h with
  | field _ _ failed => exact fieldBits_address failed
  | layout | uncountable | width => rfl

theorem comesTo_of_error (h : l.reading = .error e) : l.ComesTo d (.error e) := by
  intro s
  rw [SourceLine.handled?, h]

theorem comesTo_of_plain {i : Instruction} (h : l.reading = .ok (some (.instruction i)))
    (plain : i.symbol? = none) (t : SymbolTable) : l.ComesTo d (i.encode d t).1 := by
  intro s
  rw [SourceLine.handled?, h]
  exact congrArg some (encode_of_symbol?_eq_none plain s t)

/-- **A mnemonic that is unknown is unknown under every table.** -/
theorem comesTo_of_isUnknown (h : l.handled? d s = some (.error e, next))
    (unknown : e.isUnknown = true) : l.ComesTo d (.error e) := by
  rcases hr : l.reading with e' | _ | name | i
  · rw [SourceLine.handled?, hr] at h
    obtain ⟨same, -⟩ := Prod.mk.inj (Option.some.inj h)
    exact Except.error.inj same ▸ comesTo_of_error hr
  · rw [SourceLine.handled?, hr] at h
    cases h
  · rw [SourceLine.handled?, hr] at h
    cases h
  · rw [SourceLine.handled?, hr] at h
    have encoded : i.encode d s = (.error e, next) := Option.some.inj h
    cases i with
    | address operand => rw [encode_address encoded] at unknown; cases unknown
    | compute dest comp jump =>
      have comes := comesTo_of_plain (d := d) hr rfl s
      rwa [encoded] at comes

theorem takesWord_of_comesTo {result : Except Error Bits} (comes : l.ComesTo d result) :
    l.reading.takesWord = true := by
  rw [← handled?_isSome d (.ofDescriptor d), comes]
  rfl

/-! ## The first pass -/

theorem label?_of_takesWord (takes : l.reading.takesWord = true) : l.reading.label? = none := by
  rcases hr : l.reading with e | _ | name | i
  · rfl
  · rfl
  · rw [hr] at takes
    cases takes
  · rfl

/-- What follows lines that both take a word is surveyed alike. -/
theorem survey_foldl_congr (lines : List SourceLine) {v w : Survey}
    (symbols : v.symbols = w.symbols) (counter : v.counter = w.counter) :
    (lines.foldl Survey.step v).symbols = (lines.foldl Survey.step w).symbols := by
  induction lines generalizing v w with
  | nil => exact symbols
  | cons l rest ih =>
    apply ih
    · rw [survey_step_symbols, survey_step_symbols, symbols, counter]
    · rw [survey_step_counter, survey_step_counter, counter]

/-- **The labels do not depend on which line takes a word.** -/
theorem survey_symbols_replace (takes : l.reading.takesWord = true)
    (takes' : l'.reading.takesWord = true) (before after : List SourceLine) :
    (Survey.ofLines d (before ++ l :: after)).symbols =
      (Survey.ofLines d (before ++ l' :: after)).symbols := by
  rw [Survey.ofLines, Survey.ofLines, List.foldl_append, List.foldl_append, List.foldl_cons,
    List.foldl_cons]
  apply survey_foldl_congr
  · rw [survey_step_symbols, survey_step_symbols, label?_of_takesWord takes,
      label?_of_takesWord takes']
  · rw [survey_step_counter, survey_step_counter, takes, takes']

/-! ## The second pass -/

theorem fates_middle {result : Except Error Bits} (comes : l.ComesTo d result)
    (before after : List SourceLine) (s : SymbolTable) :
    fates d s (before ++ l :: after) =
      fates d s before ++ ⟨l, result⟩ :: fates d (tableAfter d s before) after := by
  rw [fates_append, fates, comes]

/-- A line that comes to an error under every table is reported as often as it is there. -/
theorem countP_report? (comes : l.ComesTo d (.error e)) (lines : List SourceLine)
    (s : SymbolTable) :
    (fates d s lines).countP (fun f => f.report? = some ⟨l, e⟩) = lines.count l := by
  induction lines generalizing s with
  | nil => rfl
  | cons x rest ih =>
    rw [fates]
    cases hx : x.handled? d s with
    | none =>
      have other : x ≠ l := fun same => by rw [same, comes] at hx; cases hx
      rw [List.count_cons_of_ne other]
      exact ih s
    | some r =>
      obtain ⟨result, next⟩ := r
      dsimp only
      rw [List.countP_cons, ih, List.count_cons]
      congr 1
      by_cases same : x = l
      · subst same
        obtain ⟨rfl, -⟩ := Prod.mk.inj (Option.some.inj ((comes s).symm.trans hx))
        simp
      · have silent : Fate.report? ⟨x, result⟩ ≠ some ⟨l, e⟩ :=
          fun h => same (Fate.report?_eq_some.1 h).1
        simp [same, silent]

/-! ## Reports -/

theorem reportsOf_silent {f : Fate} (silent : f.report? = none) (front back : List Fate) :
    reportsOf (front ++ f :: back) = reportsOf (front ++ back) := by
  cases hf : f.unread <;>
    simp [reportsOf, List.filter_append, hf, List.filterMap_append, silent]

/-- A report is counted among the lines of its kind. -/
theorem count_filterMap_report? {p : Fate → Bool} {r : Diagnostic Error}
    (kind : ∀ f : Fate, f.report? = some r → p f = true) (fs : List Fate) :
    ((fs.filter p).filterMap Fate.report?).count r = fs.countP fun f => f.report? = some r := by
  rw [List.count, List.countP_filterMap, List.countP_filter]
  apply List.countP_congr
  intro f _
  cases hf : f.report? with
  | none => simp
  | some r' =>
    by_cases same : r' = r
    · subst same
      simp [kind f hf]
    · simp [same]

theorem count_filterMap_report?_eq_zero {p : Fate → Bool} {r : Diagnostic Error}
    (kind : ∀ f : Fate, f.report? = some r → p f = false) (fs : List Fate) :
    ((fs.filter p).filterMap Fate.report?).count r = 0 := by
  rw [List.count_eq_zero]
  intro there
  obtain ⟨f, hf, report⟩ := List.mem_filterMap.1 there
  have passed := (List.mem_filter.1 hf).2
  rw [kind f report] at passed
  cases passed

/-- **A fate with an error adds its report to the others**, behind those of the same line in front
of it. -/
theorem reportsOf_middle {f : Fate} {r : Diagnostic Error} (report : f.report? = some r)
    (before after : List Fate) :
    ∃ front back, reportsOf (before ++ f :: after) = front ++ r :: back ∧
      reportsOf (before ++ after) = front ++ back ∧
      front.count r = before.countP fun g => g.report? = some r := by
  have alike : ∀ g : Fate, g.report? = some r → g.unread = f.unread := by
    intro g hg
    rw [Fate.unread, Fate.unread, (Fate.report?_eq_some.1 hg).1, (Fate.report?_eq_some.1 report).1]
  cases hf : f.unread with
  | true =>
    refine ⟨(before.filter Fate.unread).filterMap Fate.report?,
      (after.filter Fate.unread).filterMap Fate.report? ++
        ((before ++ after).filter (!Fate.unread ·)).filterMap Fate.report?, ?_, ?_, ?_⟩
    · simp [reportsOf, List.filter_append, hf, List.filterMap_append, report]
    · simp [reportsOf, List.filter_append, List.filterMap_append]
    · exact count_filterMap_report? (fun g hg => (alike g hg).trans hf) before
  | false =>
    refine ⟨((before ++ after).filter Fate.unread).filterMap Fate.report? ++
        (before.filter (!Fate.unread ·)).filterMap Fate.report?,
      (after.filter (!Fate.unread ·)).filterMap Fate.report?, ?_, ?_, ?_⟩
    · simp [reportsOf, List.filter_append, hf, List.filterMap_append, report]
    · simp [reportsOf, List.filter_append, List.filterMap_append]
    · have none := count_filterMap_report?_eq_zero
        (fun g hg => (alike g hg).trans hf) (before ++ after)
      rw [List.count_append, none, Nat.zero_add]
      exact count_filterMap_report? (fun g hg => by rw [alike g hg, hf]; rfl) before

/-! ## Mending a line -/

/-- A report that comes out belongs to a fate. -/
theorem fate_of_report {lines : List SourceLine} {ds : List (Diagnostic Error)}
    {r : Diagnostic Error} (failed : assemble d lines = .error ds) (reported : r ∈ ds) :
    ∃ t next, r.line.handled? d t = some (.error r.error, next) := by
  rw [assemble_fates] at failed
  split at failed
  · cases failed
  obtain rfl := Except.error.inj failed
  obtain ⟨f, hf, report⟩ := List.mem_filterMap.1 ((reportsOf_perm _).subset reported)
  obtain ⟨line, result⟩ := Fate.report?_eq_some.1 report
  obtain ⟨-, t, next, handled⟩ := handled?_of_mem_fates hf
  rw [line, result] at handled
  exact ⟨t, next, handled⟩

/-- **Diagnostics of different lines are independent.** A line is reported that cannot be read or
has an unknown mnemonic. In place of it stands an instruction that encodes under every table and
leaves the table alone. Then what is reported is what was reported before without the entry of that
line: so many equal entries stand in front of it as there are equal lines in front of the line.
With no other entry the program comes out. -/
theorem mended_line {before after : List SourceLine} {ds : List (Diagnostic Error)}
    (failed : assemble d (before ++ l :: after) = .error ds) (reported : ⟨l, e⟩ ∈ ds)
    (cause : l.reading = .error e ∨ e.isUnknown = true) :
    ∃ front back, ds = front ++ ⟨l, e⟩ :: back ∧ front.count ⟨l, e⟩ = before.count l ∧
      ∀ (l' : SourceLine) (i : Instruction) (w : Bits),
        l'.reading = .ok (some (.instruction i)) → (∀ s, i.encode d s = (.ok w, s)) →
        (front ++ back ≠ [] → assemble d (before ++ l' :: after) = .error (front ++ back)) ∧
          (front ++ back = [] → ∃ p, assemble d (before ++ l' :: after) = .ok p) := by
  obtain ⟨t, next, handled⟩ := fate_of_report failed reported
  have comes : l.ComesTo d (.error e) := by
    rcases cause with unread | unknown
    · exact comesTo_of_error unread
    · exact comesTo_of_isUnknown handled unknown
  let s := (Survey.ofLines d (before ++ l :: after)).symbols
  obtain ⟨front, back, whole, rest, count⟩ :=
    reportsOf_middle (Fate.report?_error l e) (fates d s before)
      (fates d (tableAfter d s before) after)
  have first : ds = front ++ ⟨l, e⟩ :: back := by
    rw [assemble_fates, fates_middle comes, whole, if_neg (by simp)] at failed
    exact (Except.error.inj failed).symm
  refine ⟨front, back, first, count.trans (countP_report? comes before s), ?_⟩
  intro l' i w read encodes
  have mended : l'.ComesTo d (.ok w) := by
    intro u
    rw [SourceLine.handled?, read]
    exact congrArg some (encodes u)
  have same : (Survey.ofLines d (before ++ l' :: after)).symbols = s :=
    survey_symbols_replace (takesWord_of_comesTo mended) (takesWord_of_comesTo comes) before after
  have second := assemble_fates d (before ++ l' :: after)
  simp only [same, fates_middle mended, reportsOf_silent (Fate.report?_ok l' w), rest] at second
  refine ⟨fun some => by rw [second, if_neg some], fun none => ?_⟩
  rw [second, if_pos none]
  exact ⟨_, rfl⟩

end

/-- Lines that fail for different reasons around one place. -/
def around (l : SourceLine) : List SourceLine :=
  SourceLine.ofRaws "front.asm" ["@x", "@ // nothing", "(loop)", "@40000"] ++
    l :: SourceLine.ofRaws "back.asm" ["@loop", "Q=D", "@99999999999999999999", "@x"]

theorem mended_line_around :
    let faulty : SourceLine := ⟨"middle.asm", 0, "D=D*A"⟩
    let mended : SourceLine := ⟨"middle.asm", 0, "D=D+A"⟩
    ∃ ds, assemble hack (around faulty) = .error ds ∧
      ds.map (fun r => (r.line.file, r.line.number)) =
        [("front.asm", 2), ("back.asm", 3), ("front.asm", 4), ("middle.asm", 1), ("back.asm", 2)] ∧
      assemble hack (around mended) = .error (ds.erase ⟨faulty, .unknownComp "D*A"⟩) := by
  intro faulty mended
  let ds := reportsOf (fates hack (Survey.ofLines hack (around faulty)).symbols (around faulty))
  have shown : ds.map (fun r => (r.line.file, r.line.number)) =
      [("front.asm", 2), ("back.asm", 3), ("front.asm", 4), ("middle.asm", 1), ("back.asm", 2)] := by
    decide +kernel
  have failed : assemble hack (around faulty) = .error ds := by
    rw [assemble_fates]
    exact if_neg fun none => by simp [ds, none] at shown
  have reported : ⟨faulty, .unknownComp "D*A"⟩ ∈ ds := by decide +kernel
  have word : ((Instruction.compute "D" "D+A" "null").encode hack (.ofDescriptor hack)).1 =
      .ok (.literal "1110000010010000") := by decide +kernel
  have encodes : ∀ s, (Instruction.compute "D" "D+A" "null").encode hack s =
      (.ok (.literal "1110000010010000"), s) := by
    intro s
    rw [encode_of_symbol?_eq_none rfl s (.ofDescriptor hack), word]
  obtain ⟨front, back, split, count, rest⟩ := mended_line failed reported (.inr rfl)
  have once : front.count ⟨faulty, .unknownComp "D*A"⟩ = 0 := count.trans (by decide +kernel)
  have others : ds.erase ⟨faulty, .unknownComp "D*A"⟩ = front ++ back := by
    rw [split, List.erase_append_right _ (List.count_eq_zero.1 once), List.erase_cons_head]
  have left : front ++ back ≠ [] := by
    intro none
    have size := congrArg List.length shown
    rw [split] at size
    simp [List.append_eq_nil_iff.1 none] at size
  have read : mended.reading = .ok (some (.instruction (.compute "D" "D+A" "null"))) := by
    decide +kernel
  refine ⟨ds, failed, shown, ?_⟩
  rw [others]
  exact (rest mended _ _ read encodes).1 left

end Assembly

end HackToolchain
