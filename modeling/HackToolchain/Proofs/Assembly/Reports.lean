import HackToolchain.Proofs.Assembly.TwoPass

/-!
# What is reported

Both passes, whether or not a line fails:

* `encode_eq`: encoding gives the outcome of the instruction with its address written out, and
  binds the name of the operand if the field of the operand is reached at all, also when the
  encoding fails later on;
* `secondPass_reports`: so the table does not depend on which lines fail, and the errors are
  those of the outcomes in order.
-/

namespace HackToolchain

/-- In front of the operand of an address stand only opcodes that can be written. So many bits
stand in front of the fields. -/
def Descriptor.reachesOperand (d : Descriptor) (width : Nat) : List (Field × Nat) → Bool
  | (.value, _) :: _ => true
  | (.opcode, _) :: rest =>
    match d.opcode? .address with
    | some opcode =>
      decide (width + opcode.width < UInt64.size) && d.reachesOperand (width + opcode.width) rest
    | none => false
  | _ => false

/-- Operands are looked up when addresses are encoded. -/
def Descriptor.usesOperands (d : Descriptor) : Bool :=
  match d.layout? .address with
  | some layout => d.reachesOperand 0 layout.fields
  | none => false

namespace Assembly

/-! ## Outcomes -/

namespace Instruction

/-- The name that encoding the instruction looks up. -/
def operandName? (d : Descriptor) (i : Instruction) : Option String :=
  if d.usesOperands then i.symbol? else none

/-- What the instruction is encoded to when names stand for addresses. -/
def outcome (d : Descriptor) (σ : String → Nat) (i : Instruction) : Except Error Bits :=
  ((i.resolved σ).encode d (.ofDescriptor d)).1

section

variable {d : Descriptor} {s : SymbolTable} {σ : String → Nat}

theorem encodeFields_symbol {name : String} (fields : List (Field × Nat)) (word : Bits)
    (found : d.reachesOperand word.width fields = true →
      s.resolve name = .ok (σ name, s.allocate (some name))) (t : SymbolTable) :
    encodeFields d (.address (.symbol name)) fields word s =
      ((encodeFields d (.address (.literal (BitVec.ofNat 64 (σ name)))) fields word t).1,
        if d.reachesOperand word.width fields then s.allocate (some name) else s) := by
  induction fields generalizing word with
  | nil => rfl
  | cons field rest ih =>
    obtain ⟨f, width⟩ := field
    cases f with
    | comp => rfl
    | dest => rfl
    | jump => rfl
    | opcode =>
      cases ho : d.opcode? .address with
      | none => simp [encodeFields, fieldBits, shape, ho, Descriptor.reachesOperand]
      | some opcode =>
        simp only [encodeFields, fieldBits, shape, ho, Descriptor.reachesOperand] at found ⊢
        have total : (word ++ opcode).width = word.width + opcode.width := rfl
        by_cases fits : (word ++ opcode).width < UInt64.size
        · have later := ih (word ++ opcode)
          rw [total] at fits later
          simp only [total, fits, decide_true, Bool.true_and] at found ⊢
          exact later found
        · rw [total] at fits
          simp [total, fits]
    | value => exact encodeFields_operand (found rfl) width rest word t

/-- **What encoding does, whether or not it fails.** -/
theorem encode_eq {i : Instruction}
    (found : ∀ name, i.operandName? d = some name →
      s.resolve name = .ok (σ name, s.allocate (some name))) :
    i.encode d s = (i.outcome d σ, s.allocate (i.operandName? d)) := by
  cases hi : i.symbol? with
  | none =>
    have bound : i.BoundIn s σ := fun name hname => by rw [hi] at hname; cases hname
    have none : i.operandName? d = none := by simp [operandName?, hi]
    rw [encode_of_bound bound (t := .ofDescriptor d), none]
    rfl
  | some name =>
    obtain rfl := eq_of_symbol? hi
    cases hl : d.layout? .address with
    | none =>
      have unused : d.usesOperands = false := by rw [Descriptor.usesOperands, hl]
      simp [encode, outcome, resolved, shape, hl, operandName?, unused, SymbolTable.allocate]
    | some layout =>
      have uses : d.usesOperands = d.reachesOperand 0 layout.fields := by
        rw [Descriptor.usesOperands, hl]
      have fields := encodeFields_symbol layout.fields .empty
        (fun reached => found name (by rw [operandName?, uses]; exact if_pos reached))
        (.ofDescriptor d)
      have table : s.allocate ((Instruction.address (.symbol name)).operandName? d) =
          if d.reachesOperand Bits.empty.width layout.fields then s.allocate (some name) else s := by
        rw [operandName?, uses, apply_ite s.allocate]
        rfl
      simp only [outcome, encode, resolved, shape, hl, fields, table]

/-- The word of the instruction, if it has one. -/
def word? (d : Descriptor) (σ : String → Nat) (i : Instruction) : Option Bits :=
  (i.outcome d σ).toOption

/-- Why the instruction has no word. -/
def failure? (d : Descriptor) (σ : String → Nat) (i : Instruction) : Option Error :=
  match i.outcome d σ with
  | .error e => some e
  | .ok _ => none

end

end Instruction

/-! ## The second pass -/

/-- The names that encoding instructions looks up, in order. -/
def operandNames (d : Descriptor) (is : List Instruction) : List String :=
  is.filterMap (Instruction.operandName? d)

theorem operandNames_eq (d : Descriptor) (is : List Instruction) :
    operandNames d is = if d.usesOperands then symbolsUsed is else [] := by
  unfold operandNames symbolsUsed Instruction.operandName?
  split
  · rfl
  · simp

theorem operandNames_concat (d : Descriptor) (queue : List (SourceLine × Instruction))
    (q : SourceLine × Instruction) :
    operandNames d ((queue ++ [q]).map Prod.snd) =
      operandNames d (queue.map Prod.snd) ++ (q.2.operandName? d).toList := by
  rw [List.map_append, List.map_singleton, operandNames, operandNames, filterMap_concat]

/-- The reports of instructions that cannot be encoded. -/
def failures (d : Descriptor) (σ : String → Nat) (queue : List (SourceLine × Instruction)) :
    List (Diagnostic Error) :=
  queue.filterMap fun q => (q.2.failure? d σ).map fun e => ⟨q.1, e⟩

namespace SymbolTable

/-- The addresses that a table has bound. -/
def addresses (s : SymbolTable) (name : String) : Nat := (s.address? name).getD 0

theorem agrees_addresses (s : SymbolTable) : s.Agrees s.addresses := by
  intro name address bound
  rw [addresses, bound, Option.getD_some]

/-- A name that is bound, or has an address left, is resolved. -/
theorem resolve_of_room {s : SymbolTable} {σ : String → Nat} {name : String}
    (room : name ∉ s.names → s.nextVariable < maxAddress)
    (agrees : (s.allocate (some name)).Agrees σ) :
    s.resolve name = .ok (σ name, s.allocate (some name)) := by
  have done : ∃ address next, s.resolve name = .ok (address, next) := by
    by_cases bound : name ∈ s.names
    · obtain ⟨symbol, there⟩ := mem_names.1 bound
      exact ⟨_, _, resolve_of_bound (congrArg (Option.map Symbol.address) there)⟩
    · exact ⟨_, _, (resolve_of_fresh bound).trans (if_pos (room bound))⟩
  obtain ⟨address, next, resolved⟩ := done
  obtain ⟨rfl, found⟩ := resolve_eq_ok resolved
  rw [resolved, agrees name address found]

end SymbolTable

/-- What the second pass has made of instructions on top of a table and of earlier errors. -/
structure Output.Reports (d : Descriptor) (s : SymbolTable) (earlier : List (Diagnostic Error))
    (queue : List (SourceLine × Instruction)) (o : Output) : Prop where
  table : s.Extended (operandNames d (queue.map Prod.snd)) o.symbols
  words : ∀ σ, o.symbols.Agrees σ → o.words.toList = queue.filterMap fun q => q.2.word? d σ
  errors : ∀ σ, o.symbols.Agrees σ → o.errors.toList = earlier ++ failures d σ queue

section

variable {d : Descriptor} {s : SymbolTable} {queue : List (SourceLine × Instruction)}

theorem reports_start (errors : Array (Diagnostic Error)) :
    Output.Reports d s errors.toList [] ⟨s, #[], errors⟩ where
  table := .refl s
  words := fun _ _ => rfl
  errors := fun _ _ => (List.append_nil _).symm

theorem output_step_eq {o : Output} {q : SourceLine × Instruction} {σ : String → Nat}
    (room : ∀ name, q.2.operandName? d = some name → name ∉ o.symbols.names →
      o.symbols.nextVariable < maxAddress)
    (agrees : (o.symbols.allocate (q.2.operandName? d)).Agrees σ) :
    o.step d q =
      match q.2.outcome d σ with
      | .ok word => ⟨o.symbols.allocate (q.2.operandName? d), o.words.push word, o.errors⟩
      | .error e => ⟨o.symbols.allocate (q.2.operandName? d), o.words, o.errors.push ⟨q.1, e⟩⟩ := by
  have encoded := Instruction.encode_eq (d := d) (s := o.symbols) (σ := σ) (i := q.2)
    fun name named => SymbolTable.resolve_of_room (room name named) (named ▸ agrees)
  rw [Output.step, encoded]
  cases q.2.outcome d σ <;> rfl

/-- One more instruction, whether or not it can be encoded. -/
theorem reports_step {earlier : List (Diagnostic Error)} {o : Output}
    (h : o.Reports d s earlier queue) (q : SourceLine × Instruction)
    (room : ∀ name, q.2.operandName? d = some name → name ∉ o.symbols.names →
      o.symbols.nextVariable < maxAddress) :
    (o.step d q).Reports d s earlier (queue ++ [q]) := by
  have step := output_step_eq (σ := (o.symbols.allocate (q.2.operandName? d)).addresses) room
    (SymbolTable.agrees_addresses _)
  have table : (o.step d q).symbols = o.symbols.allocate (q.2.operandName? d) := by
    rw [step]
    cases q.2.outcome d _ <;> rfl
  constructor
  · rw [table, operandNames_concat]
    exact h.table.allocate (q.2.operandName? d)
  · intro σ agrees
    rw [table] at agrees
    rw [output_step_eq room agrees, filterMap_concat, ← h.words σ agrees.of_allocate]
    cases hq : q.2.outcome d σ <;> simp [Instruction.word?, hq, Except.toOption]
  · intro σ agrees
    rw [table] at agrees
    rw [output_step_eq room agrees, failures, filterMap_concat, ← List.append_assoc,
      ← failures, ← h.errors σ agrees.of_allocate]
    cases hq : q.2.outcome d σ <;> simp [Instruction.failure?, hq]

/-- **The second pass, whether or not it fails.** There is an address for every variable. -/
theorem secondPass_reports
    (room : s.nextVariable +
      (newNames s.names (operandNames d (queue.map Prod.snd))).length ≤ maxAddress)
    (errors : Array (Diagnostic Error)) :
    Output.Reports d s errors.toList queue
      (queue.foldl (Output.step d) ⟨s, #[], errors⟩) := by
  induction queue using List.reverseRecOn with
  | nil => exact reports_start errors
  | append_singleton queue q ih =>
    rw [operandNames_concat] at room
    have earlier := ih (Nat.le_trans (Nat.add_le_add_left (length_newNames_append ..) _) room)
    rw [List.foldl_append, List.foldl_cons, List.foldl_nil]
    apply reports_step earlier
    intro name named fresh
    have new := mt (earlier.table.mem_names name).2 fresh
    rw [named, Option.toList_some, newNames_concat, if_neg new, List.length_append,
      List.length_singleton] at room
    rw [earlier.table.counter]
    omega

end

/-! ## Assembling -/

/-- Addresses have 32 bits: there is one for every word and one for every variable. -/
structure Countable (d : Descriptor) (source : List Reading) : Prop where
  words : wordCount source ≤ maxAddress
  names : d.varBase + (newNames (boundNames d source)
    (operandNames d (instructions source))).length ≤ maxAddress

theorem length_newNames_le (known names : List String) :
    (newNames known names).length ≤ names.length := by
  induction names using List.reverseRecOn with
  | nil => exact Nat.le_refl 0
  | append_singleton names name ih =>
    rw [newNames_concat, List.length_append, List.length_singleton]
    split
    · exact Nat.le_succ_of_le ih
    · rw [List.length_append, List.length_singleton]
      exact Nat.succ_le_succ ih

/-- What is short enough can be counted. -/
theorem Countable.of_length {d : Descriptor} {source : List Reading}
    (short : d.varBase + source.length ≤ maxAddress) : Countable d source := by
  have words : wordCount source ≤ source.length := List.countP_le_length
  have names : (operandNames d (instructions source)).length ≤ source.length :=
    Nat.le_trans (List.length_filterMap_le _ _) (List.length_filterMap_le _ _)
  have fresh := length_newNames_le (boundNames d source) (operandNames d (instructions source))
  constructor
  · omega
  · omega

/-- The whole table in order. Variables are the names that encoding looks up. -/
def tableEntries (d : Descriptor) (source : List Reading) : List (String × Symbol) :=
  predefinedEntries d ++ labelEntries d.symbols.keys source ++
    variableEntries d.varBase (boundNames d source) (operandNames d (instructions source))

theorem tableEntries_subset (d : Descriptor) (source : List Reading) :
    tableEntries d source ⊆ symbolEntries d source := by
  rw [tableEntries, symbolEntries, operandNames_eq]
  split
  · exact List.Subset.refl _
  · simp [variableEntries]

theorem tableEntries_eq {d : Descriptor} (uses : d.usesOperands = true) (source : List Reading) :
    tableEntries d source = symbolEntries d source := by
  rw [tableEntries, symbolEntries, operandNames_eq, if_pos uses]

theorem SymbolTable.addresses_of_entries {d : Descriptor} {source : List Reading}
    {s : SymbolTable} (h : s.entries = symbolEntries d source) :
    s.addresses = addressOf d source := by
  funext name
  rw [addresses, address?, get?_eq_symbolOf h, addressOf]

theorem SymbolTable.agrees_of_entries {d : Descriptor} {source : List Reading} {s : SymbolTable}
    (h : s.entries ⊆ symbolEntries d source) : s.Agrees (addressOf d source) := by
  intro name address bound
  obtain ⟨symbol, found, rfl⟩ := Option.map_eq_some_iff.1 bound
  have entry : (name, symbol) ∈ s.entries := Table.get?_eq_some_iff.1 found
  rw [addressOf, mem_symbolEntries.1 (h entry)]
  rfl

/-- The reports of lines that are read but cannot be encoded. -/
def unencodable (d : Descriptor) (σ : String → Nat) (lines : List SourceLine) :
    List (Diagnostic Error) :=
  failures d σ (queued lines)

section

variable {d : Descriptor} {lines : List SourceLine}

/-- The output of both passes. -/
theorem output_reports (countable : Countable d (lines.map SourceLine.reading)) :
    let source := lines.map SourceLine.reading
    let o := Output.ofSurvey d (Survey.ofLines d lines)
    o.symbols.entries = tableEntries d source ∧
      o.words.toList = (instructions source).filterMap (Instruction.word? d (addressOf d source)) ∧
      o.errors.toList = unreadable lines ++ unencodable d (addressOf d source) lines := by
  intro source o
  have survey := survey_describes d lines
  have queue : (queued lines).map Prod.snd = instructions source := queued_instructions lines
  have room : (Survey.ofLines d lines).symbols.nextVariable +
      (newNames (Survey.ofLines d lines).symbols.names
        (operandNames d ((queued lines).map Prod.snd))).length ≤ maxAddress := by
    rw [survey.next, newNames_congr survey.mem_names, queue]
    exact countable.names
  have reports := secondPass_reports room (Survey.ofLines d lines).errors
  rw [← survey.queue, ← ofSurvey_eq, survey.queue, survey.errors] at reports
  have entries : o.symbols.entries = tableEntries d source := by
    rw [reports.table.entries, survey.entries, survey.next, queue, tableEntries, variableEntries,
      variableEntries, newNames_congr survey.mem_names, variableAddress_congr survey.mem_names]
  have agrees : o.symbols.Agrees (addressOf d source) :=
    SymbolTable.agrees_of_entries (entries ▸ tableEntries_subset d source)
  refine ⟨entries, ?_, reports.errors _ agrees⟩
  rw [reports.words _ agrees, ← queue, List.filterMap_map]
  rfl

/-- **All or nothing.** A program comes out if there is nothing to report. -/
theorem assemble_eq (countable : Countable d (lines.map SourceLine.reading)) :
    let source := lines.map SourceLine.reading
    let reports := unreadable lines ++ unencodable d (addressOf d source) lines
    ∃ p : Program, p.symbols.entries = tableEntries d source ∧
      p.words = (instructions source).filterMap (Instruction.word? d (addressOf d source)) ∧
      assemble d lines = if reports = [] then .ok p else .error reports := by
  intro source reports
  obtain ⟨entries, words, errors⟩ := output_reports countable
  refine ⟨⟨_, _⟩, entries, words, ?_⟩
  unfold assemble
  have empty : (Output.ofSurvey d (Survey.ofLines d lines)).errors.isEmpty = true ↔
      reports = [] := by
    rw [← Array.isEmpty_toList, errors, List.isEmpty_iff]
  simp only [empty, errors]
  rfl

end

end Assembly

/-! ## Lines that fail -/

namespace SourceLine

open Assembly (Instruction)

/-- Why the line is read but cannot be encoded. -/
def encodingFailure? (d : Descriptor) (σ : String → Nat) (l : SourceLine) :
    Option Assembly.Error :=
  l.reading.instruction?.bind (Instruction.failure? d σ)

/-- Why the line fails, if it does. -/
def failure? (d : Descriptor) (σ : String → Nat) (l : SourceLine) : Option Assembly.Error :=
  l.reading.error?.or (l.encodingFailure? d σ)

end SourceLine

namespace Assembly

section

variable {d : Descriptor} {σ : String → Nat} {lines : List SourceLine}

theorem unencodable_eq (d : Descriptor) (σ : String → Nat) (lines : List SourceLine) :
    unencodable d σ lines =
      lines.filterMap fun l => (l.encodingFailure? d σ).map fun e => ⟨l, e⟩ := by
  rw [unencodable, failures, queued, List.filterMap_filterMap]
  congr 1
  funext l
  cases h : l.reading.instruction? <;> simp [SourceLine.encodingFailure?, h]

/-- Each line that has an error is reported in its place. -/
theorem lines_of_reports (error? : SourceLine → Option Error) (lines : List SourceLine) :
    (lines.filterMap fun l => (error? l).map fun e => (⟨l, e⟩ : Diagnostic Error)).map
      Diagnostic.line = lines.filter fun l => (error? l).isSome := by
  induction lines with
  | nil => rfl
  | cons l rest ih => cases h : error? l <;> simp [h, ih]

/-- What is read has no other error than that of its encoding. -/
theorem failure?_eq_none_iff {l : SourceLine} :
    l.failure? d σ = none ↔ l.reading.error? = none ∧ l.encodingFailure? d σ = none :=
  Option.or_eq_none_iff

theorem failure?_of_encodingFailure? {l : SourceLine} {e : Error}
    (h : l.encodingFailure? d σ = some e) :
    l.reading.error? = none ∧ l.failure? d σ = some e := by
  have readable : l.reading.error? = none := by
    unfold SourceLine.encodingFailure? at h
    rcases hr : l.reading with error | statement
    · simp [hr, Reading.instruction?] at h
    · rfl
  exact ⟨readable, by rw [SourceLine.failure?, readable, Option.none_or, h]⟩

/-- Nothing is reported if no line fails. -/
theorem reports_eq_nil_iff :
    unreadable lines ++ unencodable d σ lines = [] ↔ ∀ l ∈ lines, l.failure? d σ = none := by
  rw [unencodable_eq, unreadable, List.append_eq_nil_iff, List.filterMap_eq_nil_iff,
    List.filterMap_eq_nil_iff]
  simp only [Option.map_eq_none_iff, failure?_eq_none_iff]
  exact ⟨fun h l hl => ⟨h.1 l hl, h.2 l hl⟩, fun h => ⟨fun l hl => (h l hl).1, fun l hl => (h l hl).2⟩⟩

/-- A report holds the error of its line. -/
theorem failure?_of_mem_reports {r : Diagnostic Error}
    (h : r ∈ unreadable lines ++ unencodable d σ lines) :
    r.line ∈ lines ∧ r.line.failure? d σ = some r.error := by
  rw [unencodable_eq, List.mem_append] at h
  rcases h with h | h
  · obtain ⟨l, hl, he⟩ := List.mem_filterMap.1 h
    obtain ⟨e, failed, rfl⟩ := Option.map_eq_some_iff.1 he
    exact ⟨hl, by rw [SourceLine.failure?, failed, Option.some_or]⟩
  · obtain ⟨l, hl, he⟩ := List.mem_filterMap.1 h
    obtain ⟨e, failed, rfl⟩ := Option.map_eq_some_iff.1 he
    exact ⟨hl, (failure?_of_encodingFailure? failed).2⟩

/-- An error is the list of all reports. -/
theorem eq_reports (countable : Countable d (lines.map SourceLine.reading))
    {ds : List (Diagnostic Error)} (failed : assemble d lines = .error ds) :
    ds = unreadable lines ++ unencodable d (addressOf d (lines.map SourceLine.reading)) lines := by
  obtain ⟨p, -, -, done⟩ := assemble_eq countable
  rw [done] at failed
  split at failed
  · cases failed
  · exact (Except.error.inj failed).symm

/-- A program comes out if no line fails. -/
theorem assembles_iff (countable : Countable d (lines.map SourceLine.reading)) :
    (∃ p, assemble d lines = .ok p) ↔
      ∀ l ∈ lines, l.failure? d (addressOf d (lines.map SourceLine.reading)) = none := by
  obtain ⟨p, -, -, done⟩ := assemble_eq countable
  rw [← reports_eq_nil_iff, done]
  constructor
  · rintro ⟨other, assembled⟩
    split at assembled
    · assumption
    · cases assembled
  · intro none
    exact ⟨p, if_pos none⟩

/-- The lines of the reports: first those that cannot be read, then those that cannot be
encoded, which together are the lines that fail. -/
theorem lines_reported (d : Descriptor) (σ : String → Nat) (lines : List SourceLine) :
    (unreadable lines ++ unencodable d σ lines).map Diagnostic.line =
        lines.filter (fun l => l.reading.error?.isSome) ++
          lines.filter (fun l => (l.encodingFailure? d σ).isSome) ∧
      ((unreadable lines ++ unencodable d σ lines).map Diagnostic.line).Perm
        (lines.filter fun l => (l.failure? d σ).isSome) := by
  have split : (unreadable lines ++ unencodable d σ lines).map Diagnostic.line =
      lines.filter (fun l => l.reading.error?.isSome) ++
        lines.filter (fun l => (l.encodingFailure? d σ).isSome) := by
    rw [List.map_append, unencodable_eq, unreadable, lines_of_reports, lines_of_reports]
  refine ⟨split, ?_⟩
  rw [split]
  have unread : lines.filter (fun l => l.reading.error?.isSome) =
      (lines.filter fun l => (l.failure? d σ).isSome).filter fun l => l.reading.error?.isSome := by
    rw [List.filter_filter]
    apply List.filter_congr
    intro l _
    cases he : l.reading.error? <;> simp [SourceLine.failure?, he]
  have read : lines.filter (fun l => (l.encodingFailure? d σ).isSome) =
      (lines.filter fun l => (l.failure? d σ).isSome).filter
        fun l => !l.reading.error?.isSome := by
    rw [List.filter_filter]
    apply List.filter_congr
    intro l _
    cases hf : l.encodingFailure? d σ with
    | some e => simp [failure?_of_encodingFailure? hf]
    | none => cases he : l.reading.error? <;> simp [SourceLine.failure?, he, hf]
  rw [unread, read]
  exact List.filter_append_perm _ _

/-- What cannot be read counts as an instruction. -/
theorem wordCount_eq_add (source : List Reading) :
    wordCount source = (instructions source).length + (source.filterMap Reading.error?).length := by
  induction source with
  | nil => rfl
  | cons r rest ih =>
    have more : wordCount (r :: rest) = wordCount rest + if r.takesWord then 1 else 0 :=
      List.countP_cons
    rw [more, ih, instructions, instructions]
    rcases r with e | _ | name | i <;>
      simp [List.filterMap_cons, Reading.takesWord, Reading.instruction?, Reading.error?]
    · omega
    · omega

/-- A name that is bound by a label stands for the instructions in front of its line and the
lines there that cannot be read. -/
theorem addressOf_label {source before after : List Reading} {r : Reading} {name : String}
    (split : source = before ++ r :: after) (binds : r.label? = some name)
    (first : name ∉ labelNames before) (unknown : d.symbols.get? name = none) :
    addressOf d source name =
      (instructions before).length + (before.filterMap Reading.error?).length := by
  have bound : name ∈ labelNames source :=
    mem_labelNames.2 ⟨r, by simp [split], binds⟩
  have address : addressOf d source name = wordCount before := by
    rw [addressOf, symbolOf, unknown]
    simp only [if_pos bound]
    rw [split, labelAddress_append_cons first binds]
    rfl
  rw [address, wordCount_eq_add]

/-- With its address written out no instruction counts anything in a field. -/
theorem fieldBits_not_overflow {i : Instruction} {f : Field} {width : Nat} {s : SymbolTable} {e : Error}
    (h : (i.resolved σ).fieldBits d f width s = .error e) : e.isOverflow = false := by
  rcases i with (v | name) | ⟨dest, comp, jump⟩ <;> cases f <;>
    simp only [Instruction.resolved, Instruction.fieldBits, Instruction.shape, Operand.resolve,
      codeOf] at h
  all_goals first | (split at h <;> cases h <;> rfl) | (cases h <;> rfl)

/-- A line is read unless its operand is missing or too large a literal. -/
theorem error_of_reading {code : List Char} {e : Error} (h : Statement.parse code = .error e) :
    e = .missingOperand ∨ ∃ digits, e = .literalTooLarge digits := by
  unfold Statement.parse at h
  split at h
  · cases h
  · cases h
  · unfold Instruction.parse at h
    split at h
    · rename_i operand _ _
      unfold Operand.parse at h
      split at h
      · exact .inl (Except.error.inj h).symm
      · split at h
        · cases h
        · split at h
          · cases h
          · exact .inr ⟨_, (Except.error.inj h).symm⟩
    · cases h

theorem Instruction.failure?_eq_some {i : Instruction} {e : Error} :
    i.failure? d σ = some e ↔ i.outcome d σ = .error e := by
  unfold failure?
  cases i.outcome d σ <;> simp

/-- A line fails because it cannot be read, or because its instruction cannot be encoded. -/
theorem failure?_eq_some {l : SourceLine} {e : Error} :
    l.failure? d σ = some e ↔ l.reading = .error e ∨
      ∃ i, l.reading = .ok (some (.instruction i)) ∧ i.outcome d σ = .error e := by
  unfold SourceLine.failure? SourceLine.encodingFailure?
  rcases l.reading with e' | _ | name | i
  · simp [Reading.error?]
  · simp [Reading.error?, Reading.instruction?]
  · simp [Reading.error?, Reading.instruction?]
  · simp [Reading.error?, Reading.instruction?, Instruction.failure?_eq_some]

end

end Assembly

end HackToolchain
