import Mathlib.Data.List.Induction
import HackToolchain.Descriptor.Hack
import HackToolchain.Proofs.Assembly.Resolution

/-!
# Two passes give the meaning

* `survey_describes`: the first pass has found the labels, counted the words and queued the
  instructions of the lines so far, whatever fails;
* `secondPass_binds`: if nothing fails, the second pass adds the variables in the order of their
  first use, and every word is that of its instruction with the address written out;
* `assemble_meaning`: a program that comes out is the one that the source means.
-/

namespace HackToolchain

/-- An outcome that shows something is no error. -/
theorem eq_ok_of_shown {ε α β : Type} {x : Except ε α} {f : α → β} {b : β}
    (h : x.toOption.map f = some b) : ∃ a, x = .ok a ∧ f a = b := by
  cases x with
  | error e => cases h
  | ok a => exact ⟨a, rfl, Option.some.inj h⟩

namespace Assembly

/-! ## The first pass -/

/-- The instructions of lines, each with its line. -/
def queued (lines : List SourceLine) : List (SourceLine × Instruction) :=
  lines.filterMap fun l => l.reading.instruction?.map (l, ·)

/-- The reports of lines that cannot be read. -/
def unreadable (lines : List SourceLine) : List (Diagnostic Error) :=
  lines.filterMap fun l => l.reading.error?.map fun e => ⟨l, e⟩

theorem queued_instructions (lines : List SourceLine) :
    (queued lines).map Prod.snd = instructions (lines.map SourceLine.reading) := by
  rw [queued, instructions, List.map_filterMap, List.filterMap_map]
  congr 1
  funext l
  simp [Function.comp_def]

structure Survey.Describes (d : Descriptor) (lines : List SourceLine) (s : Survey) : Prop where
  counter : s.counter = wordCount (lines.map SourceLine.reading)
  entries : s.symbols.entries =
    predefinedEntries d ++ labelEntries d.symbols.keys (lines.map SourceLine.reading)
  next : s.symbols.nextVariable = d.varBase
  queue : s.queue.toList = queued lines
  errors : s.errors.toList = unreadable lines

theorem predefinedEntries_names (d : Descriptor) :
    (predefinedEntries d).map Prod.fst = d.symbols.keys := by
  rw [predefinedEntries, List.map_map]
  rfl

theorem labelEntries_names (known : List String) (source : List Reading) :
    (labelEntries known source).map Prod.fst = newNames known (labelNames source) := by
  rw [labelEntries, List.map_map]
  exact List.map_id' _

theorem variableEntries_names (base : Nat) (known used : List String) :
    (variableEntries base known used).map Prod.fst = newNames known used := by
  rw [variableEntries, List.map_map]
  exact List.map_id' _

/-- After the first pass the names that are bound are those that no variable can take. -/
theorem Survey.Describes.mem_names {d : Descriptor} {lines : List SourceLine} {s : Survey}
    (h : s.Describes d lines) (name : String) :
    name ∈ s.symbols.names ↔ name ∈ boundNames d (lines.map SourceLine.reading) := by
  rw [SymbolTable.names_eq, h.entries, List.map_append, predefinedEntries_names,
    labelEntries_names, boundNames, List.mem_append, List.mem_append, mem_newNames]
  constructor
  · rintro (hk | ⟨hl, -⟩)
    · exact .inl hk
    · exact .inr hl
  · rintro (hk | hl)
    · exact .inl hk
    · by_cases hk : name ∈ d.symbols.keys
      · exact .inl hk
      · exact .inr ⟨hl, hk⟩

theorem survey_start (d : Descriptor) : (Survey.start d).Describes d [] where
  counter := rfl
  entries := by
    rw [List.map_nil, labelEntries]
    exact (List.append_nil _).symm
  next := rfl
  queue := rfl
  errors := rfl

section

variable (s : Survey) (l : SourceLine)

theorem survey_step_eq :
    s.step l =
      match l.reading with
      | .ok none => s
      | .ok (some (.label name)) => { s with symbols := (s.symbols.bindLabel name s.counter).2 }
      | .ok (some (.instruction i)) =>
        { s with queue := s.queue.push (l, i), counter := s.counter + 1 }
      | .error e => { s with errors := s.errors.push ⟨l, e⟩, counter := s.counter + 1 } := rfl

theorem survey_step_counter :
    (s.step l).counter = s.counter + if l.reading.takesWord then 1 else 0 := by
  rw [survey_step_eq]
  rcases l.reading with e | _ | name | i <;> rfl

theorem survey_step_symbols :
    (s.step l).symbols =
      match l.reading.label? with
      | none => s.symbols
      | some name => (s.symbols.bindLabel name s.counter).2 := by
  rw [survey_step_eq]
  rcases l.reading with e | _ | name | i <;> rfl

theorem survey_step_queue :
    (s.step l).queue.toList =
      s.queue.toList ++ (l.reading.instruction?.map (l, ·)).toList := by
  rw [survey_step_eq]
  rcases l.reading with e | _ | name | i <;> simp [Reading.instruction?]

theorem survey_step_errors :
    (s.step l).errors.toList =
      s.errors.toList ++ (l.reading.error?.map fun e => (⟨l, e⟩ : Diagnostic Error)).toList := by
  rw [survey_step_eq]
  rcases l.reading with e | _ | name | i <;> simp [Reading.error?]

end

/-- One more line. -/
theorem survey_step {d : Descriptor} {lines : List SourceLine} {s : Survey}
    (h : s.Describes d lines) (l : SourceLine) : (s.step l).Describes d (lines ++ [l]) := by
  have more : (lines ++ [l]).map SourceLine.reading =
      lines.map SourceLine.reading ++ [l.reading] := by simp
  constructor
  · rw [survey_step_counter, more, wordCount, List.countP_append, List.countP_singleton, h.counter,
      wordCount]
  · rw [survey_step_symbols, more, labelEntries_concat]
    cases l.reading.label? with
    | none => exact h.entries
    | some name =>
      have known : name ∈ s.symbols.names ↔
          name ∈ d.symbols.keys ∨ name ∈ labelNames (lines.map SourceLine.reading) := by
        rw [h.mem_names, boundNames, List.mem_append]
      simp only [SymbolTable.bindLabel_eq]
      by_cases hk : name ∈ s.symbols.names
      · rw [if_pos hk, if_pos (known.1 hk), h.entries]
      · rw [if_neg hk, if_neg (mt known.2 hk), SymbolTable.entries_add hk, h.entries, h.counter,
          List.append_assoc]
  · rw [survey_step_symbols]
    cases l.reading.label? with
    | none => exact h.next
    | some name =>
      simp only [SymbolTable.bindLabel_eq]
      split
      · exact h.next
      · exact h.next
  · rw [survey_step_queue, h.queue, queued, queued, filterMap_concat]
  · rw [survey_step_errors, h.errors, unreadable, unreadable, filterMap_concat]

theorem survey_describes (d : Descriptor) (lines : List SourceLine) :
    (Survey.ofLines d lines).Describes d lines := by
  induction lines using List.reverseRecOn with
  | nil => exact survey_start d
  | append_singleton lines l ih =>
    rw [Survey.ofLines, List.foldl_append]
    exact survey_step ih l

/-! ## The second pass -/

namespace SymbolTable

/-- Every binding of the table is the address under `σ`. -/
def Agrees (s : SymbolTable) (σ : String → Nat) : Prop :=
  ∀ name address, s.address? name = some address → σ name = address

theorem Agrees.of_allocate {s : SymbolTable} {σ : String → Nat} {name : Option String}
    (h : (s.allocate name).Agrees σ) : s.Agrees σ :=
  fun other address bound => h other address (address?_allocate bound name)

theorem Agrees.boundIn {s : SymbolTable} {σ : String → Nat} {i : Instruction}
    (h : (s.allocate i.symbol?).Agrees σ) : i.BoundIn (s.allocate i.symbol?) σ := by
  intro name hname
  have there : name ∈ (s.allocate i.symbol?).names := by
    rw [hname, allocate]
    split
    · assumption
    · exact mem_names.2 ⟨_, get?_add_self _ _⟩
  obtain ⟨symbol, hs⟩ := mem_names.1 there
  have address : (s.allocate i.symbol?).address? name = some symbol.address := by
    rw [address?, hs, Option.map_some]
  rw [address, h name _ address]

/-- The table with variables behind its entries, one for each name that is used first. -/
structure Extended (s : SymbolTable) (used : List String) (next : SymbolTable) : Prop where
  entries : next.entries = s.entries ++ variableEntries s.nextVariable s.names used
  counter : next.nextVariable = s.nextVariable + (newNames s.names used).length

theorem Extended.refl (s : SymbolTable) : s.Extended [] s where
  entries := (List.append_nil _).symm
  counter := rfl

theorem Extended.mem_names {s next : SymbolTable} {used : List String} (h : s.Extended used next)
    (name : String) : name ∈ next.names ↔ name ∈ s.names ∨ name ∈ used := by
  rw [names_eq, h.entries, List.map_append, variableEntries_names, ← s.names_eq, List.mem_append,
    mem_newNames]
  constructor
  · rintro (hs | ⟨hu, -⟩)
    · exact .inl hs
    · exact .inr hu
  · rintro (hs | hu)
    · exact .inl hs
    · by_cases hs : name ∈ s.names
      · exact .inl hs
      · exact .inr ⟨hu, hs⟩

/-- One more use. -/
theorem Extended.allocate {s next : SymbolTable} {used : List String} (h : s.Extended used next)
    (name : Option String) : s.Extended (used ++ name.toList) (next.allocate name) := by
  cases name with
  | none => simpa [SymbolTable.allocate] using h
  | some name =>
    simp only [SymbolTable.allocate, Option.toList_some]
    by_cases hn : name ∈ next.names
    · constructor
      · rw [if_pos hn, variableEntries_concat, if_pos ((h.mem_names name).1 hn), h.entries]
      · rw [if_pos hn, newNames_concat, if_pos ((h.mem_names name).1 hn), h.counter]
    · constructor
      · rw [if_neg hn, variableEntries_concat, if_neg (mt (h.mem_names name).2 hn),
          entries_add hn, h.entries, h.counter, List.append_assoc]
      · rw [if_neg hn, newNames_concat, if_neg (mt (h.mem_names name).2 hn), List.length_append,
          SymbolTable.add, h.counter]
        rfl

end SymbolTable

/-- An instruction that is encoded has bound the name that is looked up for it, and gives the same word
when the names stand for their addresses. -/
def Instruction.Binds (d : Descriptor) (used : Instruction → Option String) : Prop :=
  ∀ (i : Instruction) (s next : SymbolTable) (w : Bits), i.encode d s = (.ok w, next) →
    next = s.allocate (used i) ∧
      ∀ σ t, next.Agrees σ → ((i.resolved σ).encode d t).1 = .ok w

/-- **The second pass, if nothing fails.** -/
theorem secondPass_binds {d : Descriptor} {used : Instruction → Option String}
    (binds : Instruction.Binds d used) (s : SymbolTable) (errors : Array (Diagnostic Error))
    (queue : List (SourceLine × Instruction))
    (clean : (queue.foldl (Output.step d) ⟨s, #[], errors⟩).errors = #[]) :
    let o := queue.foldl (Output.step d) ⟨s, #[], errors⟩
    errors = #[] ∧ s.Extended ((queue.map Prod.snd).filterMap used) o.symbols ∧
      ∀ σ t, o.symbols.Agrees σ →
        (queue.map Prod.snd).map (fun i => ((i.resolved σ).encode d t).1) =
          o.words.toList.map .ok := by
  induction queue using List.reverseRecOn with
  | nil => exact ⟨clean, .refl s, fun _ _ _ => rfl⟩
  | append_singleton queue q ih =>
    rw [List.foldl_append, List.foldl_cons, List.foldl_nil] at clean ⊢
    rw [List.map_append, List.map_singleton, filterMap_concat]
    generalize queue.foldl (Output.step d) ⟨s, #[], errors⟩ = o at clean ih ⊢
    unfold Output.step at clean ⊢
    cases encoded : q.2.encode d o.symbols with
    | mk result next =>
      cases result with
      | error e => simp [encoded] at clean
      | ok w =>
        simp only [encoded] at clean ⊢
        obtain ⟨none, table, words⟩ := ih clean
        obtain ⟨rfl, word⟩ := binds _ _ _ _ encoded
        refine ⟨none, table.allocate _, fun σ t agrees => ?_⟩
        rw [List.map_append, words σ t agrees.of_allocate]
        simp [word σ t agrees]

/-- If addresses have a field for their operand, all names in instructions are looked up. -/
theorem Instruction.binds_symbol? {d : Descriptor}
    (value : ∀ layout, d.layout? .address = some layout → Field.value ∈ layout.fields.map Prod.fst) :
    Instruction.Binds d Instruction.symbol? := by
  intro i s next w encoded
  obtain ⟨rfl, word⟩ := encode_ok value encoded
  exact ⟨rfl, fun σ t agrees => word σ t agrees.boundIn⟩

/-! ## Programs -/

/-- The program is what the source says: its words and its table are those of the meaning. -/
structure Program.Means (d : Descriptor) (source : List Reading) (p : Program) : Prop where
  readable : ∀ r ∈ source, r.error? = none
  words : ∀ t,
    (instructions source).map (fun i => ((i.resolved (addressOf d source)).encode d t).1) =
      p.words.map .ok
  entries : p.symbols.entries = symbolEntries d source

/-- What comes of an instruction stands behind what comes of those before it. -/
theorem word_of_instruction {source : List Reading} {words : List Bits}
    {result : Instruction → Except Error Bits}
    (h : (instructions source).map result = words.map .ok) {before after : List Reading} {r : Reading}
    {i : Instruction} (split : source = before ++ r :: after) (holds : r.instruction? = some i) :
    ∃ w, words[(instructions before).length]? = some w ∧ result i = .ok w := by
  have here : (instructions source)[(instructions before).length]? = some i := by
    rw [split, instructions, List.filterMap_append, List.filterMap_cons_some holds]
    simp [instructions]
  have word := congrArg (·[(instructions before).length]?) h
  simp only [List.getElem?_map, here, Option.map_some] at word
  obtain ⟨w, there, same⟩ := Option.map_eq_some_iff.1 word.symm
  exact ⟨w, there, same.symm⟩

theorem SymbolTable.get?_eq_symbolOf {d : Descriptor} {source : List Reading} {s : SymbolTable}
    (h : s.entries = symbolEntries d source) (name : String) :
    s.get? name = symbolOf d source name := by
  apply Option.ext
  intro symbol
  rw [← mem_symbolEntries, ← h]
  exact Table.get?_eq_some_iff

theorem ofSurvey_eq (d : Descriptor) (s : Survey) :
    Output.ofSurvey d s = s.queue.toList.foldl (Output.step d) ⟨s.symbols, #[], s.errors⟩ :=
  (Array.foldl_toList _).symm

/-- **A program that comes out** has its labels from the first pass and its variables and words from
the second. -/
theorem assembled_of_binds {d : Descriptor} {used : Instruction → Option String}
    (binds : Instruction.Binds d used) {lines : List SourceLine} {p : Program}
    (h : assemble d lines = .ok p) :
    let source := lines.map SourceLine.reading
    (∀ r ∈ source, r.error? = none) ∧
      p.symbols.entries = predefinedEntries d ++ labelEntries d.symbols.keys source ++
        variableEntries d.varBase (boundNames d source) ((instructions source).filterMap used) ∧
      ∀ σ t, p.symbols.Agrees σ →
        (instructions source).map (fun i => ((i.resolved σ).encode d t).1) = p.words.map .ok := by
  intro source
  have survey := survey_describes d lines
  have output := secondPass_binds binds (Survey.ofLines d lines).symbols
    (Survey.ofLines d lines).errors (Survey.ofLines d lines).queue.toList
  rw [← ofSurvey_eq, survey.queue, queued_instructions] at output
  unfold assemble at h
  generalize Output.ofSurvey d (Survey.ofLines d lines) = o at h output
  dsimp only at h
  split at h
  · rename_i empty
    obtain ⟨none, table, words⟩ := output (Array.isEmpty_iff.1 empty)
    obtain rfl := Except.ok.inj h
    refine ⟨?_, ?_, words⟩
    · intro r hr
      obtain ⟨l, hl, rfl⟩ := List.mem_map.1 hr
      have clean : unreadable lines = [] := by rw [← survey.errors, none]
      simpa using List.filterMap_eq_nil_iff.1 clean l hl
    · rw [table.entries, survey.entries, survey.next, variableEntries, variableEntries,
        newNames_congr survey.mem_names, variableAddress_congr survey.mem_names]
  · cases h

/-- **A program that comes out is the one that the source means.** -/
theorem means_of_assemble {d : Descriptor} {lines : List SourceLine} {p : Program}
    (value : ∀ layout, d.layout? .address = some layout → Field.value ∈ layout.fields.map Prod.fst)
    (h : assemble d lines = .ok p) : p.Means d (lines.map SourceLine.reading) := by
  obtain ⟨readable, entries, words⟩ := assembled_of_binds (Instruction.binds_symbol? value) h
  refine ⟨readable, fun t => words _ t ?_, entries⟩
  intro name address bound
  rw [SymbolTable.address?, SymbolTable.get?_eq_symbolOf entries] at bound
  rw [addressOf, bound, Option.getD_some]

namespace Program.Means

variable {d : Descriptor} {source : List Reading} {p : Program}

theorem get?_eq (h : p.Means d source) (name : String) :
    p.symbols.get? name = symbolOf d source name :=
  SymbolTable.get?_eq_symbolOf h.entries name

theorem length_words (h : p.Means d source) : p.words.length = (instructions source).length := by
  simpa using (congrArg List.length (h.words (.ofDescriptor d))).symm

/-- Lines that can be read take a word each when they hold an instruction. -/
theorem wordCount_eq (h : p.Means d source) {part : List Reading} (sub : part ⊆ source) :
    wordCount part = (instructions part).length := by
  rw [wordCount, instructions, List.length_filterMap_eq_countP]
  apply List.countP_congr
  intro r hr
  have clean := h.readable r (sub hr)
  rcases r with e | _ | name | i
  · cases clean
  · simp [Reading.takesWord, Reading.instruction?]
  · simp [Reading.takesWord, Reading.instruction?]
  · simp [Reading.takesWord, Reading.instruction?]

/-- The word of an instruction stands behind those of the lines before it. -/
theorem word_at (h : p.Means d source) {before after : List Reading} {r : Reading}
    {i : Instruction} (split : source = before ++ r :: after) (holds : r.instruction? = some i) :
    ∃ w, p.words[wordCount before]? = some w ∧
      ∀ t, ((i.resolved (addressOf d source)).encode d t).1 = .ok w := by
  have words := fun t => word_of_instruction (h.words t) split holds
  rw [h.wordCount_eq (by simp [split])]
  obtain ⟨w, there, -⟩ := words (.ofDescriptor d)
  refine ⟨w, there, fun t => ?_⟩
  obtain ⟨w', there', word⟩ := words t
  obtain rfl : w = w' := Option.some.inj (there.symm.trans there')
  exact word

theorem addressOf_eq (h : p.Means d source) {name : String} {address : Nat}
    (bound : p.symbols.address? name = some address) : addressOf d source name = address := by
  rw [addressOf, ← h.get?_eq, ← SymbolTable.address?, bound]
  rfl

/-- Every name that an operand uses has an address. -/
theorem address?_of_used (h : p.Means d source) {i : Instruction} {name : String}
    (used : i ∈ instructions source) (uses : i.symbol? = some name) :
    ∃ address, p.symbols.address? name = some address := by
  have there : name ∈ symbolsUsed (instructions source) := List.mem_filterMap.2 ⟨i, used, uses⟩
  rw [SymbolTable.address?, h.get?_eq, symbolOf]
  cases d.symbols.get? name with
  | some address => exact ⟨address, rfl⟩
  | none =>
    simp only [if_pos there]
    split <;> exact ⟨_, rfl⟩

theorem get?_predefined (h : p.Means d source) {name : String} {address : Nat}
    (known : d.symbols.get? name = some address) :
    p.symbols.get? name = some ⟨.predefined, address⟩ := by
  rw [h.get?_eq, symbolOf, known]

/-- A label has the number of words in front of the first line that binds it. -/
theorem get?_label (h : p.Means d source) {before after : List Reading} {r : Reading}
    {name : String} (split : source = before ++ r :: after) (binds : r.label? = some name)
    (first : name ∉ labelNames before) (unknown : d.symbols.get? name = none) :
    p.symbols.get? name = some ⟨.label, wordCount before⟩ := by
  have bound : name ∈ labelNames source :=
    mem_labelNames.2 ⟨r, by simp [split], binds⟩
  rw [h.get?_eq, symbolOf, unknown]
  simp only [if_pos bound]
  rw [split, labelAddress_append_cons first binds]

theorem get?_used (h : p.Means d source) {name : String} (free : name ∉ boundNames d source)
    (used : name ∈ symbolsUsed (instructions source)) :
    p.symbols.get? name = some ⟨.var, variableAddress d.varBase (boundNames d source)
      (symbolsUsed (instructions source)) name⟩ := by
  obtain ⟨unknown, unbound⟩ := not_or.1 (mt List.mem_append.2 free)
  rw [h.get?_eq, symbolOf, Table.get?_eq_none_iff.2 unknown]
  simp only [if_neg unbound, if_pos used]

/-- Two variables never share a cell. -/
theorem address?_ne (h : p.Means d source) {a b : String} (free : a ∉ boundNames d source)
    (used : a ∈ symbolsUsed (instructions source)) (free' : b ∉ boundNames d source)
    (used' : b ∈ symbolsUsed (instructions source)) (apart : a ≠ b) :
    p.symbols.address? a ≠ p.symbols.address? b := by
  rw [SymbolTable.address?, SymbolTable.address?, h.get?_used free used, h.get?_used free' used']
  exact fun same => variableAddress_ne free free' used apart (Option.some.inj same)

/-- A variable has the number of other variables that are used in front of its first use. -/
theorem get?_variable (h : p.Means d source) {before after : List Instruction} {i : Instruction}
    {name : String} (split : instructions source = before ++ i :: after)
    (uses : i.symbol? = some name) (first : name ∉ symbolsUsed before)
    (free : name ∉ boundNames d source) :
    p.symbols.get? name =
      some ⟨.var, d.varBase + (newNames (boundNames d source) (symbolsUsed before)).length⟩ := by
  have used : symbolsUsed (instructions source) =
      symbolsUsed before ++ name :: symbolsUsed after := by
    rw [split, symbolsUsed, List.filterMap_append, List.filterMap_cons, uses]
    rfl
  have place : (symbolsUsed (instructions source)).takeWhile (· ≠ name) = symbolsUsed before := by
    rw [used]
    apply takeWhile_append_cons_of_stop
    · intro other hother
      simpa using fun e : other = name => first (e ▸ hother)
    · simp
  rw [h.get?_used free (by simp [used]), variableAddress, place]

end Program.Means

/-- **Two passes give the declarative meaning of a source.** There is a word for each line
that is neither blank nor a label. A predefined name keeps its address; a label has the
number of words in front of its first line; the variables follow each other in the order of
their first use. Each word is the encoding of its instruction with the address as a literal,
whatever the table, and the symbols are listed in that order. -/
theorem assemble_meaning {d : Descriptor} {lines : List SourceLine} {p : Program}
    (value : ∃ layout, d.layout? .address = some layout ∧
      Field.value ∈ layout.fields.map Prod.fst)
    (h : assemble d lines = .ok p) :
    let source := lines.map SourceLine.reading
    (∀ r ∈ source, r.error? = none) ∧
    p.words.length = wordCount source ∧
    (∀ name address, d.symbols.get? name = some address →
      p.symbols.get? name = some ⟨.predefined, address⟩) ∧
    (∀ before r after name, source = before ++ r :: after → r.label? = some name →
      name ∉ labelNames before → d.symbols.get? name = none →
      p.symbols.get? name = some ⟨.label, wordCount before⟩) ∧
    (∀ before i after name, instructions source = before ++ i :: after →
      i.symbol? = some name → name ∉ symbolsUsed before → name ∉ boundNames d source →
      p.symbols.get? name = some ⟨.var,
        d.varBase + (newNames (boundNames d source) (symbolsUsed before)).length⟩) ∧
    (∀ t, (instructions source).map (fun i => ((i.resolved (addressOf d source)).encode d t).1) =
      p.words.map .ok) ∧
    p.symbols.entries = symbolEntries d source := by
  have means : p.Means d (lines.map SourceLine.reading) := by
    obtain ⟨layout, there, field⟩ := value
    apply means_of_assemble _ h
    intro other hother
    rw [there, Option.some.injEq] at hother
    exact hother ▸ field
  refine ⟨means.readable, ?_, fun _ _ => means.get?_predefined, fun _ _ _ _ => means.get?_label,
    fun _ _ _ _ => means.get?_variable, means.words, means.entries⟩
  rw [means.length_words, means.wordCount_eq (List.Subset.refl _)]

/-- A label that is used before and after its line and bound twice, a label line with a
predefined name, and a variable that comes first in spite of a later label. -/
def mixedLines : List SourceLine :=
  SourceLine.ofRaws "mixed.asm"
    ["@end", "0;JMP // leave", "", "(loop)", "@i", "M=M+1", "(SP)", "@sum", "@i", "(end)",
     "(loop)", "@loop", "@SP"]

theorem assemble_meaning_mixed :
    ∃ p, assemble hack mixedLines = .ok p ∧ p.words.length = 8 ∧
      p.symbols.get? "SP" = some ⟨.predefined, 0⟩ ∧ p.symbols.get? "loop" = some ⟨.label, 2⟩ ∧
      p.symbols.get? "end" = some ⟨.label, 6⟩ ∧ p.symbols.get? "sum" = some ⟨.var, 17⟩ := by
  have done : (assemble hack mixedLines).toOption.isSome = true := by decide +kernel
  cases h : assemble hack mixedLines with
  | error e =>
    rw [h] at done
    cases done
  | ok p =>
    obtain ⟨-, count, predefined, label, var, -⟩ :=
      assemble_meaning ⟨_, rfl, by decide⟩ h
    refine ⟨p, rfl, count.trans (by decide +kernel), predefined "SP" 0 (by decide +kernel), ?_, ?_, ?_⟩
    · exact label ((mixedLines.take 3).map SourceLine.reading) (.ok (some (.label "loop")))
        ((mixedLines.drop 4).map SourceLine.reading) "loop" (by decide +kernel) rfl
        (by decide +kernel) (by decide +kernel)
    · exact label ((mixedLines.take 9).map SourceLine.reading) (.ok (some (.label "end")))
        ((mixedLines.drop 10).map SourceLine.reading) "end" (by decide +kernel) rfl
        (by decide +kernel) (by decide +kernel)
    · have first := var ((instructions (mixedLines.map SourceLine.reading)).take 4)
        (.address (.symbol "sum")) ((instructions (mixedLines.map SourceLine.reading)).drop 5)
        "sum" (by decide +kernel) rfl (by decide +kernel) (by decide +kernel)
      exact first.trans (by decide +kernel)

end Assembly

end HackToolchain
