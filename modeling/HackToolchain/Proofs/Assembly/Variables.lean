import HackToolchain.Proofs.Assembly.TwoPass

/-!
# Variables of a program

* `Program.Means.isVariable_iff`: the variables are the names that operands use and nothing
  else binds;
* `Program.Means.variable_ne`: no other variable has the same address;
* `variable_lt`: a program that comes out has handed out no address beyond the last.
-/

namespace HackToolchain.Assembly

namespace SymbolTable

/-- Every variable has been given an address while one was left. -/
def Roomy (s : SymbolTable) : Prop :=
  ∀ name address, s.get? name = some ⟨.var, address⟩ → address < maxAddress

section

variable {s next : SymbolTable}

theorem Roomy.resolve {name : String} {address : Nat} (roomy : s.Roomy)
    (h : s.resolve name = .ok (address, next)) : next.Roomy := by
  by_cases bound : name ∈ s.names
  · obtain ⟨rfl, -⟩ := resolve_eq_ok h
    rwa [allocate, if_pos bound]
  · rw [resolve_of_fresh bound] at h
    split at h
    · rename_i room
      obtain ⟨-, rfl⟩ := Prod.mk.inj (Except.ok.inj h)
      intro other given found
      rw [get?_add] at found
      split at found
      · cases found
        exact room
      · exact roomy other given found
    · cases h

theorem Roomy.fieldBits {d : Descriptor} {i : Instruction} {f : Field} {width : Nat} {bits : Bits}
    (roomy : s.Roomy) (h : i.fieldBits d f width s = .ok (bits, next)) : next.Roomy := by
  rcases Instruction.table_of_fieldBits_ok h with rfl | ⟨name, address, -, resolved⟩
  · exact roomy
  · exact roomy.resolve resolved

theorem Roomy.encodeFields {d : Descriptor} {i : Instruction} (roomy : s.Roomy)
    (fields : List (Field × Nat)) (word : Bits) :
    (Instruction.encodeFields d i fields word s).2.Roomy := by
  induction fields generalizing word s with
  | nil => exact roomy
  | cons field rest ih =>
    obtain ⟨f, width⟩ := field
    simp only [Instruction.encodeFields]
    cases hb : i.fieldBits d f width s with
    | error e => exact roomy
    | ok r =>
      obtain ⟨bits, table⟩ := r
      have grown : table.Roomy := roomy.fieldBits hb
      dsimp only
      split
      · exact ih grown _
      · exact grown

theorem Roomy.encode {d : Descriptor} {i : Instruction} (roomy : s.Roomy) :
    (i.encode d s).2.Roomy := by
  unfold Instruction.encode
  split
  · exact roomy
  · exact roomy.encodeFields _ _

end

/-- The name stands for a variable. -/
def isVariable (s : SymbolTable) (name : String) : Bool :=
  (s.get? name).any fun symbol => symbol.kind = .var

theorem isVariable_of_get? {s : SymbolTable} {name : String} {address : Nat}
    (h : s.get? name = some ⟨.var, address⟩) : s.isVariable name = true := by
  simp [isVariable, h]

end SymbolTable

/-! ## Programs -/

section

variable {d : Descriptor} {lines : List SourceLine} {p : Program}

/-- The first pass knows no variables yet. -/
theorem Survey.Describes.roomy {s : Survey} (h : s.Describes d lines) : s.symbols.Roomy := by
  intro name address found
  have entry : (name, (⟨.var, address⟩ : Symbol)) ∈ s.symbols.entries :=
    Table.get?_eq_some_iff.1 found
  rw [h.entries, List.mem_append, mem_predefinedEntries, labelEntries, mem_tagged] at entry
  rcases entry with predefined | ⟨-, label⟩
  · obtain ⟨value, -, same⟩ := Option.map_eq_some_iff.1 predefined
    cases same
  · cases label

theorem Output.step_roomy {o : Output} (roomy : o.symbols.Roomy) (q : SourceLine × Instruction) :
    (o.step d q).symbols.Roomy := by
  have grown : (q.2.encode d o.symbols).2.Roomy := roomy.encode
  unfold Output.step
  split
  · rename_i encoded
    rwa [encoded] at grown
  · rename_i encoded
    rwa [encoded] at grown

theorem Output.fold_roomy (queue : List (SourceLine × Instruction)) {o : Output}
    (roomy : o.symbols.Roomy) : (queue.foldl (Output.step d) o).symbols.Roomy := by
  induction queue generalizing o with
  | nil => exact roomy
  | cons q rest ih => exact ih (Output.step_roomy roomy q)

/-- **A variable has one of the addresses that can be handed out.** -/
theorem variable_lt (h : assemble d lines = .ok p) : p.symbols.Roomy := by
  unfold assemble at h
  dsimp only at h
  split at h
  · obtain rfl := Except.ok.inj h
    rw [ofSurvey_eq]
    exact Output.fold_roomy _ (survey_describes d lines).roomy
  · cases h

namespace Program.Means

variable {source : List Reading}

/-- **The variables are the names that are used and that nothing else binds.** -/
theorem isVariable_iff (h : p.Means d source) {name : String} :
    p.symbols.isVariable name = true ↔
      name ∈ symbolsUsed (instructions source) ∧ name ∉ boundNames d source := by
  rw [SymbolTable.isVariable, h.get?_eq, symbolOf, boundNames, List.mem_append]
  cases known : d.symbols.get? name with
  | some address =>
    have member : name ∈ d.symbols.keys := Table.mem_keys_iff.2 ⟨address, known⟩
    simp [member]
  | none =>
    have unknown : name ∉ d.symbols.keys := Table.get?_eq_none_iff.1 known
    by_cases bound : name ∈ labelNames source
    · simp [bound]
    · by_cases used : name ∈ symbolsUsed (instructions source)
      · simp [unknown, bound, used]
      · simp [bound, used]

/-- No other variable has the address. -/
theorem variable_ne (h : p.Means d source) {name other : String} {address taken : Nat}
    (found : p.symbols.get? name = some ⟨.var, address⟩)
    (var : p.symbols.get? other = some ⟨.var, taken⟩) (apart : other ≠ name) :
    taken ≠ address := by
  obtain ⟨used, free⟩ := h.isVariable_iff.1 (SymbolTable.isVariable_of_get? found)
  obtain ⟨used', free'⟩ := h.isVariable_iff.1 (SymbolTable.isVariable_of_get? var)
  have ne := h.address?_ne free' used' free used apart
  rw [SymbolTable.address?, SymbolTable.address?, found, var] at ne
  exact fun same => ne (congrArg some same)

/-- The variables among names that operands use, each once and in the order of first use. -/
theorem newNames_eq (h : p.Means d source) {used : List String}
    (sub : used ⊆ symbolsUsed (instructions source)) :
    newNames (boundNames d source) used = (used.filter p.symbols.isVariable).eraseDups := by
  rw [newNames]
  congr 1
  apply List.filter_congr
  intro name hname
  rw [Bool.eq_iff_iff, h.isVariable_iff, decide_eq_true_iff]
  exact ⟨fun free => ⟨sub hname, free⟩, And.right⟩

end Program.Means

end

end HackToolchain.Assembly
