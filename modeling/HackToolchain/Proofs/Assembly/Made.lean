import HackToolchain.Proofs.Assembly.Reports

/-!
# Programs under any descriptor

A descriptor need not have operands in its addresses. Then no name is looked up, and none is made a
variable.

* `Instruction.binds_operandName?`: an encoding that succeeds has bound the name that it looks up;
* `made_of_assemble`: so a program that comes out has the table of its source, and one word for each
  instruction in order;
* `Program.MadeOf.encoded`: every word of it was encoded;
* `Program.MadeOf.label_at`: the name of a label line has the address of its place.
-/

namespace HackToolchain

/-- An operand that is reached has a field. -/
theorem Descriptor.value_of_reachesOperand {d : Descriptor} {width : Nat}
    {fields : List (Field × Nat)} (h : d.reachesOperand width fields = true) :
    Field.value ∈ fields.map Prod.fst := by
  fun_induction Descriptor.reachesOperand d width fields with
  | case1 => exact List.mem_cons_self
  | case2 width size rest opcode known ih =>
    rw [Bool.and_eq_true] at h
    exact List.mem_cons_of_mem _ (ih h.2)
  | case3 => cases h
  | case4 => cases h

theorem Descriptor.value_of_usesOperands {d : Descriptor} (uses : d.usesOperands = true)
    (layout : Layout) (there : d.layout? .address = some layout) :
    Field.value ∈ layout.fields.map Prod.fst := by
  rw [usesOperands, there] at uses
  exact value_of_reachesOperand uses

namespace Assembly

section

variable {d : Descriptor}

/-- The outcome is that of any table. -/
theorem Instruction.outcome_eq (i : Instruction) (σ : String → Nat) (t : SymbolTable) :
    ((i.resolved σ).encode d t).1 = i.outcome d σ := by
  have again : (i.resolved σ).resolved σ = i.resolved σ := by
    rcases i with (v | name) | ⟨dest, comp, jump⟩ <;> rfl
  rw [outcome, encode_of_bound (boundIn_resolved σ σ i t) (t := .ofDescriptor d), again]

/-- **An encoding that succeeds has bound the name that it looks up.** -/
theorem Instruction.binds_operandName? : Instruction.Binds d (Instruction.operandName? d) := by
  intro i s next w encoded
  cases uses : d.usesOperands with
  | true =>
    have named : i.operandName? d = i.symbol? := if_pos uses
    rw [named]
    exact binds_symbol? (Descriptor.value_of_usesOperands uses) i s next w encoded
  | false =>
    -- No name is looked up, so the outcome is there under any addresses.
    have unnamed : i.operandName? d = none := by simp [operandName?, uses]
    have outcomes : ∀ σ, (i.outcome d σ, s) = (.ok w, next) := by
      intro σ
      rw [← encoded, encode_eq (σ := σ) (by simp [unnamed]), unnamed]
      rfl
    rw [unnamed]
    refine ⟨(Prod.mk.inj (outcomes fun _ => 0)).2.symm, fun σ t _ => ?_⟩
    rw [outcome_eq]
    exact (Prod.mk.inj (outcomes σ)).1

/-- What a program that comes out has of its source, under any descriptor. -/
structure Program.MadeOf (d : Descriptor) (source : List Reading) (p : Program) : Prop where
  readable : ∀ r ∈ source, r.error? = none
  entries : p.symbols.entries = tableEntries d source
  words : (instructions source).map (fun i => i.outcome d p.symbols.addresses) = p.words.map .ok

theorem made_of_assemble {lines : List SourceLine} {p : Program} (h : assemble d lines = .ok p) :
    p.MadeOf d (lines.map SourceLine.reading) := by
  obtain ⟨readable, entries, words⟩ := assembled_of_binds Instruction.binds_operandName? h
  exact ⟨readable, entries, words _ (.ofDescriptor d) (SymbolTable.agrees_addresses _)⟩

end

namespace Program.MadeOf

variable {d : Descriptor} {source : List Reading} {p : Program}

theorem length_words (h : p.MadeOf d source) : p.words.length = (instructions source).length := by
  simpa using (congrArg List.length h.words).symm

/-- Every word was encoded. -/
theorem encoded (h : p.MadeOf d source) {w : Bits} (there : w ∈ p.words) :
    ∃ (i : Instruction) (s next : SymbolTable), i.encode d s = (.ok w, next) := by
  have outcomes : Except.ok w ∈ (instructions source).map (·.outcome d p.symbols.addresses) := by
    rw [h.words]
    exact List.mem_map_of_mem there
  obtain ⟨i, -, outcome⟩ := List.mem_map.1 outcomes
  exact ⟨i.resolved p.symbols.addresses, .ofDescriptor d, _, Prod.ext outcome rfl⟩

theorem get?_eq_some (h : p.MadeOf d source) {name : String} {symbol : Symbol}
    (entry : (name, symbol) ∈ tableEntries d source) : p.symbols.get? name = some symbol := by
  rw [← h.entries] at entry
  exact Table.get?_eq_some_iff.2 entry

theorem get?_predefined (h : p.MadeOf d source) {name : String} (known : name ∈ d.symbols.keys) :
    ∃ address, p.symbols.get? name = some ⟨.predefined, address⟩ := by
  obtain ⟨address, there⟩ := Table.mem_keys_iff.1 known
  have entry : (name, ⟨.predefined, address⟩) ∈ predefinedEntries d :=
    mem_predefinedEntries.2 (by rw [there, Option.map_some])
  exact ⟨address, h.get?_eq_some (List.mem_append_left _ (List.mem_append_left _ entry))⟩

theorem get?_label (h : p.MadeOf d source) {name : String} (bound : name ∈ labelNames source)
    (unknown : name ∉ d.symbols.keys) :
    p.symbols.get? name = some ⟨.label, labelAddress source name⟩ := by
  have entry : (name, ⟨.label, labelAddress source name⟩) ∈ labelEntries d.symbols.keys source :=
    mem_tagged.2 ⟨mem_newNames.2 ⟨bound, unknown⟩, rfl⟩
  exact h.get?_eq_some (List.mem_append_left _ (List.mem_append_right _ entry))

/-- The name of a label line has an address: the number of instructions before the line, if the line
is the first of the name and the name is not predefined. -/
theorem label_at (h : p.MadeOf d source) {before after : List Reading} {r : Reading}
    {name : String} (split : source = before ++ r :: after) (binds : r.label? = some name) :
    ∃ address, p.symbols.address? name = some address ∧
      (name ∉ d.symbols.keys → name ∉ labelNames before →
        address = (instructions before).length) := by
  by_cases known : name ∈ d.symbols.keys
  · obtain ⟨address, found⟩ := h.get?_predefined known
    exact ⟨address, congrArg (Option.map _) found, fun unknown => absurd known unknown⟩
  · have bound : name ∈ labelNames source := mem_labelNames.2 ⟨r, by simp [split], binds⟩
    refine ⟨_, congrArg (Option.map _) (h.get?_label bound known), fun _ first => ?_⟩
    -- The first pass counts lines that cannot be read, but in a program there are none.
    have read : before.filterMap Reading.error? = [] :=
      List.filterMap_eq_nil_iff.2 fun r hr => h.readable r (by simp [split, hr])
    change labelAddress source name = _
    rw [split, labelAddress_append_cons first binds, wordCount_eq_add, read]
    rfl

end Program.MadeOf

end Assembly

end HackToolchain
