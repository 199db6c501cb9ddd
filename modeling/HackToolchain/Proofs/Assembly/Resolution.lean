import HackToolchain.Proofs.Assembly.Meaning

/-!
# Tables and encoding

A table only grows at its end, and what it binds stays bound:

* `bindLabel_eq`, `resolve_eq_ok`: what the two operations add;
* `encode_of_bound`: under a table that binds the operand, encoding changes no table and
  gives the word of the instruction with the address in place of the name;
* `encode_eq_ok`, `fault_of_encode`: when an encoding succeeds, and why it fails;
* `encode_ok`: an encoding that succeeds has bound the operand, and would give the same word
  again.
-/

namespace HackToolchain

namespace Assembly

namespace SymbolTable

def names (s : SymbolTable) : List String := s.table.keys

theorem mem_names {s : SymbolTable} {name : String} :
    name ∈ s.names ↔ ∃ symbol, s.get? name = some symbol :=
  Table.mem_keys_iff

theorem get?_eq_none {s : SymbolTable} {name : String} : s.get? name = none ↔ name ∉ s.names :=
  Table.get?_eq_none_iff

theorem names_eq (s : SymbolTable) : s.names = s.entries.map Prod.fst := rfl

/-- The table with one more entry in the last place. -/
def add (s : SymbolTable) (name : String) (symbol : Symbol) (next : Nat) : SymbolTable :=
  ⟨s.table.insert name symbol, next⟩

section

variable {s : SymbolTable} {name : String}

theorem entries_add (fresh : name ∉ s.names) (symbol : Symbol) (next : Nat) :
    (s.add name symbol next).entries = s.entries ++ [(name, symbol)] := by
  rw [add, entries, Table.insert_eq_push fresh]
  rfl

theorem names_add (fresh : name ∉ s.names) (symbol : Symbol) (next : Nat) :
    (s.add name symbol next).names = s.names ++ [name] :=
  (Table.keys_insert _ _ _).trans (if_neg fresh)

theorem get?_add (symbol : Symbol) (next : Nat) (other : String) :
    (s.add name symbol next).get? other = if other = name then some symbol else s.get? other :=
  Table.get?_insert _ _ _ _

theorem get?_add_self (symbol : Symbol) (next : Nat) :
    (s.add name symbol next).get? name = some symbol := by
  rw [get?_add, if_pos rfl]

theorem get?_add_of_bound (fresh : name ∉ s.names) {other : String} {symbol : Symbol}
    (bound : s.get? other = some symbol) (added : Symbol) (next : Nat) :
    (s.add name added next).get? other = some symbol := by
  have apart : other ≠ name := fun same => fresh (mem_names.2 ⟨symbol, same ▸ bound⟩)
  rw [get?_add, if_neg apart, bound]

theorem bindLabel_of_bound {symbol : Symbol} (bound : s.get? name = some symbol) (counter : Nat) :
    s.bindLabel name counter = (false, s) := by
  rw [bindLabel, bound]

theorem bindLabel_of_fresh (fresh : name ∉ s.names) (counter : Nat) :
    s.bindLabel name counter = (true, s.add name ⟨.label, counter⟩ s.nextVariable) := by
  rw [bindLabel, get?_eq_none.2 fresh]
  rfl

theorem bindLabel_eq (counter : Nat) :
    (s.bindLabel name counter).2 =
      if name ∈ s.names then s else s.add name ⟨.label, counter⟩ s.nextVariable := by
  by_cases bound : name ∈ s.names
  · obtain ⟨symbol, there⟩ := mem_names.1 bound
    rw [if_pos bound, bindLabel_of_bound there]
  · rw [if_neg bound, bindLabel_of_fresh bound]

/-- The table after an operand with or without a name was resolved. -/
def allocate (s : SymbolTable) : Option String → SymbolTable
  | none => s
  | some name =>
    if name ∈ s.names then s else s.add name ⟨.var, s.nextVariable⟩ (s.nextVariable + 1)

theorem resolve_of_bound {address : Nat} (h : s.address? name = some address) :
    s.resolve name = .ok (address, s) := by
  obtain ⟨symbol, hs, rfl⟩ := Option.map_eq_some_iff.1 h
  simp [resolve, hs]

theorem resolve_of_fresh (fresh : name ∉ s.names) :
    s.resolve name = if s.nextVariable < maxAddress
      then .ok (s.nextVariable, s.add name ⟨.var, s.nextVariable⟩ (s.nextVariable + 1))
      else .error .addressesExhausted := by
  rw [resolve, get?_eq_none.2 fresh]
  rfl

theorem resolve_eq_ok {address : Nat} {next : SymbolTable} (h : s.resolve name = .ok (address, next)) :
    next = s.allocate (some name) ∧ next.address? name = some address := by
  by_cases bound : name ∈ s.names
  · obtain ⟨symbol, there⟩ := mem_names.1 bound
    have found : s.address? name = some symbol.address := congrArg (Option.map _) there
    rw [resolve_of_bound found] at h
    obtain ⟨rfl, rfl⟩ := Prod.mk.inj (Except.ok.inj h)
    exact ⟨by rw [allocate, if_pos bound], found⟩
  · rw [resolve_of_fresh bound] at h
    split at h
    · obtain ⟨rfl, rfl⟩ := Prod.mk.inj (Except.ok.inj h)
      exact ⟨by rw [allocate, if_neg bound], congrArg (Option.map _) (get?_add_self _ _)⟩
    · cases h

/-- A binding outlives the allocation of other names. -/
theorem get?_allocate {symbol : Symbol} (h : s.get? name = some symbol) (other : Option String) :
    (s.allocate other).get? name = some symbol := by
  cases other with
  | none => exact h
  | some other =>
    by_cases bound : other ∈ s.names
    · rwa [allocate, if_pos bound]
    · rw [allocate, if_neg bound]
      exact get?_add_of_bound bound h _ _

theorem address?_allocate {address : Nat} (h : s.address? name = some address)
    (other : Option String) : (s.allocate other).address? name = some address := by
  obtain ⟨symbol, hs, rfl⟩ := Option.map_eq_some_iff.1 h
  simp [address?, get?_allocate hs other]

end

end SymbolTable

namespace Instruction

section

variable {d : Descriptor} {s t : SymbolTable} {i : Instruction} {σ : String → Nat}

/-- The table binds the name of the operand, if there is one, to its address under `σ`. -/
def BoundIn (s : SymbolTable) (σ : String → Nat) (i : Instruction) : Prop :=
  ∀ name, i.symbol? = some name → s.address? name = some (σ name)

theorem fieldBits_of_bound (h : i.BoundIn s σ) (f : Field) (width : Nat) :
    i.fieldBits d f width s =
      ((i.resolved σ).fieldBits d f width t).map fun r => (r.1, s) := by
  cases i with
  | compute dest comp jump =>
    cases f <;> simp only [resolved, fieldBits, shape, Except.map, codeOf]
    · cases d.opcode? .compute <;> rfl
    · cases d.comp.code? comp <;> rfl
    · cases d.dest.code? dest <;> rfl
    · cases d.jump.code? jump <;> rfl
  | address operand =>
    cases operand with
    | literal value =>
      cases f <;> simp only [resolved, fieldBits, shape, Except.map, Operand.resolve]
      cases d.opcode? .address <;> rfl
    | symbol name =>
      have bound := SymbolTable.resolve_of_bound (h name rfl)
      cases f <;> simp only [resolved, fieldBits, shape, Except.map, Operand.resolve, bound]
      cases d.opcode? .address <;> rfl

theorem boundIn_resolved (σ τ : String → Nat) (i : Instruction) (t : SymbolTable) :
    (i.resolved σ).BoundIn t τ := by
  intro name hname
  cases i with
  | compute => cases hname
  | address operand => cases operand <;> cases hname

theorem table_of_fieldBits (h : i.BoundIn s σ) {f : Field} {width : Nat} {r : Bits × SymbolTable}
    (hr : i.fieldBits d f width s = .ok r) : r.2 = s := by
  rw [fieldBits_of_bound h f width (t := s)] at hr
  cases hq : (i.resolved σ).fieldBits d f width s with
  | error e => rw [hq] at hr; cases hr
  | ok q => rw [hq] at hr; cases hr; rfl

theorem encodeFields_of_bound (h : i.BoundIn s σ) (fields : List (Field × Nat)) (word : Bits) :
    encodeFields d i fields word s = ((encodeFields d (i.resolved σ) fields word t).1, s) := by
  induction fields generalizing word with
  | nil => rfl
  | cons field rest ih =>
    obtain ⟨f, width⟩ := field
    simp only [encodeFields, fieldBits_of_bound h f width (t := t)]
    cases hr : (i.resolved σ).fieldBits d f width t with
    | error e => rfl
    | ok r =>
      obtain ⟨bits, u⟩ := r
      obtain rfl : u = t := table_of_fieldBits (boundIn_resolved σ σ i t) hr
      simp only [Except.map]
      split
      · exact ih _
      · rfl

/-- **Encoding under a table that binds the operand.** The table stays, and the word is that
of the instruction with its address written out, which no table has a part in. -/
theorem encode_of_bound (h : i.BoundIn s σ) :
    i.encode d s = (((i.resolved σ).encode d t).1, s) := by
  unfold encode
  rw [shape_resolved]
  cases d.layout? i.shape with
  | none => rfl
  | some layout => simp only [encodeFields_of_bound h layout.fields .empty (t := t)]

end

section

variable {d : Descriptor} {s next : SymbolTable} {w : Bits}

/-! ## The field of the operand -/

/-- Only the name of an operand can change the table. -/
theorem table_of_fieldBits_ok {i : Instruction} {f : Field} {width : Nat} {b : Bits}
    (h : i.fieldBits d f width s = .ok (b, next)) :
    next = s ∨ ∃ name address, i = .address (.symbol name) ∧ s.resolve name = .ok (address, next) := by
  cases hi : i.symbol? with
  | none =>
    have bound : i.BoundIn s fun _ => 0 := fun name hname => by rw [hi] at hname; cases hname
    exact .inl (table_of_fieldBits bound h)
  | some name =>
    obtain rfl := eq_of_symbol? hi
    cases f <;> simp only [fieldBits, shape, Operand.resolve] at h
    · cases ho : d.opcode? .address with
      | none => simp [ho] at h
      | some opcode =>
        rw [ho] at h
        exact .inl (Prod.mk.inj (Except.ok.inj h)).2.symm
    · cases hr : s.resolve name with
      | error e => simp [hr, Except.map] at h
      | ok r =>
        rw [hr] at h
        obtain ⟨address, table⟩ := r
        obtain ⟨-, rfl⟩ := Prod.mk.inj (Except.ok.inj h)
        exact .inr ⟨name, address, rfl, hr⟩
    all_goals cases h

/-- A name that is looked up is written as its address, and later fields find it bound. -/
theorem encodeFields_operand {name : String} {σ : String → Nat}
    (found : s.resolve name = .ok (σ name, s.allocate (some name))) (width : Nat)
    (rest : List (Field × Nat)) (word : Bits) (t : SymbolTable) :
    encodeFields d (.address (.symbol name)) ((.value, width) :: rest) word s =
      ((encodeFields d (.address (.literal (BitVec.ofNat 64 (σ name)))) ((.value, width) :: rest)
        word t).1, s.allocate (some name)) := by
  have bound : BoundIn (s.allocate (some name)) σ (.address (.symbol name)) := by
    intro other hother
    cases hother
    exact (SymbolTable.resolve_eq_ok found).2
  simp only [encodeFields, fieldBits, Operand.resolve, found, Except.map]
  split
  · rw [encodeFields_of_bound bound rest (t := t)]
    rfl
  · rfl

/-! ## Encodings that succeed -/

/-- A name is allocated when the field of the operand is reached. -/
theorem encodeFields_symbol_ok {name : String} {fields : List (Field × Nat)} {word : Bits}
    (value : Field.value ∈ fields.map Prod.fst)
    (h : encodeFields d (.address (.symbol name)) fields word s = (.ok w, next)) :
    next = s.allocate (some name) ∧
      ∀ (σ : String → Nat) t, next.address? name = some (σ name) →
        (encodeFields d (.address (.literal (BitVec.ofNat 64 (σ name)))) fields word t).1 = .ok w := by
  induction fields generalizing word with
  | nil => simp at value
  | cons field rest ih =>
    obtain ⟨f, width⟩ := field
    cases f with
    | comp => simp [encodeFields, fieldBits] at h
    | dest => simp [encodeFields, fieldBits] at h
    | jump => simp [encodeFields, fieldBits] at h
    | opcode =>
      have later : Field.value ∈ rest.map Prod.fst := by simpa using value
      cases ho : d.opcode? .address with
      | none => simp [encodeFields, fieldBits, shape, ho] at h
      | some opcode =>
        simp only [encodeFields, fieldBits, shape, ho] at h ⊢
        split at h
        · rename_i fits
          simpa only [if_pos fits] using ih later h
        · cases h
    | value =>
      cases hr : s.resolve name with
      | error e => simp [encodeFields, fieldBits, Operand.resolve, hr, Except.map] at h
      | ok r =>
        obtain ⟨address, table⟩ := r
        obtain ⟨rfl, found⟩ := SymbolTable.resolve_eq_ok hr
        have written : ∀ σ : String → Nat, σ name = address → ∀ t,
            ((encodeFields d (.address (.literal (BitVec.ofNat 64 (σ name))))
              ((.value, width) :: rest) word t).1, s.allocate (some name)) = (.ok w, next) := by
          rintro σ rfl t
          rw [← encodeFields_operand hr, h]
        obtain ⟨-, rfl⟩ := Prod.mk.inj (written (fun _ => address) rfl s)
        refine ⟨rfl, fun σ t hσ => ?_⟩
        have same : address = σ name := by rwa [found, Option.some.injEq] at hσ
        exact (Prod.mk.inj (written σ same.symm t)).1

/-- **An encoding succeeds** when the fields of the layout are filled and make a word of the machine. -/
theorem encode_eq_ok {i : Instruction} :
    i.encode d s = (.ok w, next) ↔
      ∃ layout, d.layout? i.shape = some layout ∧
        encodeFields d i layout.fields .empty s = (.ok w, next) ∧ w.width = d.wordSize := by
  unfold encode
  cases d.layout? i.shape with
  | none => simp
  | some layout =>
    rcases hf : encodeFields d i layout.fields .empty s with ⟨e | word, table⟩
    · simp [hf, Except.bind]
    · by_cases width : word.width = d.wordSize
      · simp only [hf, Except.bind, checkWidth, if_pos width, Prod.mk.injEq, Except.ok.injEq,
          Option.some.injEq, exists_eq_left']
        exact ⟨fun same => ⟨same, same.1 ▸ width⟩, And.left⟩
      · simp only [hf, Except.bind, checkWidth, if_neg width, Prod.mk.injEq, reduceCtorEq,
          Except.ok.injEq, Option.some.injEq, exists_eq_left', false_and, false_iff]
        rintro ⟨⟨rfl, -⟩, same⟩
        exact width same

/-- **What an encoding that succeeds has done.** Its operand is bound, and with the address
in place of the name every table gives the same word. -/
theorem encode_ok {i : Instruction}
    (value : ∀ layout, d.layout? .address = some layout → Field.value ∈ layout.fields.map Prod.fst)
    (h : i.encode d s = (.ok w, next)) :
    next = s.allocate i.symbol? ∧
      ∀ σ t, i.BoundIn next σ → ((i.resolved σ).encode d t).1 = .ok w := by
  cases hi : i.symbol? with
  | none =>
    have bound : ∀ u σ, i.BoundIn u σ := fun u σ name hname => by rw [hi] at hname; cases hname
    rw [encode_of_bound (bound s fun _ => 0) (t := s)] at h
    obtain ⟨hw, rfl⟩ := Prod.mk.inj h
    refine ⟨rfl, fun σ t _ => ?_⟩
    rw [resolved_of_symbol?_eq_none hi] at hw ⊢
    rw [← hw, encode_of_bound (bound t σ) (t := s), resolved_of_symbol?_eq_none hi]
  | some name =>
    obtain rfl := eq_of_symbol? hi
    obtain ⟨layout, hl, filled, width⟩ := encode_eq_ok.1 h
    obtain ⟨table, again⟩ := encodeFields_symbol_ok (value layout hl) filled
    refine ⟨table, fun σ t bound => ?_⟩
    obtain ⟨last, literal⟩ : ∃ last, encodeFields d (.address (.literal (BitVec.ofNat 64 (σ name))))
        layout.fields .empty t = (.ok w, last) := ⟨_, Prod.ext (again σ t (bound name rfl)) rfl⟩
    have encoded : (Instruction.address (.literal (BitVec.ofNat 64 (σ name)))).encode d t =
        (.ok w, last) := encode_eq_ok.2 ⟨layout, hl, literal, width⟩
    exact congrArg Prod.fst encoded

/-! ## Encodings that fail -/

/-- Why an instruction is not encoded. -/
inductive Fault (d : Descriptor) (i : Instruction) (s next : SymbolTable) : Error → Prop
  | layout : d.layout? i.shape = none → Fault d i s next (.noLayout i.shape)
  | field {layout field t e} : d.layout? i.shape = some layout → field ∈ layout.fields →
    i.fieldBits d field.1 field.2 t = .error e → Fault d i s next e
  | uncountable {layout} : d.layout? i.shape = some layout →
    encodeFields d i layout.fields .empty s = (.error .uncountableWord, next) →
    Fault d i s next .uncountableWord
  | width {layout word} : d.layout? i.shape = some layout →
    encodeFields d i layout.fields .empty s = (.ok word, next) → word.width ≠ d.wordSize →
    Fault d i s next (.wordWidth word d.wordSize)

variable {i : Instruction} {e : Error}

theorem error_of_encodeFields {fields : List (Field × Nat)} {word : Bits}
    (h : encodeFields d i fields word s = (.error e, next)) :
    (∃ field ∈ fields, ∃ t, i.fieldBits d field.1 field.2 t = .error e) ∨ e = .uncountableWord := by
  induction fields generalizing word s with
  | nil => cases h
  | cons field rest ih =>
    rw [encodeFields] at h
    cases hb : i.fieldBits d field.1 field.2 s with
    | error e' =>
      rw [hb] at h
      obtain rfl := Except.error.inj (Prod.mk.inj h).1
      exact .inl ⟨field, List.mem_cons_self, s, hb⟩
    | ok r =>
      rw [hb] at h
      dsimp only at h
      split at h
      · exact (ih h).imp_left fun ⟨other, there, failed⟩ =>
          ⟨other, List.mem_cons_of_mem _ there, failed⟩
      · exact .inr (Except.error.inj (Prod.mk.inj h).1).symm

/-- **An encoding fails** for want of a layout, at one of its fields, or by the width of its word. -/
theorem fault_of_encode (h : i.encode d s = (.error e, next)) : Fault d i s next e := by
  unfold encode at h
  cases hl : d.layout? i.shape with
  | none =>
    rw [hl] at h
    obtain rfl := Except.error.inj (Prod.mk.inj h).1
    exact .layout hl
  | some layout =>
    rw [hl] at h
    dsimp only at h
    cases hf : encodeFields d i layout.fields .empty s with
    | mk result table =>
      rw [hf] at h
      obtain ⟨checked, rfl⟩ := Prod.mk.inj h
      cases result with
      | error e' =>
        obtain rfl := Except.error.inj checked
        rcases error_of_encodeFields hf with ⟨field, there, t, failed⟩ | rfl
        · exact .field hl there failed
        · exact .uncountable hl hf
      | ok word =>
        rw [Except.bind, checkWidth] at checked
        split at checked
        · cases checked
        · rename_i wrong
          obtain rfl := Except.error.inj checked
          exact .width hl hf wrong

end

end Instruction

end Assembly

end HackToolchain
