import HackToolchain.Descriptor.Hack
import HackToolchain.Proofs.Assembly.Resolution
import Mathlib.Data.List.Induction

/-!
# Tables under any calls

The two passes bind first and resolve later. A table keeps its promises when the calls come in any
order:

* `after_of_bound`, `after_bind_of_fresh`, `after_resolve_of_fresh`: what one call changes;
* `Follows.of_known`, `Follows.bind`, `Follows.resolve`: the table follows from the calls, and so it
  does after one more;
* `afterAll_cases`: so it is after every run of calls that comes back, and one that does not has too
  many variables;
* `table_invariant`: so names keep what they are bound to, variables are numbered one after the
  other, and a run fails when it has as many variables as there are addresses left.
-/

namespace HackToolchain.Assembly

inductive Call
  | bind (name : String) (counter : Nat)
  | resolve (name : String)
  deriving DecidableEq, Repr

def Call.name : Call → String
  | bind name _ | resolve name => name

/-- The new names that the first call about them resolves, in the order of these calls. -/
def variableNames (d : Descriptor) (calls : List Call) : List String :=
  (newNames d.symbols.keys (calls.map Call.name)).filter fun name =>
    calls.find? (fun c => c.name = name) = some (.resolve name)

/-- One more call makes a variable if it resolves a name that is new. -/
theorem variableNames_concat (d : Descriptor) (calls : List Call) (c : Call) :
    variableNames d (calls ++ [c]) =
      if (c.name ∉ d.symbols.keys ∧ c.name ∉ calls.map Call.name) ∧ c = .resolve c.name then
        variableNames d calls ++ [c.name]
      else variableNames d calls := by
  have old : ∀ name ∈ newNames d.symbols.keys (calls.map Call.name),
      decide ((calls ++ [c]).find? (fun c => c.name = name) = some (.resolve name)) =
        decide (calls.find? (fun c => c.name = name) = some (.resolve name)) := by
    intro name hname
    obtain ⟨first, there, same⟩ := List.mem_map.1 (mem_newNames.1 hname).1
    have found : (calls.find? fun c => c.name = name).isSome :=
      List.find?_isSome.2 ⟨first, there, by simpa using same⟩
    rw [List.find?_append, Option.or_of_isSome found]
  rw [variableNames, List.map_append, List.map_singleton, newNames_concat]
  by_cases known : c.name ∈ d.symbols.keys ∨ c.name ∈ calls.map Call.name
  · rw [if_pos known, if_neg (by tauto), List.filter_congr old, variableNames]
  · have first : (calls ++ [c]).find? (fun other => other.name = c.name) = some c := by
      have fresh : calls.find? (fun other => other.name = c.name) = none := by
        rw [List.find?_eq_none]
        intro other there same
        exact known (.inr (List.mem_map.2 ⟨other, there, by simpa using same⟩))
      rw [List.find?_append, fresh]
      simp
    rw [if_neg known, List.filter_append, List.filter_congr old, ← variableNames]
    by_cases resolves : c = .resolve c.name
    · rw [if_pos ⟨not_or.1 known, resolves⟩,
        List.filter_cons_of_pos (by simpa [first] using resolves), List.filter_nil]
    · rw [if_neg fun made => resolves made.2,
        List.filter_cons_of_neg (by simpa [first] using resolves), List.filter_nil, List.append_nil]

namespace SymbolTable

/-- The table after a call that comes back. -/
def after (s : SymbolTable) : Call → Except Error SymbolTable
  | .bind name counter => .ok (s.bindLabel name counter).2
  | .resolve name => (s.resolve name).map Prod.snd

def afterAll (s : SymbolTable) (calls : List Call) : Except Error SymbolTable :=
  calls.foldlM after s

/-- The entries of variables, in the order of the table. -/
def allocated (s : SymbolTable) : List (String × Symbol) :=
  s.entries.filter fun entry => entry.2.kind = .var

section

variable {s t : SymbolTable} {c : Call} {name : String} {symbol : Symbol}

/-! ## One call -/

/-- A call about a name of the table changes nothing. -/
theorem after_of_bound (bound : c.name ∈ s.names) : s.after c = .ok s := by
  obtain ⟨symbol, there⟩ := mem_names.1 bound
  cases c with
  | bind name counter =>
    have there : s.get? name = some symbol := there
    rw [after, bindLabel_of_bound there]
  | resolve name =>
    have there : s.address? name = some symbol.address := congrArg (Option.map _) there
    rw [after, resolve_of_bound there]
    rfl

theorem after_bind_of_fresh (fresh : name ∉ s.names) (counter : Nat) :
    s.after (.bind name counter) = .ok (s.add name ⟨.label, counter⟩ s.nextVariable) := by
  rw [after, bindLabel_of_fresh fresh]

theorem after_resolve_of_fresh (fresh : name ∉ s.names) :
    s.after (.resolve name) = if s.nextVariable < maxAddress
      then .ok (s.add name ⟨.var, s.nextVariable⟩ (s.nextVariable + 1))
      else .error .addressesExhausted := by
  rw [after, resolve_of_fresh fresh]
  split <;> rfl

/-- **A name keeps what it is bound to.** -/
theorem get?_after (done : s.after c = .ok t) (bound : s.get? name = some symbol) :
    t.get? name = some symbol := by
  by_cases known : c.name ∈ s.names
  · rw [after_of_bound known] at done
    exact Except.ok.inj done ▸ bound
  cases c with
  | bind other counter =>
    have known : other ∉ s.names := known
    rw [after_bind_of_fresh known] at done
    obtain rfl := Except.ok.inj done
    exact get?_add_of_bound known bound _ _
  | resolve other =>
    have known : other ∉ s.names := known
    rw [after_resolve_of_fresh known] at done
    split at done
    · obtain rfl := Except.ok.inj done
      exact get?_add_of_bound known bound _ _
    · cases done

/-- Only a new variable can fail, when no address is left. -/
theorem after_eq_error {e : Error} :
    s.after c = .error e ↔
      e = .addressesExhausted ∧ ∃ name, c = .resolve name ∧ name ∉ s.names ∧
        maxAddress ≤ s.nextVariable := by
  by_cases known : c.name ∈ s.names
  · rw [after_of_bound known]
    simp only [reduceCtorEq, false_iff]
    rintro ⟨-, name, rfl, fresh, -⟩
    exact fresh known
  cases c with
  | bind name counter =>
    have fresh : name ∉ s.names := known
    simp [after_bind_of_fresh fresh]
  | resolve name =>
    have fresh : name ∉ s.names := known
    rw [after_resolve_of_fresh fresh]
    split <;> simp [fresh, eq_comm] <;> omega

/-! ## Runs of calls -/

theorem afterAll_cons (s : SymbolTable) (c : Call) (rest : List Call) :
    s.afterAll (c :: rest) = (s.after c).bind (·.afterAll rest) :=
  List.foldlM_cons

theorem afterAll_append (s : SymbolTable) (front back : List Call) :
    s.afterAll (front ++ back) = (s.afterAll front).bind (·.afterAll back) :=
  List.foldlM_append

theorem afterAll_concat (s : SymbolTable) (calls : List Call) (c : Call) :
    s.afterAll (calls ++ [c]) = (s.afterAll calls).bind (·.after c) := by
  rw [afterAll_append]
  cases s.afterAll calls with
  | error e => rfl
  | ok t =>
    change t.afterAll [c] = t.after c
    rw [afterAll_cons]
    cases t.after c <;> rfl

theorem get?_afterAll {calls : List Call} (done : s.afterAll calls = .ok t)
    (bound : s.get? name = some symbol) : t.get? name = some symbol := by
  induction calls generalizing s with
  | nil => exact Except.ok.inj done ▸ bound
  | cons c rest ih =>
    rw [afterAll_cons] at done
    cases one : s.after c with
    | error e => rw [one] at done; cases done
    | ok next =>
      rw [one] at done
      exact ih done (get?_after one bound)

/-- A run fails at its first call that does. -/
theorem afterAll_eq_error {calls : List Call} {e : Error} :
    s.afterAll calls = .error e ↔
      ∃ front c back t, calls = front ++ c :: back ∧ s.afterAll front = .ok t ∧
        t.after c = .error e := by
  constructor
  · intro failed
    induction calls generalizing s with
    | nil => cases failed
    | cons c rest ih =>
      rw [afterAll_cons] at failed
      cases one : s.after c with
      | error other =>
        rw [one] at failed
        exact ⟨[], c, rest, s, rfl, rfl, one.trans failed⟩
      | ok next =>
        rw [one] at failed
        obtain ⟨front, last, back, t, rfl, reached, failed⟩ := ih failed
        exact ⟨c :: front, last, back, t, rfl, by rw [afterAll_cons, one]; exact reached, failed⟩
  · rintro ⟨front, c, back, t, rfl, reached, failed⟩
    rw [afterAll_append, reached]
    change t.afterAll (c :: back) = .error e
    rw [afterAll_cons, failed]
    rfl

end

/-! ## The tables of a descriptor -/

section

variable {d : Descriptor} {calls : List Call} {s t : SymbolTable}

/-- What is true of the table of a descriptor after some calls. -/
structure Follows (d : Descriptor) (calls : List Call) (s : SymbolTable) : Prop where
  names : s.names = d.symbols.keys ++ newNames d.symbols.keys (calls.map Call.name)
  taken : s.allocated.map Prod.fst = variableNames d calls
  numbered : s.allocated.map (·.2.address) = List.range' d.varBase s.allocated.length
  next : s.nextVariable = d.varBase + s.allocated.length
  room : s.nextVariable ≤ maxAddress

namespace Follows

theorem mem_names (follows : Follows d calls s) {name : String} :
    name ∈ s.names ↔ name ∈ d.symbols.keys ∨ name ∈ calls.map Call.name := by
  rw [follows.names, List.mem_append, mem_newNames]
  tauto

theorem length_allocated (follows : Follows d calls s) :
    s.allocated.length = (variableNames d calls).length := by
  rw [← follows.taken, List.length_map]

theorem ofDescriptor (base : d.varBase < UInt32.size) :
    Follows d [] (SymbolTable.ofDescriptor d) := by
  have none : (SymbolTable.ofDescriptor d).allocated = [] := by
    rw [allocated, List.filter_eq_nil_iff]
    intro entry there
    obtain ⟨_, -, rfl⟩ := List.mem_map.1 there
    simp
  constructor
  case names => simp [SymbolTable.names, SymbolTable.ofDescriptor, Table.keys, Table.mapValues]
  case room => exact Nat.le_sub_one_of_lt base
  all_goals
    rw [none]
    rfl

/-- A call about a known name leaves the table what it was. -/
theorem of_known (follows : Follows d calls s) {c : Call} (known : c.name ∈ s.names) :
    Follows d (calls ++ [c]) s := by
  have before := follows.mem_names.1 known
  constructor
  case names =>
    rw [follows.names, List.map_append, List.map_singleton, newNames_concat, if_pos before]
  case taken => rw [follows.taken, variableNames_concat, if_neg (by tauto)]
  case numbered => exact follows.numbered
  case next => exact follows.next
  case room => exact follows.room

theorem names_call (follows : Follows d calls s) {c : Call} (fresh : c.name ∉ s.names)
    (symbol : Symbol) (next : Nat) :
    (s.add c.name symbol next).names =
      d.symbols.keys ++ newNames d.symbols.keys ((calls ++ [c]).map Call.name) := by
  rw [names_add fresh, follows.names, List.map_append, List.map_singleton, newNames_concat,
    if_neg (mt follows.mem_names.2 fresh), List.append_assoc]

theorem bind (follows : Follows d calls s) {name : String} (fresh : name ∉ s.names)
    (counter : Nat) :
    Follows d (calls ++ [.bind name counter]) (s.add name ⟨.label, counter⟩ s.nextVariable) := by
  have same : (s.add name ⟨.label, counter⟩ s.nextVariable).allocated = s.allocated := by
    rw [allocated, entries_add fresh, List.filter_append]
    simp [allocated]
  constructor
  case names => exact follows.names_call (c := .bind name counter) fresh _ _
  case taken => rw [same, follows.taken, variableNames_concat, if_neg (by simp)]
  case numbered => rw [same, follows.numbered]
  case next => rw [same]; exact follows.next
  case room => exact follows.room

theorem resolve (follows : Follows d calls s) {name : String} (fresh : name ∉ s.names)
    (room : s.nextVariable < maxAddress) :
    Follows d (calls ++ [.resolve name])
      (s.add name ⟨.var, s.nextVariable⟩ (s.nextVariable + 1)) := by
  have more : (s.add name ⟨.var, s.nextVariable⟩ (s.nextVariable + 1)).allocated =
      s.allocated ++ [(name, ⟨.var, s.nextVariable⟩)] := by
    rw [allocated, entries_add fresh, List.filter_append]
    simp [allocated]
  constructor
  case names => exact follows.names_call (c := .resolve name) fresh _ _
  case taken =>
    rw [more, List.map_append, follows.taken, variableNames_concat,
      if_pos ⟨not_or.1 (mt follows.mem_names.2 fresh), rfl⟩]
    rfl
  case numbered =>
    rw [more, List.map_append, follows.numbered, List.length_append, List.length_singleton,
      List.range'_1_concat, ← follows.next]
    rfl
  case next =>
    rw [more, List.length_append, List.length_singleton, ← Nat.add_assoc, ← follows.next]
    rfl
  case room => exact room

end Follows

/-- **The table of a run** is the one that follows from its calls, unless they are too many. -/
theorem afterAll_cases (base : d.varBase < UInt32.size) (calls : List Call) :
    (∃ s, (ofDescriptor d).afterAll calls = .ok s ∧ Follows d calls s) ∨
      (∃ e, (ofDescriptor d).afterAll calls = .error e) ∧
        UInt32.size ≤ d.varBase + (variableNames d calls).length := by
  induction calls using List.reverseRecOn with
  | nil => exact .inl ⟨_, rfl, .ofDescriptor base⟩
  | append_singleton calls c ih =>
    rw [afterAll_concat, variableNames_concat]
    rcases ih with ⟨s, reached, follows⟩ | ⟨⟨e, failed⟩, many⟩
    · rw [reached]
      by_cases known : c.name ∈ s.names
      · exact .inl ⟨s, after_of_bound known, follows.of_known known⟩
      cases c with
      | bind name counter =>
        have fresh : name ∉ s.names := known
        exact .inl ⟨_, after_bind_of_fresh fresh counter, follows.bind fresh counter⟩
      | resolve name =>
        have fresh : name ∉ s.names := known
        by_cases room : s.nextVariable < maxAddress
        · exact .inl ⟨_, (after_resolve_of_fresh fresh).trans (if_pos room),
            follows.resolve fresh room⟩
        · refine .inr ⟨⟨_, (after_resolve_of_fresh fresh).trans (if_neg room)⟩, ?_⟩
          have next := follows.next
          rw [if_pos ⟨not_or.1 (mt follows.mem_names.2 fresh), rfl⟩, List.length_append,
            List.length_singleton, ← follows.length_allocated]
          unfold maxAddress at room
          omega
    · refine .inr ⟨⟨e, by rw [failed]; rfl⟩, ?_⟩
      split
      · rw [List.length_append]
        omega
      · exact many

theorem follows_of_ok (base : d.varBase < UInt32.size)
    (reached : (ofDescriptor d).afterAll calls = .ok s) : Follows d calls s := by
  rcases afterAll_cases base calls with ⟨t, done, follows⟩ | ⟨⟨e, failed⟩, -⟩
  · exact Except.ok.inj (done.symm.trans reached) ▸ follows
  · cases failed.symm.trans reached

/-- What any further call finds in the table of a descriptor. -/
structure Keeps (d : Descriptor) (s : SymbolTable) : Prop where
  predefined : ∀ name address, d.symbols.get? name = some address →
    s.get? name = some ⟨.predefined, address⟩
  persists : ∀ more t, s.afterAll more = .ok t → ∀ name symbol, s.get? name = some symbol →
    t.get? name = some symbol
  bound : ∀ name symbol, s.get? name = some symbol →
    (∀ counter, s.bindLabel name counter = (false, s)) ∧ s.resolve name = .ok (symbol.address, s)
  binds : ∀ name, s.get? name = none → ∀ counter, ∃ t,
    s.bindLabel name counter = (true, t) ∧ t.get? name = some ⟨.label, counter⟩
  resolves : ∀ name, s.get? name = none →
    if d.varBase + s.allocated.length = 4294967295 then
      s.resolve name = .error .addressesExhausted
    else ∃ t, s.resolve name = .ok (d.varBase + s.allocated.length, t) ∧
      t.get? name = some ⟨.var, d.varBase + s.allocated.length⟩

theorem Follows.last (follows : Follows d calls s) :
    maxAddress ≤ s.nextVariable ↔ d.varBase + s.allocated.length = 4294967295 := by
  have next := follows.next
  have room := follows.room
  have last : maxAddress = 4294967295 := rfl
  omega

theorem get?_ofDescriptor (d : Descriptor) (name : String) :
    (ofDescriptor d).get? name = (d.symbols.get? name).map (⟨.predefined, ·⟩) :=
  Table.get?_mapValues _ _ _

theorem keeps_of_ok (base : d.varBase < UInt32.size)
    (reached : (ofDescriptor d).afterAll calls = .ok s) : Keeps d s := by
  have follows := follows_of_ok base reached
  constructor
  case predefined =>
    intro name address there
    exact get?_afterAll reached (by rw [get?_ofDescriptor, there]; rfl)
  case persists =>
    intro more t done name symbol there
    exact get?_afterAll done there
  case bound =>
    intro name symbol there
    exact ⟨bindLabel_of_bound there, resolve_of_bound (congrArg (Option.map Symbol.address) there)⟩
  case binds =>
    intro name absent counter
    exact ⟨_, bindLabel_of_fresh (get?_eq_none.1 absent) counter, get?_add_self _ _⟩
  case resolves =>
    intro name absent
    rw [resolve_of_fresh (get?_eq_none.1 absent)]
    by_cases full : d.varBase + s.allocated.length = 4294967295
    · rw [if_pos full, if_neg (Nat.not_lt.2 (follows.last.2 full))]
    · rw [if_neg full, if_pos (Nat.lt_of_not_le (mt follows.last.1 full)), ← follows.next]
      exact ⟨_, rfl, get?_add_self _ _⟩

/-- A run of calls that comes back leaves the names in the order of their first call, behind those
of the descriptor, and the variables with consecutive addresses; every name keeps what it is bound
to. A run does not come back if it takes the last address, so if there are as many variables as
addresses. -/
theorem table_invariant (d : Descriptor) (base : d.varBase < UInt32.size) (calls : List Call) :
    (∀ s, (ofDescriptor d).afterAll calls = .ok s →
      Follows d calls s ∧ s.names.Nodup ∧ Keeps d s) ∧
    ((∃ e, (ofDescriptor d).afterAll calls = .error e) ↔
      ∃ front name back s, calls = front ++ .resolve name :: back ∧
        (ofDescriptor d).afterAll front = .ok s ∧ s.get? name = none ∧
        d.varBase + s.allocated.length = 4294967295) ∧
    ((∃ e, (ofDescriptor d).afterAll calls = .error e) ↔
      4294967296 - d.varBase ≤ (variableNames d calls).length) := by
  refine ⟨?reached, ?last, ?many⟩
  case reached =>
    intro s reached
    exact ⟨follows_of_ok base reached, s.table.keys_nodup, keeps_of_ok base reached⟩
  case last =>
    constructor
    · rintro ⟨e, failed⟩
      obtain ⟨front, c, back, s, split, reached, failed⟩ := afterAll_eq_error.1 failed
      obtain ⟨-, name, rfl, fresh, full⟩ := after_eq_error.1 failed
      exact ⟨front, name, back, s, split, reached, get?_eq_none.2 fresh,
        (follows_of_ok base reached).last.1 full⟩
    · rintro ⟨front, name, back, s, split, reached, absent, full⟩
      have failed : s.after (.resolve name) = .error .addressesExhausted :=
        after_eq_error.2 ⟨rfl, name, rfl, get?_eq_none.1 absent,
          (follows_of_ok base reached).last.2 full⟩
      exact ⟨_, afterAll_eq_error.2 ⟨front, _, back, s, split, reached, failed⟩⟩
  case many =>
    have size : UInt32.size = 4294967296 := rfl
    rcases afterAll_cases base calls with ⟨s, reached, follows⟩ | ⟨failed, many⟩
    · have next := follows.next
      have room := follows.room
      have last : maxAddress = 4294967295 := rfl
      rw [follows.length_allocated] at next
      constructor
      · rintro ⟨e, failed⟩
        cases failed.symm.trans reached
      · omega
    · exact iff_of_true failed (by omega)

/-- A machine with an address for one variable; a second one would take the last address. -/
def brim : Descriptor := { hack with varBase := 4294967294 }

theorem table_invariant_brim :
    (∃ s, (ofDescriptor brim).afterAll [.bind "LOOP" 4, .resolve "x", .bind "x" 9] = .ok s ∧
      s.allocated.map Prod.fst = ["x"] ∧ s.get? "SP" = some ⟨.predefined, 0⟩ ∧
      s.resolve "y" = .error .addressesExhausted) ∧
    ∃ e, (ofDescriptor brim).afterAll [.bind "LOOP" 4, .resolve "x", .bind "x" 9, .resolve "y"] =
      .error e := by
  have base : brim.varBase < UInt32.size := by decide
  have one : variableNames brim [.bind "LOOP" 4, .resolve "x", .bind "x" 9] = ["x"] := by
    decide +kernel
  have two : (variableNames brim
      [.bind "LOOP" 4, .resolve "x", .bind "x" 9, .resolve "y"]).length = 2 := by
    decide +kernel
  have left : 4294967296 - brim.varBase = 2 := by decide
  refine ⟨?_, (table_invariant brim base _).2.2.2 (Nat.le_of_eq (left.trans two.symm))⟩
  rcases afterAll_cases base [.bind "LOOP" 4, .resolve "x", .bind "x" 9] with
    ⟨s, reached, -⟩ | ⟨-, many⟩
  · obtain ⟨follows, -, keeps⟩ := (table_invariant brim base _).1 s reached
    have count : s.allocated.length = 1 := by rw [follows.length_allocated, one]; rfl
    have absent : s.get? "y" = none := by
      rw [get?_eq_none, follows.mem_names]
      decide +kernel
    have resolves := keeps.resolves "y" absent
    rw [count, if_pos (by decide)] at resolves
    exact ⟨s, reached, follows.taken.trans one, keeps.predefined _ _ (by decide +kernel), resolves⟩
  · rw [one] at many
    exact absurd many (by decide)

end

end SymbolTable

end HackToolchain.Assembly
