import Mathlib.Data.List.Nodup
import HackToolchain.Proofs.Assembly.Variables
import HackToolchain.Proofs.Vm.Simulation

/-!
# Static cells

* `staticName_injective`: the name of a static cell tells its unit and its index;
* `exists_ownCell`: a name that is loaded and that nothing binds is a variable, and in front of
  it are the variables that the lines load before;
* `static_cells_private`: two accesses to static cells use one address only if they are in the
  same unit and have the same index.
-/

namespace HackToolchain.Vm

open Assembly (Instruction Program)
open CommandLine (SourceUnit translateUnits)
open Expansion

/-- **The name of a static cell tells its unit and its index**, whatever points and digits the
name of the unit holds. -/
theorem staticName_injective {unit other : String} {i j : Word}
    (h : staticName unit i = staticName other j) : unit = other ∧ i = j := by
  have chars := congrArg String.toList h
  rw [toList_staticName, toList_staticName] at chars
  obtain ⟨units, -, indices⟩ := Generated.number_injective (by decide) (by decide) chars
  exact ⟨String.toList_inj.1 units, BitVec.eq_of_toNat_eq indices⟩

/-- Of the labels that are made up only those of calls can be the name of a static cell. -/
theorem staticName_unmade {unit : String} {index : Word} {n : Counters} {program : List Placed}
    (apart : ∀ callee id, .back callee id ∈ generated n program →
      returnLabel callee id ≠ staticName unit index) :
    staticName unit index ∉ (generated n program).map Generated.text := by
  intro made
  obtain ⟨g, hg, same⟩ := List.mem_map.1 made
  have chars := congrArg String.toList same
  rw [Generated.toList_text, toList_staticName] at chars
  obtain ⟨-, mark, -⟩ := Generated.number_injective g.mark_not_digit (by decide) chars
  cases g with
  | back callee id => exact apart callee id hg same
  | _ => simp [Generated.mark] at mark

/-- A command of the unit pushes or pops the static cell. -/
def Accesses (u : SourceUnit) (index : Word) : Prop :=
  .push .static index ∈ u.lines.filterMap commandOf? ∨
    .pop .static index ∈ u.lines.filterMap commandOf?

/-- The names that lines load, as often as they load them. -/
def loadedNames (items : List Item) : List String := Assembly.symbolsUsed (codeOf items)

/-- The variables that lines load, each once. -/
def loadedVariables (p : Program) (items : List Item) : List String :=
  ((loadedNames items).filter p.symbols.isVariable).eraseDups

theorem mem_loadedNames {items : List Item} {name : String} :
    name ∈ loadedNames items ↔ symbol name ∈ items := by
  simp only [loadedNames, Assembly.symbolsUsed, codeOf, List.mem_filterMap]
  constructor
  · rintro ⟨i, ⟨item, hitem, made⟩, uses⟩
    obtain rfl := Assembly.Instruction.eq_of_symbol? uses
    rcases item with _ | _ | i
    · cases made
    · cases made
    · cases made
      exact hitem
  · intro h
    exact ⟨_, ⟨_, h, rfl⟩, rfl⟩

/-- A name has a cell of its own: it is a variable behind those that the lines load before it,
no other variable is there, and every line that loads the name loads this address. -/
structure OwnCell (p : Program) (items : List Item) (name : String) (address : Nat) : Prop where
  bound : p.symbols.get? name = some ⟨.var, address⟩
  low : 16 ≤ address
  high : address < ramSize
  alone : ∀ other taken, p.symbols.get? other = some ⟨.var, taken⟩ → other ≠ name →
    taken ≠ address
  loaded : ∀ front back, items = front ++ symbol name :: back →
    ∃ word, p.words[codeSize front]? = some word ∧ ∀ table,
      ((Instruction.address (.literal (BitVec.ofNat 64 address))).encode hack table).1 = .ok word
  first : ∃ front back, items = front ++ symbol name :: back ∧ symbol name ∉ front ∧
    address = 16 + (loadedVariables p front).length

section

variable {items : List Item} {p : Program} {name : String}

/-- A name that is loaded and that nothing binds has a cell of its own. -/
theorem exists_ownCell (means : p.Means hack (items.map Item.reading)) (roomy : p.symbols.Roomy)
    (plain : AllPlain items) (used : symbol name ∈ items)
    (free : name ∉ Assembly.boundNames hack (items.map Item.reading)) :
    ∃ address, OwnCell p items name address := by
  have faithful : ∀ item ∈ items, item.Faithful := fun item hitem => (plain item hitem).faithful
  have read := instructions_readings plain
  obtain ⟨front, back, split, fresh⟩ := List.eq_append_cons_of_mem used
  have code : Assembly.instructions (items.map Item.reading) =
      codeOf front ++ .address (.symbol name) :: codeOf back := by
    rw [read, split, codeOf_append]
    rfl
  have found := means.get?_variable code rfl (mt mem_loadedNames.1 fresh) free
  have earlier : Assembly.newNames (Assembly.boundNames hack (items.map Item.reading))
      (Assembly.symbolsUsed (codeOf front)) = loadedVariables p front := by
    apply means.newNames_eq
    rw [code, Assembly.symbolsUsed, Assembly.symbolsUsed, List.filterMap_append]
    exact List.subset_append_left _ _
  rw [earlier] at found
  have address : p.symbols.address? name = some (16 + (loadedVariables p front).length) := by
    rw [Assembly.SymbolTable.address?, found]
    rfl
  have loaded := fun front back (split : items = front ++ symbol name :: back) =>
    word_of_symbol means faithful split (plain _ used) address
  refine ⟨16 + (loadedVariables p front).length, found, Nat.le_add_right _ _, ?_,
    fun other taken var apart => means.variable_ne found var apart, loaded,
    front, back, split, fresh, rfl⟩
  -- The address has 32 bits, and as it has been encoded it has 15.
  have narrow : 16 + (loadedVariables p front).length < 2 ^ 64 :=
    Nat.lt_trans (roomy name _ found) (by decide)
  obtain ⟨word, -, encoded⟩ := loaded front back split
  have small := (encoded_address (encoded p.symbols)).1
  rwa [BitVec.toNat_ofNat, Nat.mod_eq_of_lt narrow] at small

end

section

variable {entry : Option String} {units : List SourceUnit} {t : Translator}
  {lines : List SourceLine} {p : Program}

theorem output_plain (identifier : ∀ name ∈ entry, IsIdentifier name)
    (plain : ∀ u ∈ units, IsPlainUnit u.name)
    (translated : translateUnits (.started entry) units = .ok t) : AllPlain t.output.toList := by
  intro item hitem
  rw [output_of_translateUnits translated, List.mem_append] at hitem
  rcases hitem with hitem | hitem
  · exact (preamble_emitted entry "" .ret item hitem).plain isPlainUnit_empty
  · obtain ⟨c, hc, n, hitem⟩ := mem_expansion hitem
    have emitted := expand_emitted (valid_of_mem_program identifier hc) c.1 n item hitem
    exact emitted.plain (plain_of_mem_program plain hc)

theorem placed_of_accesses {u : SourceUnit} {index : Word} (hu : u ∈ units)
    (h : Accesses u index) :
    ∃ c, (u.name, c) ∈ program entry units ∧
      c.static? u.name = some (staticName u.name index) := by
  have placed : ∀ c ∈ u.lines.filterMap commandOf?, (u.name, c) ∈ program entry units :=
    fun c hc =>
      List.mem_append_right _ (List.mem_flatMap.2 ⟨u, hu, List.mem_map.2 ⟨c, hc, rfl⟩⟩)
  rcases h with h | h
  · exact ⟨_, placed _ h, rfl⟩
  · exact ⟨_, placed _ h, rfl⟩

/-- **Static cells are private to their unit and never alias.** A static cell whose name is not
that of a label, a function or a return label is a variable of its own. Two accesses use the
same address if and only if they are to the same index in the same unit. -/
theorem static_cells_private (identifier : ∀ name ∈ entry, IsIdentifier name)
    (plain : ∀ u ∈ units, IsPlainUnit u.name) (distinct : (units.map SourceUnit.name).Nodup)
    (translated : translateUnits (.started entry) units = .ok t)
    (raw : lines.map SourceLine.raw = t.lines)
    (assembled : Assembly.assemble hack lines = .ok p)
    (apart : ∀ u ∈ units, ∀ i, Accesses u i →
      staticName u.name i ∉ definedNames (program entry units) ∧
      ∀ callee id, .back callee id ∈ generated ⟨0, 0⟩ (program entry units) →
        returnLabel callee id ≠ staticName u.name i) :
    (∀ u ∈ units, ∀ i, Accesses u i →
      ∃ address, OwnCell p t.output.toList (staticName u.name i) address) ∧
    ∀ u ∈ units, ∀ v ∈ units, ∀ i j, Accesses u i → Accesses v j →
      (p.symbols.address? (staticName u.name i) = p.symbols.address? (staticName v.name j) ↔
        u = v ∧ i = j) := by
  have built : Built entry units p := ⟨t, lines, translated, raw, assembled⟩
  have output := output_of_translateUnits translated
  have own : ∀ u ∈ units, ∀ i, Accesses u i →
      ∃ address, OwnCell p t.output.toList (staticName u.name i) address := by
    intro u hu i accesses
    obtain ⟨c, placed, named⟩ := placed_of_accesses hu accesses
    obtain ⟨undefined, uncalled⟩ := apart u hu i accesses
    have unmade := staticName_unmade uncalled
    have static : staticName u.name i ∈ staticNames (program entry units) :=
      List.mem_filterMap.2 ⟨_, placed, named⟩
    obtain ⟨free, used⟩ := built.static_unbound identifier plain static undefined unmade
    have plain := output_plain identifier plain translated
    rw [Built.source, linesOf, ← output] at free used
    rw [instructions_readings plain] at used
    exact exists_ownCell (means_of_output raw assembled) (Assembly.variable_lt assembled) plain
      (mem_loadedNames.1 used) free
  refine ⟨own, ?_⟩
  intro u hu v hv i j first second
  constructor
  · intro same
    obtain ⟨address, cell⟩ := own u hu i first
    obtain ⟨taken, other⟩ := own v hv j second
    have shared : taken = address := by
      rw [Assembly.SymbolTable.address?, Assembly.SymbolTable.address?, cell.bound,
        other.bound] at same
      exact (Option.some.inj same).symm
    have names : staticName v.name j = staticName u.name i :=
      Decidable.byContradiction fun ne => cell.alone _ _ other.bound ne shared
    obtain ⟨unit, index⟩ := staticName_injective names
    exact ⟨List.inj_on_of_nodup_map distinct hu hv unit.symm, index.symm⟩
  · rintro ⟨rfl, rfl⟩
    rfl

end

/-- A unit whose static cell has the name of another unit. -/
def dotless : SourceUnit := ⟨"A", SourceLine.ofRaws "A.vm" ["goto away", "push static 1"]⟩

def dotted : SourceUnit := ⟨"A.1", SourceLine.ofRaws "A.1.vm" ["pop static 1", "push static 2"]⟩

/-- The undefined target takes the first address, and the cells come behind it. -/
theorem static_cells_private_dotted :
    ∃ t p address, translateUnits (.started none) [dotless, dotted] = .ok t ∧
      Assembly.assemble hack (SourceLine.ofRaws "out.asm" t.lines) = .ok p ∧
      OwnCell p t.output.toList "A.1" address ∧ p.symbols.address? "away" = some 16 ∧
      p.symbols.address? "A.1" ≠ p.symbols.address? "A.1.1" := by
  let t := ((Translator.empty.translate dotless.name dotless.lines).2.translate dotted.name
    dotted.lines).2
  have translated : translateUnits (.started none) [dotless, dotted] = .ok t := by rfl
  have runs : ((Assembly.assemble hack (SourceLine.ofRaws "out.asm" t.lines)).toOption.map
      fun p => p.symbols.address? "away") = some (some 16) := by decide +kernel
  obtain ⟨p, assembled, away⟩ := eq_ok_of_shown runs
  have first : dotless.lines.filterMap commandOf? = [.goto "away", .push .static 1] := by
    decide +kernel
  have second : dotted.lines.filterMap commandOf? = [.pop .static 1, .push .static 2] := by
    decide +kernel
  have plain : ∀ u ∈ [dotless, dotted], IsPlainUnit u.name := by decide
  have defined : definedNames (program none [dotless, dotted]) = [] := by decide +kernel
  have made : generated ⟨0, 0⟩ (program none [dotless, dotted]) = [] := by decide +kernel
  obtain ⟨own, shared⟩ := static_cells_private (by simp) plain (by decide) translated
    (SourceLine.raw_ofRaws "out.asm" t.lines) assembled fun u _ i _ => by simp [defined, made]
  have pushed : Accesses dotless 1 := .inl (by simp [first])
  have popped : Accesses dotted 1 := .inr (by simp [second])
  obtain ⟨address, cell⟩ := own dotless (by simp) 1 pushed
  have apart := shared dotless (by simp) dotted (by simp) 1 1 pushed popped
  refine ⟨t, p, address, translated, assembled, cell, away, fun same => ?_⟩
  exact absurd (apart.1 same).1 (by decide)

end HackToolchain.Vm
