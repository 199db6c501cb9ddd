import HackToolchain.Proofs.Assembly.Reports
import HackToolchain.Proofs.Machine.Words

/-!
# Lines that fail on the Hack machine

* `failure?_literal`, `failure?_compute`: why the two kinds of instructions have no word;
* `failure?_hack`: a line fails by its code alone, but for the addresses of names;
* `overfills_of_failure?`: a line fails by a count only where its fields have 2 ^ 64 bits or more;
* `assemble_reports`: assembling is all or nothing, and reports each line that fails once.
-/

namespace HackToolchain

namespace Hack

/-- The greatest value that a word can load. -/
def maxValue : Nat := 2 ^ 15 - 1

/-- A value that a word has no room for. -/
def tooWide (v : BitVec 64) : Assembly.Error := .wordWidth ⟨v, 1 + Bits.bitLength v⟩ 16

def literalFault? (digits : List Char) : Option Assembly.Error :=
  let n := Nat.ofDigitChars 10 digits 0
  if UInt64.size ≤ n then some (.literalTooLarge (String.ofList digits))
  else if maxValue < n then some (tooWide (BitVec.ofNat 64 n)) else none

/-- What is wrong with the operand of an address, when names stand for addresses. -/
def operandFault? (σ : String → Nat) (operand : List Char) : Option Assembly.Error :=
  if operand = [] then some .missingOperand
  else if operand.all Char.isDigit then literalFault? operand
  else
    let address := σ (String.ofList operand)
    if maxValue < address then some (tooWide (BitVec.ofNat 64 address)) else none

/-- The value that an operand loads, when names stand for addresses. -/
def operandValue (σ : String → Nat) (operand : List Char) : Nat :=
  (Text.decimal? operand).getD (σ (String.ofList operand))

/-- What is wrong with the value of an operand. -/
def valueFault? (value : Nat) : Option Assembly.Error :=
  if maxValue < value then some (tooWide (BitVec.ofNat 64 value)) else none

theorem valueFault?_eq_some {value : Nat} {e : Assembly.Error} :
    valueFault? value = some e ↔ maxValue < value ∧ e = tooWide (BitVec.ofNat 64 value) := by
  rw [valueFault?, Option.ite_none_right_eq_some, Option.some.injEq, eq_comm]

theorem valueFault?_eq_none {value : Nat} : valueFault? value = none ↔ value ≤ maxValue := by
  rw [valueFault?, ← Nat.not_lt]
  split
  · rename_i large
    simpa using large
  · rename_i small
    exact iff_of_true rfl small

/-- Where the value of an operand has 64 bits, nothing else can be wrong with it. -/
theorem operandFault?_eq {σ : String → Nat} {operand : List Char} (nonempty : operand ≠ [])
    (small : operandValue σ operand < UInt64.size) :
    operandFault? σ operand = valueFault? (operandValue σ operand) := by
  rw [operandFault?, if_neg nonempty]
  by_cases digits : operand.all Char.isDigit = true
  · have value : operandValue σ operand = Nat.ofDigitChars 10 operand 0 := by
      simp [operandValue, Text.decimal?, nonempty, digits]
    rw [value] at small ⊢
    rw [if_pos digits, literalFault?]
    exact if_neg (Nat.not_le.2 small)
  · have value : operandValue σ operand = σ (String.ofList operand) := by
      simp [operandValue, Text.decimal?, digits]
    rw [value, if_neg digits]
    rfl

/-- What is wrong with a computation: its first part that is in no table. -/
def computeFault? (dest comp jump : String) : Option Assembly.Error :=
  if hack.comp.code? comp = none then some (.unknownComp comp)
  else if hack.dest.code? dest = none then some (.unknownDest dest)
  else if hack.jump.code? jump = none then some (.unknownJump jump)
  else none

/-- What is wrong with the code of a line. -/
def fault? (σ : String → Nat) : List Char → Option Assembly.Error
  | [] => none
  | '(' :: _ => none
  | '@' :: operand => operandFault? σ (Text.trim operand)
  | code =>
    match Assembly.Instruction.parseCompute (code.filter fun c => !Text.isBlank c) with
    | .compute dest comp jump => computeFault? dest comp jump
    | .address _ => none

end Hack

namespace Assembly

section

variable {σ : String → Nat}

theorem failure?_literal (v : BitVec 64) :
    (Instruction.address (.literal v)).failure? hack σ =
      if Hack.maxValue < v.toNat then some (Hack.tooWide v) else none := by
  have small : v.toNat < 2 ^ 15 ↔ ¬ Hack.maxValue < v.toNat := by
    have top : Hack.maxValue = 2 ^ 15 - 1 := rfl
    omega
  rw [Instruction.failure?, Instruction.outcome, Instruction.resolved_of_symbol?_eq_none rfl,
    encode_literal]
  by_cases large : Hack.maxValue < v.toNat
  · rw [if_pos large, if_neg fun low => small.1 low large]
    rfl
  · rw [if_neg large, if_pos (small.2 large)]

theorem failure?_name (name : String) (narrow : σ name < UInt64.size) :
    (Instruction.address (.symbol name)).failure? hack σ =
      if Hack.maxValue < σ name then some (Hack.tooWide (BitVec.ofNat 64 (σ name))) else none := by
  have value : (BitVec.ofNat 64 (σ name)).toNat = σ name := by
    rw [BitVec.toNat_ofNat]
    exact Nat.mod_eq_of_lt narrow
  have literal : (Instruction.address (.symbol name)).failure? hack σ =
      (Instruction.address (.literal (BitVec.ofNat 64 (σ name)))).failure? hack σ := rfl
  rw [literal, failure?_literal, value]

theorem failure?_compute (dest comp jump : String) :
    (Instruction.compute dest comp jump).failure? hack σ = Hack.computeFault? dest comp jump := by
  rw [Instruction.failure?, Instruction.outcome, Instruction.resolved_of_symbol?_eq_none rfl,
    encode_compute, Hack.computeFault?]
  cases hack.comp.code? comp with
  | none => rfl
  | some c =>
    cases hack.dest.code? dest with
    | none => rfl
    | some d => cases hack.jump.code? jump <;> rfl

/-! ## Codes -/

variable {d : Descriptor} {l : SourceLine}

theorem reading_eq (l : SourceLine) : l.reading = Statement.parse l.code := rfl

theorem failure?_of_error {e : Error} (h : l.reading = .error e) : l.failure? d σ = some e := by
  rw [SourceLine.failure?, h]
  rfl

theorem failure?_of_instruction {i : Instruction} (h : l.reading = .ok (some (.instruction i))) :
    l.failure? d σ = i.failure? d σ := by
  rw [SourceLine.failure?, SourceLine.encodingFailure?, h]
  rfl

/-- An address fails by its operand. -/
theorem failure?_at {operand : List Char} (code : l.code = '@' :: operand)
    (narrow : ∀ name, σ name < UInt64.size) :
    l.failure? hack σ = Hack.operandFault? σ (Text.trim operand) := by
  have reading := reading_eq l
  rw [code, parse_at] at reading
  generalize Text.trim operand = s at reading ⊢
  rw [Hack.operandFault?]
  by_cases empty : s = []
  · rw [Operand.parse, if_pos (by simp [empty])] at reading
    rw [if_pos empty, failure?_of_error reading]
  have nonempty : ¬ s.isEmpty = true := by simpa using empty
  rw [if_neg empty]
  by_cases digits : s.all Char.isDigit = true
  · have value : Text.decimal? s = some (Nat.ofDigitChars 10 s 0) := by
      simp [Text.decimal?, empty, digits]
    rw [if_pos digits, Hack.literalFault?]
    rw [Operand.parse, if_neg nonempty, value] at reading
    dsimp only at reading ⊢
    by_cases large : UInt64.size ≤ Nat.ofDigitChars 10 s 0
    · rw [if_neg (Nat.not_lt.2 large)] at reading
      rw [if_pos large, failure?_of_error reading]
    · have low : Nat.ofDigitChars 10 s 0 < UInt64.size := Nat.lt_of_not_le large
      rw [if_pos low] at reading
      rw [if_neg large, failure?_of_instruction reading, failure?_literal, BitVec.toNat_ofNat,
        Nat.mod_eq_of_lt low]
  · have value : Text.decimal? s = none := by simp [Text.decimal?, digits]
    rw [Operand.parse, if_neg nonempty, value] at reading
    rw [if_neg digits, failure?_of_instruction reading, failure?_name _ (narrow _)]

/-- Behind `@` only the value can be at fault. -/
theorem failure?_operand {operand : String} (raw : l.raw = "@" ++ operand)
    (comment : ¬ ['/', '/'] <:+: operand.toList) (nonempty : Text.trim operand.toList ≠ [])
    (narrow : ∀ name, σ name < UInt64.size)
    (small : Hack.operandValue σ (Text.trim operand.toList) < UInt64.size) :
    l.failure? hack σ = Hack.valueFault? (Hack.operandValue σ (Text.trim operand.toList)) := by
  have code : l.code = '@' :: (operand.toList.reverse.dropWhile Text.isBlank).reverse := by
    rw [SourceLine.code, raw]
    exact code_at comment
  rw [failure?_at code narrow, Text.trim_dropBack, Hack.operandFault?_eq nonempty small]

/-- **A line fails by its code**, and by the address of its name if it has one. -/
theorem failure?_hack (l : SourceLine) (narrow : ∀ name, σ name < UInt64.size) :
    l.failure? hack σ = Hack.fault? σ l.code := by
  have reading := reading_eq l
  cases code : l.code with
  | nil =>
    rw [code] at reading
    rw [SourceLine.failure?, SourceLine.encodingFailure?, reading]
    rfl
  | cons c rest =>
    by_cases label : c = '('
    · rw [code, label] at reading
      rw [label, SourceLine.failure?, SourceLine.encodingFailure?, reading]
      rfl
    by_cases at_sign : c = '@'
    · rw [at_sign] at code ⊢
      exact failure?_at code narrow
    · rw [code, parse_of_head label at_sign] at reading
      have fault : Hack.fault? σ (c :: rest) =
          (Instruction.parseCompute ((c :: rest).filter (!Text.isBlank ·))).failure? hack σ := by
        rw [Hack.fault?]
        · exact (failure?_compute ..).symm
        · simp
        · simpa using label
        · simpa using at_sign
      rw [fault, failure?_of_instruction reading]

/-! ## Counts -/

/-- The first fields of the instruction, each filled, have more bits than can be counted. -/
def Instruction.Overfills (d : Descriptor) (σ : String → Nat) (i : Instruction) : Prop :=
  ∃ layout front pieces, d.layout? i.shape = some layout ∧ front <+: layout.fields ∧
    List.Forall₂ ((i.resolved σ).HasBits d (.ofDescriptor d)) front pieces ∧
    UInt64.size ≤ (pieces.map Bits.width).sum

/-- **Only an instruction that has too many bits fails by a count.** -/
theorem overfills_of_outcome {i : Instruction} {e : Error} (h : i.outcome d σ = .error e)
    (overflow : e.isOverflow = true) : e = .uncountableWord ∧ i.Overfills d σ := by
  cases Instruction.fault_of_encode (Prod.ext h rfl) with
  | layout | width => cases overflow
  | field _ _ failed => simp [fieldBits_not_overflow failed] at overflow
  | uncountable hl filled =>
    have sound : ∀ f width t, (i.resolved σ).fieldBits d f width t ≠ .error .uncountableWord :=
      fun f width t failed => by cases fieldBits_not_overflow failed
    obtain ⟨front, pieces, within, all, many⟩ := Instruction.encodeFields_overfull sound filled
    refine ⟨rfl, _, front, pieces, Instruction.shape_resolved σ i ▸ hl, within, all, ?_⟩
    rwa [Bits.empty, Nat.zero_add] at many

theorem overfills_of_failure? {e : Error} (h : l.failure? d σ = some e)
    (overflow : e.isOverflow = true) :
    e = .uncountableWord ∧ ∃ i, l.reading = .ok (some (.instruction i)) ∧ i.Overfills d σ := by
  rcases failure?_eq_some.1 h with unread | ⟨i, read, failed⟩
  · rcases error_of_reading unread with rfl | ⟨digits, rfl⟩ <;> cases overflow
  · obtain ⟨same, overfills⟩ := overfills_of_outcome failed overflow
    exact ⟨same, i, read, overfills⟩

/-- Nothing that can be wrong with a line of the Hack machine is a matter of counts. -/
theorem fault?_not_overflow {code : List Char} {e : Error} (h : Hack.fault? σ code = some e) :
    e.isOverflow = false := by
  unfold Hack.fault? at h
  split at h
  · cases h
  · cases h
  · simp only [Hack.operandFault?, Hack.literalFault?] at h
    repeat' split at h
    all_goals cases h <;> rfl
  · split at h
    · unfold Hack.computeFault? at h
      repeat' split at h
      all_goals cases h <;> rfl
    · cases h

/-! ## Reports -/

/-- Names stand for addresses of 32 bits. -/
theorem addressOf_le {source : List Reading} (countable : Countable hack source) (name : String) :
    addressOf hack source name ≤ maxAddress := by
  have predefined : ∀ entry ∈ hack.symbols.entries, entry.2 ≤ maxAddress := by decide +kernel
  rw [addressOf, symbolOf]
  cases h : hack.symbols.get? name with
  | some address => exact predefined _ (Table.get?_eq_some_iff.1 h)
  | none =>
    dsimp only
    split
    · exact Nat.le_trans (List.takeWhile_sublist _).countP_le countable.words
    · split
      · have names := countable.names
        rw [operandNames_eq, if_pos (by rfl)] at names
        have earlier := length_newNames_append (boundNames hack source)
          ((symbolsUsed (instructions source)).takeWhile (· ≠ name))
          ((symbolsUsed (instructions source)).dropWhile (· ≠ name))
        rw [List.takeWhile_append_dropWhile] at earlier
        exact Nat.le_trans (Nat.add_le_add_left earlier _) names
      · exact Nat.zero_le _

theorem addressOf_lt {source : List Reading} (countable : Countable hack source) (name : String) :
    addressOf hack source name < UInt64.size :=
  Nat.lt_of_le_of_lt (addressOf_le countable name) (by decide)

end

/-- **All or nothing, with a complete and exact report.** Assembling fails if and only if a
line fails. Then the lines that cannot be read are reported in their order, and after them
those that cannot be encoded, so that every line that fails is there once. No address is missing, and
no word is given up as too wide to count but one with 2 ^ 64 bits or more. Whatever fails,
the table of the second pass is the same: a label has the number of instructions and of
unreadable lines in front of it, and the variables follow each other as they are used. On the
Hack machine a line fails by its code and the address of its name, and never by a count. -/
theorem assemble_reports {d : Descriptor} {lines : List SourceLine}
    (countable : Countable d (lines.map SourceLine.reading)) :
    let source := lines.map SourceLine.reading
    let σ := addressOf d source
    let table := (Output.ofSurvey d (Survey.ofLines d lines)).symbols
    ((∃ ds, assemble d lines = .error ds) ↔ ∃ l ∈ lines, l.failure? d σ ≠ none) ∧
    (∀ ds, assemble d lines = .error ds →
      ds = (lines.filterMap fun l => l.reading.error?.map fun e => ⟨l, e⟩) ++
        (lines.filterMap fun l => (l.encodingFailure? d σ).map fun e => ⟨l, e⟩) ∧
      (ds.map Diagnostic.line).Perm (lines.filter fun l => (l.failure? d σ).isSome) ∧
      ∀ r ∈ ds, r.line.failure? d σ = some r.error ∧ r.error ≠ .addressesExhausted ∧
        (r.error.isOverflow = true →
          ∃ i, r.line.reading = .ok (some (.instruction i)) ∧ i.Overfills d σ)) ∧
    (table.entries = tableEntries d source ∧ table.Agrees σ) ∧
    (∀ before r after name, source = before ++ r :: after → r.label? = some name →
      name ∉ labelNames before → d.symbols.get? name = none →
      σ name = (instructions before).length + (before.filterMap Reading.error?).length) ∧
    (d = hack → ∀ l : SourceLine, l.failure? d σ = Hack.fault? σ l.code ∧
      ∀ e, l.failure? d σ = some e → e.isOverflow = false) := by
  intro source σ table
  have entries : table.entries = tableEntries d source := (output_reports countable).1
  refine ⟨?_, ?_, ⟨entries, ?_⟩, fun _ _ _ _ => addressOf_label, ?_⟩
  · have fails : (∃ ds, assemble d lines = .error ds) ↔ ¬ ∃ p, assemble d lines = .ok p := by
      cases assemble d lines <;> simp
    rw [fails, assembles_iff countable]
    simp only [not_forall, exists_prop]
    rfl
  · intro ds h
    obtain rfl := eq_reports countable h
    refine ⟨by rw [unencodable_eq, unreadable], (lines_reported d σ lines).2, ?_⟩
    intro r hr
    obtain ⟨-, failed⟩ := failure?_of_mem_reports hr
    refine ⟨failed, ?_, fun overflow => (overfills_of_failure? failed overflow).2⟩
    intro exhausted
    have wide := (overfills_of_failure? failed (by rw [exhausted]; rfl)).1
    rw [exhausted] at wide
    cases wide
  · exact SymbolTable.agrees_of_entries (entries ▸ tableEntries_subset d source)
  · rintro rfl l
    have failure := failure?_hack l (addressOf_lt countable)
    exact ⟨failure, fun e failed => fault?_not_overflow (failure ▸ failed)⟩

/-- Lines of every kind that fails, among labels and names that are used before and after
them. -/
def faultyLines : List SourceLine :=
  SourceLine.ofRaws "faulty.asm"
    ["@ // nothing", "(loop)", "D=D*A", "@40000", "@x", "Q=D;JXX", "@loop",
     "@99999999999999999999", "(end)", "@end", "0;JXX"]

theorem assemble_reports_faulty :
    ∃ ds, assemble hack faultyLines = .error ds ∧
      ds.map (fun r => (r.line.number, r.error)) =
        [(1, .missingOperand), (8, .literalTooLarge "99999999999999999999"),
         (3, .unknownComp "D*A"), (4, .wordWidth ⟨40000, 17⟩ 16), (6, .unknownDest "Q"),
         (11, .unknownJump "JXX")] := by
  have countable : Countable hack (faultyLines.map SourceLine.reading) :=
    ⟨by decide +kernel, by decide +kernel⟩
  obtain ⟨fails, reports, -⟩ := assemble_reports countable
  obtain ⟨ds, failed⟩ := fails.2 ⟨faultyLines[0], by decide, by decide +kernel⟩
  refine ⟨ds, failed, ?_⟩
  rw [(reports ds failed).1]
  decide +kernel

end Assembly

end HackToolchain
