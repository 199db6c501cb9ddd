import HackToolchain.Proofs.Assembly.Diagnosis
import HackToolchain.Proofs.Machine.Mnemonics

/-!
# Listings of the ROM are assembled to the same words

* `Settled`: an instruction that needs no table is printed by the ROM as it is written, and read
  back;
* `assemble_nameless`: a source without names is assembled word by word;
* `disassembled`: the listing of a loaded program is assembled to the program again.
-/

namespace HackToolchain

open Assembly (Instruction Program Reading)

/-- The ROM line by line, as the machine prints it. -/
def Machine.disassembly (m : Machine) (d : Descriptor) : String :=
  "\n".intercalate (m.rom.toList.map (Decoded.text d))

/-! ## Instructions without names -/

/-- An instruction that the machine has a word for as it is. -/
structure Assembly.Instruction.Settled (i : Instruction) : Prop where
  nameless : i.symbol? = none
  encoded : ∃ w, (i.encode hack (.ofDescriptor hack)).1 = .ok w

namespace Assembly.Instruction.Settled

variable {i : Instruction}

/-- The ROM prints an instruction as it is written. -/
theorem text_imageOf (h : i.Settled) : (imageOf i).text hack = i.text := by
  obtain ⟨nameless, w, encoded⟩ := h
  cases i with
  | address operand =>
    cases operand with
    | symbol name => cases nameless
    | literal v =>
      obtain ⟨small, -⟩ := encoded_address encoded
      have value : (v.setWidth 32).toNat = v.toNat := by
        rw [BitVec.toNat_setWidth, Nat.mod_eq_of_lt (by omega)]
      rw [imageOf, Decoded.text, value]
      rfl
  | compute dest comp jump =>
    obtain ⟨c, d, j, hc, hd, hj, -⟩ := encoded_compute encoded
    have name : ∀ {codes : TwoWay String Bits} {m : String} {code : Bits},
        codes.code? m = some code → Decoded.nameOf codes code = m := by
      intro codes m code h
      rw [Decoded.nameOf, TwoWay.name?_eq_some_iff.2 (TwoWay.code?_eq_some_iff.1 h),
        Option.getD_some]
    rw [imageOf, hc, hd, hj]
    simp only [Option.getD_some, Decoded.text, name hc, name hd, name hj]
    rfl

theorem plain (h : i.Settled) : i.Plain ∧ '?' ∉ i.text.toList := by
  obtain ⟨nameless, w, encoded⟩ := h
  cases i with
  | address operand =>
    cases operand with
    | symbol name => cases nameless
    | literal v =>
      refine ⟨trivial, ?_⟩
      have digits : '?' ∉ Nat.toDigits 10 v.toNat := Text.notMem_toDigits (by decide) _
      simpa [Instruction.text, Operand.text] using digits
  | compute dest comp jump =>
    obtain ⟨c, d, j, hc, hd, hj, -⟩ := encoded_compute encoded
    exact Hack.plain_of_codes hc hd hj

theorem reading_text (h : i.Settled) : Reading.ofText i.text = .ok (some (.instruction i)) :=
  Assembly.reading_text (s := .instruction i) h.plain.1

/-- The text is one line, which is not empty. -/
theorem line (h : i.Settled) : (∀ c ∈ i.text.toList, Text.isBlank c = false) ∧ i.text.toList ≠ [] := by
  constructor
  · have plain := h.plain.1
    cases i with
    | compute dest comp jump => exact fun c hc => (chars_of_spelling plain (spelling_text _ _ _) c hc).1
    | address operand =>
      cases operand with
      | symbol name => cases h.nameless
      | literal v =>
        intro c hc
        have text : (Instruction.address (.literal v)).text.toList =
            '@' :: Nat.toDigits 10 v.toNat := by
          simp [Instruction.text, Operand.text]
        rw [text] at hc
        rcases List.mem_cons.1 hc with rfl | hc
        · decide
        · exact Text.isBlank_of_isDigit (Text.isDigit_of_mem_toDigits hc)
  · intro empty
    have read := h.reading_text
    rw [String.toList_eq_nil_iff.1 empty] at read
    cases read

end Assembly.Instruction.Settled

/-! ## Listings -/

namespace Assembly

/-- A source of instructions without names is assembled word by word. -/
theorem assemble_nameless {d : Descriptor} {lines : List SourceLine} {code : List Instruction}
    {words : List Bits}
    (reads : lines.map SourceLine.reading = code.map fun i => .ok (some (.instruction i)))
    (nameless : ∀ i ∈ code, i.symbol? = none)
    (encoded : code.map (fun i => (i.encode d (.ofDescriptor d)).1) = words.map .ok)
    (short : words.length ≤ maxAddress) (room : d.varBase ≤ maxAddress) :
    ∃ p, assemble d lines = .ok p ∧ p.symbols.entries = predefinedEntries d ∧ p.words = words := by
  have length : code.length = words.length := by simpa using congrArg List.length encoded
  have is : instructions (lines.map SourceLine.reading) = code := by
    rw [reads, instructions, List.filterMap_map]
    exact List.filterMap_some
  have labels : labelNames (lines.map SourceLine.reading) = [] := by
    rw [reads, labelNames, List.filterMap_map]
    exact List.filterMap_eq_nil_iff.2 fun _ _ => rfl
  have names : operandNames d code = [] := by
    rw [operandNames]
    apply List.filterMap_eq_nil_iff.2
    intro i hi
    rw [Instruction.operandName?, nameless i hi, ite_self]
  have countable : Countable d (lines.map SourceLine.reading) := by
    constructor
    · calc wordCount (lines.map SourceLine.reading)
          ≤ (lines.map SourceLine.reading).length := List.countP_le_length
        _ = words.length := by rw [reads, List.length_map, length]
        _ ≤ maxAddress := short
    · rw [is, names, newNames_nil]
      exact room
  have outcomes : ∀ σ, code.map (Instruction.outcome d σ) = words.map .ok := by
    intro σ
    rw [← encoded]
    apply List.map_congr_left
    intro i hi
    rw [Instruction.outcome, Instruction.resolved_of_symbol?_eq_none (nameless i hi)]
  have clean : ∀ σ, ∀ l ∈ lines, l.failure? d σ = none := by
    intro σ l hl
    have reading : l.reading ∈ lines.map SourceLine.reading := List.mem_map.2 ⟨l, hl, rfl⟩
    rw [reads] at reading
    obtain ⟨i, hi, says_i⟩ := List.mem_map.1 reading
    have outcome : i.outcome d σ ∈ words.map .ok := outcomes σ ▸ List.mem_map.2 ⟨i, hi, rfl⟩
    obtain ⟨w, -, hw⟩ := List.mem_map.1 outcome
    rw [failure?_of_instruction says_i.symm, Instruction.failure?, ← hw]
  obtain ⟨p, entries, made, done⟩ := assemble_eq countable
  refine ⟨p, ?_, ?_, ?_⟩
  · rw [done, if_pos (reports_eq_nil_iff.2 (clean _))]
  · rw [entries, tableEntries, labelEntries, labels, is, names, newNames_nil, variableEntries,
      newNames_nil]
    simp
  · calc p.words
        = (code.map (Instruction.outcome d _)).filterMap Except.toOption := by
          rw [made, is, List.filterMap_map]
          rfl
      _ = words := by
          rw [outcomes, List.filterMap_map]
          exact List.filterMap_some

end Assembly

/-! ## The listing of a program -/

/-- The instructions of a source with their names replaced by addresses. -/
def resolvedCode (source : List Reading) : List Instruction :=
  (Assembly.instructions source).map (Instruction.resolved (Assembly.addressOf hack source))

section

variable {source : List Reading} {p : Program}

theorem romOf_eq (source : List Reading) :
    romOf source = ((resolvedCode source).map imageOf).toArray := by
  rw [romOf, resolvedCode, List.map_map]
  rfl

theorem words_of_resolvedCode (means : p.Means hack source) :
    (resolvedCode source).map (fun i => (i.encode hack (.ofDescriptor hack)).1) =
      p.words.map .ok := by
  rw [← means.words (.ofDescriptor hack), resolvedCode, List.map_map]
  rfl

theorem settled_of_means (means : p.Means hack source) :
    ∀ i ∈ resolvedCode source, i.Settled := by
  intro i hi
  constructor
  · obtain ⟨j, -, rfl⟩ := List.mem_map.1 hi
    exact symbol?_resolved _ j
  · have there : (i.encode hack (.ofDescriptor hack)).1 ∈ p.words.map .ok :=
      words_of_resolvedCode means ▸ List.mem_map.2 ⟨i, hi, rfl⟩
    obtain ⟨w, -, hw⟩ := List.mem_map.1 there
    exact ⟨w, hw.symm⟩

end

section

variable {code : List Instruction}

/-- The listing is read line by line as the instructions that it shows. -/
theorem readings_of_listing (file : String) (settled : ∀ i ∈ code, i.Settled) :
    (SourceLine.ofText file ("\n".intercalate (code.map Instruction.text))).map
      SourceLine.reading = code.map fun i => .ok (some (.instruction i)) := by
  have lines : Text.lines ("\n".intercalate (code.map Instruction.text)).toList =
      code.map fun i => i.text.toList := by
    have line : ∀ l ∈ code.map (fun i => i.text.toList),
        (∀ c ∈ l, Text.isBlank c = false) ∧ l ≠ [] := by
      intro l hl
      obtain ⟨i, hi, rfl⟩ := List.mem_map.1 hl
      exact (settled i hi).line
    rw [String.toList_intercalate, List.map_map]
    apply Text.lines_of_intercalated
    · exact fun l hl hc => absurd ((line l hl).1 _ hc) (by decide)
    · exact fun l hl hc => absurd ((line l hl).1 _ hc) (by decide)
    · exact fun l hl => (line l hl).2
  calc (SourceLine.ofText file ("\n".intercalate (code.map Instruction.text))).map
        SourceLine.reading
      = ((SourceLine.ofText file ("\n".intercalate (code.map Instruction.text))).map
          SourceLine.raw).map Reading.ofText := (List.map_map ..).symm
    _ = code.map fun i => Reading.ofText i.text := by
        rw [SourceLine.ofText, SourceLine.raw_ofRaws, lines]
        simp
    _ = code.map fun i => .ok (some (.instruction i)) :=
        List.map_congr_left fun i hi => (settled i hi).reading_text

end

/-- **Disassembling and assembling again changes nothing.** A program of the Hack machine that
is short enough is loaded into one instruction for each word. All of them are printed in
mnemonics of the machine, and what is printed, as one text, is assembled to the same words
with no names but the predefined ones. -/
theorem disassembled {lines : List SourceLine} {p : Program}
    (assembled : Assembly.assemble hack lines = .ok p) (short : p.words.length ≤ romSize)
    (m : Machine) (file : String) :
    ∃ loaded, m.load hack p.toText = .ok loaded ∧ loaded.rom.size = p.words.length ∧
      (∀ i ∈ loaded.rom, '?' ∉ (i.text hack).toList) ∧
      ∃ p', Assembly.assemble hack (SourceLine.ofText file (loaded.disassembly hack)) = .ok p' ∧
        p'.symbols.entries = Assembly.predefinedEntries hack ∧ p'.words = p.words := by
  have means : p.Means hack (lines.map SourceLine.reading) := by
    apply Assembly.means_of_assemble _ assembled
    intro layout there
    obtain rfl := Option.some.inj there
    decide
  have settled := settled_of_means means
  have words := words_of_resolvedCode means
  have rom := romOf_eq (lines.map SourceLine.reading)
  generalize resolvedCode (lines.map SourceLine.reading) = code at settled words rom
  have loaded := load_of_means means short m
  rw [rom] at loaded
  refine ⟨_, loaded, ?_, ?_, ?_⟩
  · simpa using congrArg List.length words
  · intro image himage
    obtain ⟨i, hi, rfl⟩ := List.mem_map.1 (List.mem_toArray.1 himage)
    rw [(settled i hi).text_imageOf]
    exact (settled i hi).plain.2
  · have listing : Machine.disassembly { m with rom := (code.map imageOf).toArray, pc := 0 } hack =
        "\n".intercalate (code.map Instruction.text) := by
      rw [Machine.disassembly, List.map_map]
      exact congrArg _ (List.map_congr_left fun i hi => (settled i hi).text_imageOf)
    rw [listing]
    exact Assembly.assemble_nameless (readings_of_listing file settled)
      (fun i hi => (settled i hi).nameless) words (Nat.le_trans short (by decide)) (by decide)

/-- A loop with a label, a variable and computations with and without destination and jump. -/
def countdownLines : List SourceLine :=
  SourceLine.ofRaws "countdown.asm"
    ["@10", "D=A", "@i // so often", "M=D", "(loop)", "@i", "MD = M-1", "@loop", "D; JGT", "(end)",
     "@end", "0;JMP"]

theorem disassembled_countdown :
    ∃ p loaded p', Assembly.assemble hack countdownLines = .ok p ∧
      Machine.initial.load hack p.toText = .ok loaded ∧
      loaded.disassembly hack =
        "@10\nD=A\n@16\nM=D\n@16\nMD=M-1\n@4\nD;JGT\n@8\n0;JMP" ∧
      Assembly.assemble hack (SourceLine.ofText "listing.asm" (loaded.disassembly hack)) =
        .ok p' ∧ p'.words = p.words := by
  have done : ((Assembly.assemble hack countdownLines).toOption.bind fun p =>
      (Machine.initial.load hack p.toText).toOption.map fun loaded =>
        (p.words.length, loaded.disassembly hack)) =
      some (10, "@10\nD=A\n@16\nM=D\n@16\nMD=M-1\n@4\nD;JGT\n@8\n0;JMP") := by
    decide +kernel
  cases h : Assembly.assemble hack countdownLines with
  | error e =>
    rw [h] at done
    cases done
  | ok p =>
    rw [h] at done
    obtain ⟨loaded, load, shown⟩ := Option.map_eq_some_iff.1 done
    obtain ⟨length, listing⟩ := Prod.mk.injEq .. ▸ shown
    obtain ⟨loaded', load', -, -, p', again, -, words⟩ :=
      disassembled h (length ▸ by decide) Machine.initial "listing.asm"
    obtain rfl : loaded' = loaded := by
      rw [load'] at load
      exact Option.some.inj load
    exact ⟨p, loaded', p', rfl, load', listing, again, words⟩

end HackToolchain
