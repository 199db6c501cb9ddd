import HackToolchain.Assembly.Listing
import HackToolchain.Proofs.Assembly.Made
import Mathlib.Data.List.Forall2

/-!
# Listings show the program

* `Row.Reads`: what is printed for a row, to the letter;
* `Listing.walked`: the listing counts instructions as the first pass does, and takes the words one
  by one;
* `Program.MadeOf.listed`: the table behind the lines holds the labels and the variables;
* `listing_shows_program`: so the listing shows each line beside what was made of it.
-/

namespace HackToolchain.Assembly

/-! ## What is printed -/

/-- A number in four capital hexadecimal digits, or as many as it takes. -/
def hexDigits (n : Nat) : String :=
  String.ofList (((Nat.toDigits 16 n).map Char.toUpper).leftpad 4 '0')

/-- The number of a line, the first being one, flush right in four places. -/
def lineDigits (l : SourceLine) : String :=
  String.ofList ((toString (l.index + 1)).toList.leftpad 4 ' ')

/-- The comment of a line, dimmed. -/
def dimmed : Option String → String
  | none => ""
  | some comment => "\x1b[2m//" ++ comment ++ "\x1b[22m"

/-- An instruction in colours: names in green, numbers in yellow, and the three parts of a
computation in blue, red and magenta. -/
def Instruction.coloured : Instruction → String
  | address (.literal value) => "\x1b[33m@\x1b[39m\x1b[33m" ++ toString value.toNat ++ "\x1b[39m"
  | address (.symbol name) => "\x1b[33m@\x1b[39m\x1b[32m" ++ name ++ "\x1b[39m"
  | compute dest comp jump =>
    (if dest = "null" then "" else "\x1b[34m" ++ dest ++ "\x1b[39m=") ++
      "\x1b[31m" ++ comp ++ "\x1b[39m" ++
      (if jump = "null" then "" else ";\x1b[35m" ++ jump ++ "\x1b[39m")

/-- What is printed for a row. There is nothing to print for an instruction without a word, nor for a
predefined name. -/
inductive Row.Reads : Row → String → Prop
  | fileHead (file : String) :
    Reads (.fileHead file) ("------------------------+------[" ++ file ++ "]" ++
      String.ofList (List.replicate (45 - file.utf8ByteSize) '-'))
  | word (counter : Nat) (w : Bits) (l : SourceLine) (i : Instruction) :
    Reads (.word counter (some w) l i) ("[" ++ hexDigits counter ++ "] " ++ w.toString ++ " | " ++
      lineDigits l ++ ":   " ++ i.coloured ++ " " ++ dimmed l.comment?)
  | label (l : SourceLine) (name : String) (address : Nat) :
    Reads (.label l name address) ("                        | " ++ lineDigits l ++
      ": \x1b[32m(" ++ name ++ ")\x1b[39m = " ++ hexDigits address ++ " " ++ dimmed l.comment?)
  | plain (l : SourceLine) :
    Reads (.plain l) ("                        | " ++ lineDigits l ++ ": " ++ dimmed l.comment?)
  | rule :
    Reads .rule
      "------------------------+-------------------------------------------------------"
  | labelEntry (name : String) (address : Nat) :
    Reads (.symbol name ⟨.label, address⟩)
      ("  " ++ hexDigits address ++ " \x1b[32m" ++ name ++ "\x1b[39m")
  | varEntry (name : String) (address : Nat) :
    Reads (.symbol name ⟨.var, address⟩)
      ("  " ++ hexDigits address ++ " \x1b[36m" ++ name ++ "\x1b[39m")

namespace Row

theorem padLeft_eq (width : Nat) (fill : Char) (s : String) :
    Text.padLeft width fill s = String.ofList (s.toList.leftpad width fill) := by
  apply String.toList_inj.1
  rw [Text.padLeft, String.toList_append, String.toList_ofList, String.toList_ofList, List.leftpad,
    String.length_toList]

theorem hex4_eq (n : Nat) : Text.hex4 n = hexDigits n := by
  rw [Text.hex4, padLeft_eq, String.toList_ofList, hexDigits]

theorem number_eq (l : SourceLine) : Text.padLeft 4 ' ' l.number.repr = lineDigits l :=
  padLeft_eq 4 ' ' _

theorem margin_eq (l : SourceLine) :
    margin l = "                        | " ++ lineDigits l ++ ": " := by
  have blank : Text.padLeft 24 ' ' "" = "                        " := by decide
  apply String.toList_inj.1
  simp [margin, blank, number_eq]

/-- A text in one style stands between two codes. -/
theorem toList_paint (style : Style) (text : String) :
    (Style.paint [style] text).toList =
      "\x1b[".toList ++ style.onCode.toList ++ "m".toList ++ text.toList ++
        "\x1b[".toList ++ style.offCode.toList ++ "m".toList := by
  simp [Style.paint, Style.escape]

theorem comment_eq (l : SourceLine) : comment l = dimmed l.comment? := by
  unfold comment dimmed
  cases l.comment? with
  | none => rfl
  | some c =>
    apply String.toList_inj.1
    simp [toList_paint, Style.onCode, Style.offCode]

theorem styled_eq (i : Instruction) : i.styled = i.coloured := by
  apply String.toList_inj.1
  rcases i with (value | name) | ⟨dest, comp, jump⟩
  · simp [Instruction.styled, Instruction.coloured, Operand.styled, toList_paint, Style.onCode,
      Style.offCode]
  · simp [Instruction.styled, Instruction.coloured, Operand.styled, toList_paint, Style.onCode,
      Style.offCode]
  · rw [Instruction.styled, Instruction.coloured]
    split <;> split <;> simp [toList_paint, Style.onCode, Style.offCode]

/-- **A row has the text that is printed for it**, if it has a word to show. -/
theorem reads_text {row : Row} (word : ∀ counter l i, row ≠ .word counter none l i)
    (entry : ∀ name address, row ≠ .symbol name ⟨.predefined, address⟩) : row.Reads row.text := by
  have as_text : ∀ text : String, row.Reads text → row.text.toList = text.toList →
      row.Reads row.text :=
    fun text reads same => String.toList_inj.1 same ▸ reads
  cases row with
  | fileHead file => exact as_text _ (.fileHead file) (by simp [text, dashes, List.replicate])
  | word counter w l i =>
    cases w with
    | none => exact absurd rfl (word counter l i)
    | some w =>
      refine as_text _ (.word counter w l i) ?_
      simp [text, wordText, hex4_eq, number_eq, styled_eq, comment_eq]
  | label l name address =>
    refine as_text _ (.label l name address) ?_
    simp [text, margin_eq, hex4_eq, comment_eq, toList_paint, Style.onCode, Style.offCode]
  | plain l =>
    refine as_text _ (.plain l) ?_
    simp [text, margin_eq, comment_eq]
  | rule => exact as_text _ .rule (by decide)
  | symbol name s =>
    obtain ⟨kind, address⟩ := s
    cases kind with
    | predefined => exact absurd rfl (entry name address)
    | label =>
      refine as_text _ (.labelEntry name address) ?_
      simp [text, hex4_eq, toList_paint, Style.onCode, Style.offCode]
    | var =>
      refine as_text _ (.varEntry name address) ?_
      simp [text, hex4_eq, toList_paint, Style.onCode, Style.offCode]

end Row

/-! ## The walk through the lines -/

/-- The word that a row shows, if it has one, and the counter in front of it. -/
def Row.word? : Row → Option (Option Bits × Nat)
  | .word counter w _ _ => some (w, counter)
  | _ => none

namespace Listing

/-- What stands in front of the first line of a file. -/
def heading (l : SourceLine) : List Row := if l.index = 0 then [.fileHead l.file] else []

/-- The row of a line with the number of instructions before it and the word that is next. -/
def rowOf (symbols : SymbolTable) (count : Nat) (word : Option Bits) (l : SourceLine) : Row :=
  match l.reading with
  | .ok (some (.instruction i)) => .word count word l i
  | .ok (some (.label name)) => .label l name ((symbols.address? name).getD 0)
  | _ => .plain l

section

variable (symbols : SymbolTable) (s : Listing) (l : SourceLine)

theorem step_eq :
    s.step symbols l =
      let rows := if l.index = 0 then s.rows.push (.fileHead l.file) else s.rows
      match l.reading with
      | .ok (some (.instruction i)) =>
        ⟨rows.push (.word s.counter s.rest.head? l i), s.counter + 1, s.rest.tail⟩
      | .ok (some (.label name)) =>
        { s with rows := rows.push (.label l name ((symbols.address? name).getD 0)) }
      | _ => { s with rows := rows.push (.plain l) } := rfl

theorem step_rows :
    (s.step symbols l).rows.toList =
      s.rows.toList ++ (heading l ++ [rowOf symbols s.counter s.rest.head? l]) := by
  have front : (if l.index = 0 then s.rows.push (.fileHead l.file) else s.rows).toList =
      s.rows.toList ++ heading l := by
    unfold heading
    split <;> simp
  rw [← List.append_assoc, ← front, rowOf, step_eq]
  rcases l.reading with e | _ | name | i <;> exact Array.toList_push

theorem step_counter :
    (s.step symbols l).counter = s.counter + if l.reading.instruction?.isSome then 1 else 0 := by
  rw [step_eq]
  rcases l.reading with e | _ | name | i <;> rfl

theorem step_rest :
    (s.step symbols l).rest = s.rest.drop (if l.reading.instruction?.isSome then 1 else 0) := by
  rw [step_eq]
  rcases l.reading with e | _ | name | i
  · rfl
  · rfl
  · rfl
  · exact (List.drop_one).symm

end

/-- The number of instructions in lines. -/
def countOf (lines : List SourceLine) : Nat := (instructions (lines.map SourceLine.reading)).length

/-- The rows of lines, one for each. -/
def rowsFor (p : Program) (lines : List SourceLine) : List Row :=
  lines.mapIdx fun k l =>
    rowOf p.symbols (countOf (lines.take k)) p.words[countOf (lines.take k)]? l

theorem countOf_concat (lines : List SourceLine) (l : SourceLine) :
    countOf (lines ++ [l]) = countOf lines + if l.reading.instruction?.isSome then 1 else 0 := by
  rw [countOf, List.map_append, List.map_singleton, instructions, filterMap_concat,
    List.length_append]
  cases l.reading.instruction? <;> rfl

theorem rowsFor_concat (p : Program) (lines : List SourceLine) (l : SourceLine) :
    rowsFor p (lines ++ [l]) =
      rowsFor p lines ++ [rowOf p.symbols (countOf lines) p.words[countOf lines]? l] := by
  rw [rowsFor, List.mapIdx_concat, List.take_left]
  congr 1
  apply List.mapIdx_eq_mapIdx_iff.2
  intro k hk
  rw [List.take_append_of_le_length (Nat.le_of_lt hk)]

/-- What the listing holds when it has gone through lines: so many words are gone as instructions were
counted. -/
structure Walked (p : Program) (lines : List SourceLine) (s : Listing) : Prop where
  rows : s.rows.toList =
    (List.zipWith (fun l row => heading l ++ [row]) lines (rowsFor p lines)).flatten
  counter : s.counter = countOf lines
  rest : s.rest = p.words.drop (countOf lines)

/-- One more line. -/
theorem Walked.step {p : Program} {lines : List SourceLine} {s : Listing} (h : Walked p lines s)
    (l : SourceLine) : Walked p (lines ++ [l]) (s.step p.symbols l) where
  rows := by
    have size : lines.length = (rowsFor p lines).length := by rw [rowsFor, List.length_mapIdx]
    rw [step_rows, h.rows, h.counter, h.rest, List.head?_drop, rowsFor_concat,
      List.zipWith_append size, List.flatten_append]
    simp
  counter := by rw [step_counter, h.counter, countOf_concat]
  rest := by rw [step_rest, h.rest, List.drop_drop, countOf_concat]

/-- **The listing keeps in step with the first pass.** -/
theorem walked (p : Program) (lines : List SourceLine) :
    Walked p lines (lines.foldl (step p.symbols) ⟨#[], 0, p.words⟩) := by
  induction lines using List.reverseRecOn with
  | nil => exact ⟨rfl, rfl, rfl⟩
  | append_singleton lines l ih =>
    rw [List.foldl_append]
    exact ih.step l

theorem words_rowOf (symbols : SymbolTable) (count : Nat) (w : Option Bits) (l : SourceLine) :
    (rowOf symbols count w l).word? =
      if l.reading.instruction?.isSome then some (w, count) else none := by
  rw [rowOf]
  rcases l.reading with e | _ | name | i <;> rfl

/-- The words are taken one by one. -/
theorem words_rowsFor (p : Program) (lines : List SourceLine) :
    (rowsFor p lines).filterMap Row.word? =
      (List.range (countOf lines)).map fun k => (p.words[k]?, k) := by
  induction lines using List.reverseRecOn with
  | nil => rfl
  | append_singleton lines l ih =>
    rw [rowsFor_concat, filterMap_concat, ih, words_rowOf, countOf_concat]
    split
    · rw [List.range_succ, List.map_append]
      rfl
    · simp

end Listing

/-! ## Listings of programs -/

/-- The row shows the line with what was made of it. -/
def Row.Shows (d : Descriptor) (p : Program) (before : List SourceLine) (l : SourceLine)
    (row : Row) : Prop :=
  match l.reading with
  | .ok (some (.instruction i)) => ∃ w, row = .word (Listing.countOf before) (some w) l i ∧
      p.words[Listing.countOf before]? = some w ∧ i.outcome d p.symbols.addresses = .ok w
  | .ok (some (.label name)) => ∃ address, row = .label l name address ∧
      p.symbols.address? name = some address ∧
      (name ∉ d.symbols.keys → name ∉ labelNames (before.map SourceLine.reading) →
        address = Listing.countOf before)
  | .ok none => row = .plain l
  | .error _ => False

/-- The entries are the labels, as they are first bound, and behind them the variables, as they are
first used. -/
structure SymbolTable.Listed (d : Descriptor) (source : List Reading) (s : SymbolTable)
    (shown : List (String × Symbol)) : Prop where
  complete : ∀ name symbol,
    (name, symbol) ∈ shown ↔ s.get? name = some symbol ∧ symbol.kind ≠ .predefined
  once : (shown.map Prod.fst).Nodup
  order : shown.map (fun e => (e.1, e.2.kind)) =
    (newNames d.symbols.keys (labelNames source)).map (·, .label) ++
      (newNames (boundNames d source) (operandNames d (instructions source))).map (·, .var)
  unknown : ∀ e ∈ shown, e.1 ∉ d.symbols.keys

section

variable {d : Descriptor} {lines : List SourceLine} {p : Program}

/-- What the listing shows of the table. -/
theorem Program.MadeOf.defined_eq {source : List Reading} (h : p.MadeOf d source) :
    p.symbols.defined = labelEntries d.symbols.keys source ++
      variableEntries d.varBase (boundNames d source) (operandNames d (instructions source)) := by
  have dropped : (predefinedEntries d).filter (fun e => e.2.kind ≠ .predefined) = [] := by
    rw [predefinedEntries, List.filter_map, List.filter_eq_nil_iff.2 (by simp)]
    rfl
  have kept : ∀ e ∈ labelEntries d.symbols.keys source ++
      variableEntries d.varBase (boundNames d source) (operandNames d (instructions source)),
      e.2.kind ≠ .predefined := by
    rintro ⟨name, symbol⟩ there
    rw [List.mem_append, labelEntries, variableEntries, mem_tagged, mem_tagged] at there
    rcases there with ⟨-, rfl⟩ | ⟨-, rfl⟩ <;> simp
  rw [SymbolTable.defined, h.entries, tableEntries, List.append_assoc, List.filter_append, dropped,
    List.nil_append]
  exact List.filter_eq_self.2 fun e there => decide_eq_true (kept e there)

theorem Program.MadeOf.listed {source : List Reading} (h : p.MadeOf d source) :
    p.symbols.Listed d source p.symbols.defined where
  complete name symbol := by
    rw [SymbolTable.defined, List.mem_filter, decide_eq_true_iff]
    exact and_congr_left' Table.get?_eq_some_iff.symm
  once := p.symbols.table.keys_nodup.sublist (List.filter_sublist.map _)
  order := by
    rw [h.defined_eq, List.map_append, labelEntries, variableEntries, List.map_map, List.map_map]
    rfl
  unknown := by
    rintro ⟨name, symbol⟩ there known
    rw [h.defined_eq, List.mem_append, labelEntries, variableEntries, mem_tagged, mem_tagged,
      mem_newNames, mem_newNames] at there
    rcases there with ⟨⟨-, unknown⟩, -⟩ | ⟨⟨-, unbound⟩, -⟩
    · exact unknown known
    · exact unbound (List.mem_append_left _ known)

/-- Each line stands beside what was made of it. -/
theorem Program.MadeOf.shows (h : p.MadeOf d (lines.map SourceLine.reading))
    {before after : List SourceLine} {l : SourceLine} (split : lines = before ++ l :: after) :
    ∃ row, (Listing.rowsFor p lines)[before.length]? = some row ∧ row.Shows d p before l := by
  have parted : lines.map SourceLine.reading =
      before.map SourceLine.reading ++ l.reading :: after.map SourceLine.reading := by
    rw [split, List.map_append, List.map_cons]
  refine ⟨Listing.rowOf p.symbols (Listing.countOf before) p.words[Listing.countOf before]? l, ?_, ?_⟩
  · simp [Listing.rowsFor, split]
  · unfold Row.Shows Listing.rowOf
    rcases hr : l.reading with e | _ | name | i
    · have clean := h.readable l.reading (by simp [parted])
      simp [hr, Reading.error?] at clean
    · rfl
    · obtain ⟨address, found, place⟩ := h.label_at parted (by rw [hr]; rfl)
      refine ⟨address, ?_, found, place⟩
      dsimp only
      rw [found, Option.getD_some]
    · obtain ⟨w, there, word⟩ : ∃ w, p.words[Listing.countOf before]? = some w ∧
          i.outcome d p.symbols.addresses = .ok w :=
        word_of_instruction h.words parted (by rw [hr]; rfl)
      exact ⟨w, congrArg (Row.word _ · l i) there, there, word⟩

/-- A row that shows its line has something to print. -/
theorem Row.Shows.reads {before : List SourceLine} {l : SourceLine} {row : Row}
    (h : row.Shows d p before l) : row.Reads row.text := by
  unfold Row.Shows at h
  rcases hr : l.reading with e | _ | name | i
  · rw [hr] at h
    cases h
  · rw [hr] at h
    obtain rfl := h
    exact reads_text (by simp) (by simp)
  · rw [hr] at h
    obtain ⟨address, rfl, -⟩ := h
    exact reads_text (by simp) (by simp)
  · rw [hr] at h
    obtain ⟨w, rfl, -⟩ := h
    exact reads_text (by simp) (by simp)

/-- Everything in the listing has something to print. -/
theorem Program.MadeOf.reads (h : p.MadeOf d (lines.map SourceLine.reading)) :
    ∀ row ∈ Listing.rowsOf p lines, row.Reads row.text := by
  intro row there
  rw [Listing.rowsOf, (Listing.walked p lines).rows, List.mem_append, List.mem_cons] at there
  rcases there with inside | rfl | entry
  · obtain ⟨part, zipped, inside⟩ := List.mem_flatten.1 inside
    obtain ⟨k, hk, rfl⟩ := List.mem_iff_getElem.1 zipped
    rw [List.getElem_zipWith, List.mem_append, List.mem_singleton] at inside
    rcases inside with head | rfl
    · unfold Listing.heading at head
      split at head
      · obtain rfl := List.mem_singleton.1 head
        exact Row.reads_text (by simp) (by simp)
      · cases head
    · have small : k < lines.length := by simp at hk; omega
      have split : lines = lines.take k ++ lines[k] :: lines.drop (k + 1) := by simp
      obtain ⟨row, found, shows⟩ := h.shows split
      rw [List.length_take, Nat.min_eq_left (Nat.le_of_lt small)] at found
      rw [(List.getElem_eq_iff _).2 found]
      exact shows.reads
  · exact Row.reads_text (by simp) (by simp)
  · obtain ⟨⟨name, kind, address⟩, listed, rfl⟩ := List.mem_map.1 entry
    have kept := ((h.listed.complete name ⟨kind, address⟩).1 listed).2
    exact Row.reads_text (by simp) fun _ _ same => kept (by cases same; rfl)

/-- **The listing shows the program that came out**, to the letter. It has a row for each line, under
the name of the file where one begins, and the table behind them. An instruction has the number of
instructions before it and the word that it was encoded to beside its line, a label line its name and
the address of the name, which is that of the place of the line when it is the first of the name and the
name is not predefined. So the rows show every word of the program once and in order, and the table
every label and every variable. -/
theorem listing_shows_program (assembled : assemble d lines = .ok p) :
    ∃ (rows : List Row) (shown : List (String × Symbol)) (texts : List String),
      listing p lines = String.join (texts.map (· ++ "\n")) ∧
      List.Forall₂ Row.Reads
        ((List.zipWith (fun l row => Listing.heading l ++ [row]) lines rows).flatten ++
          Row.rule :: shown.map fun e => Row.symbol e.1 e.2) texts ∧
      rows.length = lines.length ∧
      (∀ before l after, lines = before ++ l :: after →
        ∃ row, rows[before.length]? = some row ∧ row.Shows d p before l) ∧
      rows.filterMap Row.word? = p.words.zipIdx.map (fun e => (some e.1, e.2)) ∧
      p.symbols.Listed d (lines.map SourceLine.reading) shown := by
  have made := made_of_assemble assembled
  refine ⟨Listing.rowsFor p lines, p.symbols.defined, (Listing.rowsOf p lines).map Row.text, ?_, ?_,
    List.length_mapIdx, ?_, ?_, made.listed⟩
  · rw [listing, List.map_map]
    rfl
  · rw [← (Listing.walked p lines).rows]
    exact List.forall₂_map_right_iff.2 (List.forall₂_same.2 made.reads)
  · exact fun before l after split => made.shows split
  · have size : Listing.countOf lines = p.words.length := made.length_words.symm
    rw [Listing.words_rowsFor, size]
    apply List.ext_getElem
    · simp
    · intro k h h'
      simp

end

/-- Two files with a blank line, comments, a label with a predefined name and one that is bound in both
files. -/
def filedLines : List SourceLine :=
  SourceLine.ofRaws "a.asm" ["@END", "(SP) // kept", "(LOOP)", "@i", "", "(LOOP)"] ++
    SourceLine.ofRaws "b.asm" ["D=M // top", "(LOOP)", "(END)", "@i"]

/-- The last label stands behind the lines of both files. -/
theorem listing_shows_program_filed :
    ∃ (p : Program) (rows : List Row) (texts : List String), assemble hack filedLines = .ok p ∧
      listing p filedLines = String.join (texts.map (· ++ "\n")) ∧
      "                        |    3: \x1b[32m(END)\x1b[39m = 0003 " ∈ texts ∧
      rows.length = 10 ∧ rows[8]? = some (.label ⟨"b.asm", 2, "(END)"⟩ "END" 3) ∧
      rows.filterMap Row.word? =
        [(some ⟨3, 16⟩, 0), (some ⟨16, 16⟩, 1), (some ⟨0xFC10, 16⟩, 2), (some ⟨16, 16⟩, 3)] := by
  have shown : (assemble hack filedLines).toOption.map Program.words =
      some [⟨3, 16⟩, ⟨16, 16⟩, ⟨0xFC10, 16⟩, ⟨16, 16⟩] := by decide +kernel
  obtain ⟨p, assembled, words⟩ := eq_ok_of_shown shown
  obtain ⟨rows, _, texts, printed, reads, size, lines, counted, -⟩ := listing_shows_program assembled
  have parted : filedLines =
      filedLines.take 8 ++ ⟨"b.asm", 2, "(END)"⟩ :: filedLines.drop 9 := by decide +kernel
  obtain ⟨row, there, shows⟩ := lines _ _ _ parted
  have read : (⟨"b.asm", 2, "(END)"⟩ : SourceLine).reading = .ok (some (.label "END")) := by
    decide +kernel
  rw [Row.Shows, read] at shows
  obtain ⟨address, rfl, -, place⟩ := shows
  obtain rfl : address = 3 := place (by decide +kernel) (by decide +kernel)
  have eighth : rows[8]? = some (.label ⟨"b.asm", 2, "(END)"⟩ "END" 3) := there
  refine ⟨p, rows, texts, assembled, printed, ?_, size, eighth, by rw [counted, words]; rfl⟩
  have among : Row.label ⟨"b.asm", 2, "(END)"⟩ "END" 3 ∈
      (List.zipWith (fun l row => Listing.heading l ++ [row]) filedLines rows).flatten := by
    obtain ⟨inside, same⟩ := List.getElem?_eq_some_iff.1 eighth
    refine List.mem_flatten.2 ⟨_, List.getElem_mem (n := 8) ?_, ?_⟩
    · rw [List.length_zipWith, size]
      decide
    · rw [List.getElem_zipWith, same]
      exact List.mem_append_right _ List.mem_cons_self
  obtain ⟨k, hk, same⟩ := List.mem_iff_getElem.1 (List.mem_append_left _ among)
  have line := reads.get hk (reads.length_eq ▸ hk)
  rw [List.get_eq_getElem, same] at line
  have text : "                        | " ++ lineDigits ⟨"b.asm", 2, "(END)"⟩ ++
      ": \x1b[32m(" ++ "END" ++ ")\x1b[39m = " ++ hexDigits 3 ++ " " ++
        dimmed (SourceLine.comment? ⟨"b.asm", 2, "(END)"⟩) =
      "                        |    3: \x1b[32m(END)\x1b[39m = 0003 " := by decide +kernel
  have member : texts.get ⟨k, reads.length_eq ▸ hk⟩ ∈ texts := List.get_mem ..
  rw [← text]
  generalize texts.get ⟨k, _⟩ = said at line member
  cases line
  exact member

end HackToolchain.Assembly
