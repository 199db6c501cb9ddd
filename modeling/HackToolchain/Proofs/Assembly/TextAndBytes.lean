import HackToolchain.Proofs.Assembly.Made
import HackToolchain.Proofs.Descriptor.WordText
import HackToolchain.Proofs.Machine.Loading

/-!
# Programs as text and as bytes

* `fits_of_assemble`: under an accepted descriptor, with words of at most 64 bits, the words of a
  program fit and are all as wide as the machine's;
* `value_bytesOf`: the bytes of a value that they have room for are that value;
* `group_flatMap`: bytes that were put together in groups of one size are found in their groups;
* `text_and_bytes_agree`: so the lines of the text and the groups of the bytes are the words.
-/

namespace HackToolchain.Assembly

/-! ## Bytes -/

/-- The least number of bytes that hold so many bits. -/
def byteCount (bits : Nat) : Nat := (bits + 7) / 8

theorem byteCount_le_iff {bits n : Nat} : byteCount bits ≤ n ↔ bits ≤ 8 * n := by
  unfold byteCount
  omega

/-- The number that bytes say when the lowest comes first. -/
def littleEndian (bytes : List UInt8) : Nat := Nat.ofDigits 256 (bytes.map UInt8.toNat)

/-- One of the groups that a list is made of. -/
def group {α : Type} (size i : Nat) (l : List α) : List α := (l.drop (i * size)).take size

theorem ofDigits_bytes (x n : Nat) :
    Nat.ofDigits 256 ((List.range n).map fun i => x / 256 ^ i % 256) = x % 256 ^ n := by
  induction n with
  | zero => simp [Nat.mod_one]
  | succ n ih =>
    rw [List.range_succ, List.map_append, Nat.ofDigits_append, ih, List.map_singleton,
      Nat.ofDigits_singleton, List.length_map, List.length_range, Nat.mod_pow_succ]

namespace Program

theorem length_bytesOf (v : BitVec 64) {count : Nat} (short : count ≤ 8) :
    (bytesOf v count).length = count := by
  rw [bytesOf, List.length_map, List.length_range, Nat.min_eq_left short]

theorem toNat_byte (v : BitVec 64) (i : Nat) :
    (UInt8.ofBitVec ((v >>> (8 * i)).setWidth 8)).toNat = v.toNat / 256 ^ i % 256 := by
  have power : 2 ^ (8 * i) = 256 ^ i := Nat.pow_mul ..
  rw [UInt8.toNat_ofBitVec, BitVec.toNat_setWidth, BitVec.toNat_ushiftRight,
    Nat.shiftRight_eq_div_pow, power]

/-- **The bytes of a value say the value**, if there are enough of them. -/
theorem value_bytesOf {v : BitVec 64} {count : Nat} (short : count ≤ 8)
    (fits : v.toNat < 256 ^ count) : littleEndian (bytesOf v count) = v.toNat := by
  rw [littleEndian, bytesOf, Nat.min_eq_left short, List.map_map]
  calc Nat.ofDigits 256 ((List.range count).map
          (UInt8.toNat ∘ fun i => UInt8.ofBitVec ((v >>> (8 * i)).setWidth 8)))
      = Nat.ofDigits 256 ((List.range count).map fun i => v.toNat / 256 ^ i % 256) := by
        congr 1
        exact List.map_congr_left fun i _ => toNat_byte v i
    _ = v.toNat % 256 ^ count := ofDigits_bytes v.toNat count
    _ = v.toNat := Nat.mod_eq_of_lt fits

end Program

section

variable {α β : Type} {f : α → List β} {n : Nat} {l : List α}

theorem length_flatMap_groups (size : ∀ a ∈ l, (f a).length = n) :
    (l.flatMap f).length = l.length * n := by
  rw [List.length_flatMap, List.map_congr_left size]
  simp

/-- **What was put together in groups is found in its group.** -/
theorem group_flatMap (size : ∀ a ∈ l, (f a).length = n) {i : Nat} (h : i < l.length) :
    group n i (l.flatMap f) = f l[i] := by
  induction l generalizing i with
  | nil => cases h
  | cons a rest ih =>
    have first := size a List.mem_cons_self
    rw [List.flatMap_cons, group]
    cases i with
    | zero => rw [Nat.zero_mul, List.drop_zero, List.take_left' first, List.getElem_cons_zero]
    | succ i =>
      rw [Nat.succ_mul, Nat.add_comm, ← List.drop_drop, List.drop_left' first,
        List.getElem_cons_succ]
      exact ih (fun b hb => size b (List.mem_cons_of_mem _ hb)) (Nat.lt_of_succ_lt_succ h)

end

/-! ## Words -/

section

variable {d : Descriptor} {lines lines' : List SourceLine} {p p' : Program}

theorem fits_of_assemble (accepted : d.Accepted) (small : d.wordSize ≤ 64)
    (assembled : assemble d lines = .ok p) : ∀ w ∈ p.words, w.Fits ∧ w.width = d.wordSize := by
  intro w there
  obtain ⟨i, s, next, encoded⟩ := (made_of_assemble assembled).encoded there
  obtain ⟨layout, pieces, -, all, rfl, width⟩ := Instruction.encode_pieces encoded
  have bounded := Bits.Bounded.concat (texts_of_pieces accepted all).1
  exact ⟨⟨by rwa [width], bounded⟩, width⟩

theorem eq_of_values (accepted : d.Accepted) (small : d.wordSize ≤ 64)
    (assembled : assemble d lines = .ok p) (assembled' : assemble d lines' = .ok p')
    (length : p.words.length = p'.words.length)
    (values : ∀ i (h : i < p.words.length) (h' : i < p'.words.length),
      p.words[i].val.toNat = p'.words[i].val.toNat) : p.words = p'.words := by
  apply List.ext_getElem length
  intro i h h'
  have width := (fits_of_assemble accepted small assembled _ (List.getElem_mem h)).2
  have width' := (fits_of_assemble accepted small assembled' _ (List.getElem_mem h')).2
  exact Bits.ext (values i h h') (width.trans width'.symm)

/-- The lines of the text are the words. -/
theorem lines_of_text (accepted : d.Accepted) (small : d.wordSize ≤ 64)
    (assembled : assemble d lines = .ok p) :
    (Text.lines p.toText.toList).map (fun line => Bits.parse (String.ofList line)) =
        p.words.map .ok ∧
      ∀ line ∈ Text.lines p.toText.toList, line.length = d.wordSize := by
  have fits := fits_of_assemble accepted small assembled
  rw [Machine.lines_toText fun w hw => (fits w hw).1]
  constructor
  · rw [List.map_map]
    exact List.map_congr_left fun w hw => Bits.parse_toString (fits w hw).1
  · intro line hline
    obtain ⟨w, hw, rfl⟩ := List.mem_map.1 hline
    rw [Bits.length_toChars (fits w hw).1, (fits w hw).2]

/-- The groups of the bytes are the words. -/
theorem groups_of_bytes (accepted : d.Accepted) (small : d.wordSize ≤ 64)
    (assembled : assemble d lines = .ok p) :
    (p.toBytes d.wordSize).length = p.words.length * byteCount d.wordSize ∧
      ∀ i (h : i < p.words.length),
        littleEndian (group (byteCount d.wordSize) i (p.toBytes d.wordSize)) =
          p.words[i].val.toNat := by
  have fits := fits_of_assemble accepted small assembled
  have short : byteCount d.wordSize ≤ 8 := byteCount_le_iff.2 small
  have size : ∀ w ∈ p.words,
      (Program.bytesOf w.val (byteCount d.wordSize)).length = byteCount d.wordSize :=
    fun w _ => Program.length_bytesOf w.val short
  rw [Program.toBytes, ← byteCount]
  refine ⟨length_flatMap_groups size, fun i h => ?_⟩
  rw [group_flatMap size h]
  apply Program.value_bytesOf short
  obtain ⟨⟨-, value⟩, width⟩ := fits _ (List.getElem_mem h)
  have room : d.wordSize ≤ 8 * byteCount d.wordSize := byteCount_le_iff.1 (Nat.le_refl _)
  calc p.words[i].val.toNat
      < 2 ^ d.wordSize := width ▸ value
    _ ≤ 2 ^ (8 * byteCount d.wordSize) := Nat.pow_le_pow_right (by decide) room
    _ = 256 ^ byteCount d.wordSize := Nat.pow_mul ..

/-- **Text and bytes carry the same words.** The descriptor is accepted, as any is that was read, and
its words have at most 64 bits. Then the lines of a program's text, each as long as a word, are read
back as exactly its words, be there none or be they empty. Its bytes are so many groups, of as many bytes as hold a word, and each
says the value of its word with the lowest byte first. So where words are not empty two programs have
the same text if and only if they have the same bytes. -/
theorem text_and_bytes_agree (accepted : d.Accepted) (small : d.wordSize ≤ 64) :
    (∀ lines p, assemble d lines = .ok p →
      (Text.lines p.toText.toList).map (fun line => Bits.parse (String.ofList line)) =
        p.words.map .ok ∧
      (∀ line ∈ Text.lines p.toText.toList, line.length = d.wordSize) ∧
      (p.toBytes d.wordSize).length = p.words.length * byteCount d.wordSize ∧
      ∀ i (h : i < p.words.length),
        littleEndian (group (byteCount d.wordSize) i (p.toBytes d.wordSize)) =
          p.words[i].val.toNat) ∧
    (0 < d.wordSize → ∀ lines lines' p p', assemble d lines = .ok p → assemble d lines' = .ok p' →
      (p.toText = p'.toText ↔ p.toBytes d.wordSize = p'.toBytes d.wordSize)) := by
  refine ⟨fun lines p assembled => ?_, fun filled lines lines' p p' assembled assembled' => ?_⟩
  · obtain ⟨words, width⟩ := lines_of_text accepted small assembled
    obtain ⟨length, values⟩ := groups_of_bytes accepted small assembled
    exact ⟨words, width, length, values⟩
  · obtain ⟨words, -⟩ := lines_of_text accepted small assembled
    obtain ⟨words', -⟩ := lines_of_text accepted small assembled'
    obtain ⟨length, values⟩ := groups_of_bytes accepted small assembled
    obtain ⟨length', values'⟩ := groups_of_bytes accepted small assembled'
    constructor
    · intro same
      have equal : p.words = p'.words := by
        rw [same, words'] at words
        exact (List.map_injective_iff.2 (fun _ _ => Except.ok.inj) words).symm
      rw [Program.toBytes, Program.toBytes, equal]
    · intro same
      have bytes : 0 < byteCount d.wordSize := by
        apply Nat.pos_of_ne_zero
        intro none
        have empty : d.wordSize ≤ 8 * 0 := byteCount_le_iff.1 (Nat.le_of_eq none)
        omega
      have many : p.words.length = p'.words.length := by
        rw [same, length'] at length
        exact (Nat.eq_of_mul_eq_mul_right bytes length).symm
      have equal : p.words = p'.words := by
        apply eq_of_values accepted small assembled assembled' many
        intro i h h'
        rw [← values i h, ← values' i h', same]
      rw [Program.toText, Program.toText, equal]

end

/-- A machine whose words take three bits of their second byte. -/
def eleven : Descriptor where
  name := "eleven"
  wordSize := 11
  opcodes := .ofList [(.address, .literal "0"), (.compute, .literal "1")]
  layouts := .ofList
    [(.address, ⟨[(.opcode, 1), (.value, 10)]⟩),
     (.compute, ⟨[(.opcode, 1), (.comp, 4), (.dest, 3), (.jump, 3)]⟩)]
  comp := .ofList [("0", .literal "0000"), ("X", .literal "1010")]
  dest := .ofList [("null", .literal "000"), ("A", .literal "101")]
  jump := .ofList [("null", .literal "000"), ("JMP", .literal "111")]
  symbols := .ofList []
  varBase := 16

def elevenText : String := "\n".intercalate
  ["name: eleven", "word_size: 11", "opcodes: \x7b address: '0', compute: '1' \x7d", "formats:",
   "  address: [[opcode, 1], [value, 10]]",
   "  compute: [[opcode, 1], [comp, 4], [dest, 3], [jump, 3]]",
   "comp: \x7b '0': '0000', X: '1010' \x7d", "dest: \x7b 'null': '000', A: '101' \x7d",
   "jump: \x7b 'null': '000', JMP: '111' \x7d", "symbols: \x7b\x7d", "var_base: 16"]

/-- The same words in two spellings. -/
def elevenLines : List SourceLine := SourceLine.ofRaws "a.asm" ["@1023", "A=X;JMP", "@0"]

def elevenRespelled : List SourceLine :=
  SourceLine.ofRaws "b.asm" ["@01023 // top", "A = X ; JMP", "(end)", "@00"]

theorem text_and_bytes_agree_eleven :
    ∃ p p', assemble eleven elevenLines = .ok p ∧ assemble eleven elevenRespelled = .ok p' ∧
      (p.toBytes 11).length = 3 * 2 ∧ littleEndian (group 2 1 (p.toBytes 11)) = 1711 ∧
      p.toBytes 11 = p'.toBytes 11 := by
  have read : Descriptor.ofText "eleven.yaml" elevenText = .ok eleven := by
    rw [elevenText, Descriptor.ofText, Yaml.Node.ofText?, Yaml.Token.ofText?,
      String.toList_intercalate]
    decide +kernel
  obtain ⟨words, texts⟩ := text_and_bytes_agree (Descriptor.accepted_of_ofText read) (by decide)
  have shown : (assemble eleven elevenLines).toOption.map Program.words =
      some [⟨1023, 11⟩, ⟨1711, 11⟩, ⟨0, 11⟩] := by decide +kernel
  have shown' : (assemble eleven elevenRespelled).toOption.map Program.words =
      some [⟨1023, 11⟩, ⟨1711, 11⟩, ⟨0, 11⟩] := by decide +kernel
  obtain ⟨p, assembled, here⟩ := eq_ok_of_shown shown
  obtain ⟨p', assembled', there⟩ := eq_ok_of_shown shown'
  obtain ⟨-, -, length, values⟩ := words _ _ assembled
  refine ⟨p, p', assembled, assembled', length.trans (by rw [here]; rfl), ?_,
    (texts (by decide) _ _ _ _ assembled assembled').1 ?_⟩
  · exact (values 1 (by simp [here])).trans (by simp [here])
  · rw [Program.toText, Program.toText, here, there]

end HackToolchain.Assembly
