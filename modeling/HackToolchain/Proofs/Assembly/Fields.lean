import Mathlib.Algebra.Ring.Nat
import Mathlib.Data.List.Forall2
import HackToolchain.Decoded
import HackToolchain.Proofs.Assembly.Resolution
import HackToolchain.Proofs.Bits

/-!
# A word is its fields

* `toChars_concat_clipped`: pieces that are put together keep the last 64 digits of their texts;
* `encodeFields_overfull`: a word is given up as too wide to count only where its fields have 2 ^ 64
  bits or more;
* `encode_pieces`: an encoded word is the bits of its fields, in the order of the layout and
  each looked up in the table that the encoding began with;
* `cutFrom_concat`: a word is cut into the pieces that it was put together from.
-/

namespace HackToolchain

/-! ## Pieces -/

namespace Bits

/-- The pieces one after the other. -/
def concat (pieces : List Bits) : Bits := pieces.foldl (· ++ ·) empty

theorem width_foldl (pieces : List Bits) (b : Bits) :
    (pieces.foldl (· ++ ·) b).width = b.width + (pieces.map width).sum := by
  induction pieces generalizing b with
  | nil => rfl
  | cons p rest ih =>
    rw [List.foldl_cons, ih, width_append, List.map_cons, List.sum_cons, Nat.add_assoc]

theorem width_concat (pieces : List Bits) : (concat pieces).width = (pieces.map width).sum :=
  (width_foldl pieces empty).trans (Nat.zero_add _)

section

variable {pieces : List Bits}

theorem Bounded.concat (bounded : ∀ p ∈ pieces, p.Bounded) : (concat pieces).Bounded := by
  have fold : ∀ b : Bits, b.Bounded → (pieces.foldl (· ++ ·) b).Bounded := by
    induction pieces with
    | nil => exact fun b hb => hb
    | cons p rest ih =>
      intro b hb
      have here := hb.append (bounded p List.mem_cons_self)
      exact ih (fun q hq => bounded q (List.mem_cons_of_mem _ hq)) (b ++ p) here
  exact fold empty (Nat.two_pow_pos 0)

/-- **Pieces that are put together keep their last 64 digits.** -/
theorem toChars_concat_clipped (bounded : ∀ p ∈ pieces, p.Bounded)
    (narrow : ∀ p ∈ pieces, p.width < UInt32.size) :
    (concat pieces).toChars = clipped (pieces.flatMap toChars) := by
  have fold : ∀ b : Bits, b.Bounded →
      (pieces.foldl (· ++ ·) b).toChars = clipped (b.toChars ++ pieces.flatMap toChars) := by
    induction pieces with
    | nil =>
      intro b hb
      rw [List.foldl_nil, List.flatMap_nil, List.append_nil, hb.clipped_toChars]
    | cons p rest ih =>
      intro b hb
      have hp := bounded p List.mem_cons_self
      have later := ih (fun q hq => bounded q (List.mem_cons_of_mem _ hq))
        (fun q hq => narrow q (List.mem_cons_of_mem _ hq)) (b ++ p) (hb.append hp)
      rw [List.foldl_cons, later, toChars_append_clipped hb hp (narrow p List.mem_cons_self),
        clipped_append, List.flatMap_cons, List.append_assoc]
  exact fold empty (Nat.two_pow_pos 0)

theorem length_texts (bounded : ∀ p ∈ pieces, p.Bounded) :
    (pieces.flatMap toChars).length = (concat pieces).width := by
  rw [List.length_flatMap, width_concat]
  exact congrArg List.sum (List.map_congr_left fun p hp => (bounded p hp).length_toChars)

/-- The text of pieces that fit is put together from theirs. -/
theorem toChars_concat (fits : ∀ p ∈ pieces, p.Fits) (small : (pieces.map width).sum ≤ 64) :
    (concat pieces).Fits ∧ (concat pieces).toChars = pieces.flatMap toChars := by
  have bounded : ∀ p ∈ pieces, p.Bounded := fun p hp => (fits p hp).bounded
  have narrow : ∀ p ∈ pieces, p.width < UInt32.size :=
    fun p hp => Nat.lt_of_le_of_lt (fits p hp).width (by decide)
  have short : (pieces.flatMap toChars).length ≤ 64 := by rwa [length_texts bounded, width_concat]
  refine ⟨⟨by rwa [width_concat], Bounded.concat bounded⟩, ?_⟩
  rw [toChars_concat_clipped bounded narrow, clipped_of_short short]

end

end Bits

/-- A word is cut into the pieces that stand in it behind other text. -/
theorem cutFrom_eq {word : Bits} (fits : word.Fits) {fields : List (Field × Nat)}
    {pieces : List Bits} (widths : List.Forall₂ (fun f p => p.width = f.2) fields pieces)
    (fit : ∀ p ∈ pieces, p.Fits) (front : List Char)
    (text : word.toChars = front ++ pieces.flatMap Bits.toChars) :
    cutFrom word front.length fields = (fields.map Prod.fst).zip pieces := by
  induction widths generalizing front with
  | nil => rfl
  | @cons f p fields pieces width _ ih =>
    obtain ⟨field, _⟩ := f
    obtain rfl : p.width = _ := width
    have hp := fit p List.mem_cons_self
    have length := Bits.length_toChars hp
    rw [List.flatMap_cons] at text
    have first : word.slice front.length p.width = p := Bits.slice_of_toChars fits hp text
    have later := ih (fun q hq => fit q (List.mem_cons_of_mem _ hq)) (front ++ p.toChars)
      (by rw [text, List.append_assoc])
    rw [List.length_append, length] at later
    rw [cutFrom, first, later]
    rfl

/-- A field that is there once has the slice of its piece. -/
theorem lastSlice?_eq {slices : List (Field × Bits)} (once : (slices.map Prod.fst).Nodup) {f : Field}
    {p : Bits} (there : (f, p) ∈ slices) : lastSlice? slices f = some p := by
  have once_back : (slices.reverse.map Prod.fst).Nodup :=
    ((List.reverse_perm slices).map Prod.fst).nodup_iff.2 once
  exact (Table.lookup_eq_some once_back).2 (List.mem_reverse.2 there)

/-! ## Encoding -/

namespace Assembly

theorem SymbolTable.resolve_again {s next : SymbolTable} {name : String} {address : Nat}
    (h : s.resolve name = .ok (address, next)) : next.resolve name = .ok (address, next) :=
  resolve_of_bound (resolve_eq_ok h).2

namespace Instruction

variable {d : Descriptor} {s next : SymbolTable} {i : Instruction} {w : Bits}

/-- What a field is filled with. -/
def HasBits (d : Descriptor) (s : SymbolTable) (i : Instruction) (field : Field × Nat) (b : Bits) :
    Prop :=
  ∃ next, i.fieldBits d field.1 field.2 s = .ok (b, next)

/-- What is looked up for one field is what another one finds. -/
theorem hasBits_of_later {field other : Field × Nat} {b c : Bits}
    (first : i.fieldBits d field.1 field.2 s = .ok (b, next))
    (later : i.HasBits d next other c) : i.HasBits d s other c := by
  rcases table_of_fieldBits_ok first with rfl | ⟨name, address, rfl, resolved⟩
  · exact later
  obtain ⟨f, width⟩ := other
  obtain ⟨table, later⟩ := later
  have again := SymbolTable.resolve_again resolved
  cases f with
  | value =>
    refine ⟨table, ?_⟩
    simp only [fieldBits, Operand.resolve, again, resolved] at later ⊢
    exact later
  | opcode =>
    simp only [HasBits, fieldBits, shape] at later ⊢
    cases ho : d.opcode? .address with
    | none => simp [ho] at later
    | some opcode =>
      rw [ho] at later
      exact ⟨s, by rw [(Prod.mk.inj (Except.ok.inj later)).1]⟩
  | comp => cases later
  | dest => cases later
  | jump => cases later

/-- Where a word is given up as too wide to count, the fields up to there have too many bits. -/
theorem encodeFields_overfull {fields : List (Field × Nat)} {word : Bits}
    (sound : ∀ f width t, i.fieldBits d f width t ≠ .error .uncountableWord)
    (h : encodeFields d i fields word s = (.error .uncountableWord, next)) :
    ∃ front pieces, front <+: fields ∧ List.Forall₂ (i.HasBits d s) front pieces ∧
      UInt64.size ≤ word.width + (pieces.map Bits.width).sum := by
  induction fields generalizing word s with
  | nil => cases h
  | cons field rest ih =>
    rw [encodeFields] at h
    cases hb : i.fieldBits d field.1 field.2 s with
    | error e =>
      rw [hb] at h
      obtain rfl := Except.error.inj (Prod.mk.inj h).1
      exact absurd hb (sound _ _ _)
    | ok r =>
      obtain ⟨bits, table⟩ := r
      rw [hb] at h
      dsimp only at h
      split at h
      · obtain ⟨front, pieces, within, all, many⟩ := ih h
        refine ⟨field :: front, bits :: pieces, List.prefix_cons_inj field |>.2 within,
          .cons ⟨table, hb⟩ (all.imp fun _ _ => hasBits_of_later hb), ?_⟩
        rwa [List.map_cons, List.sum_cons, ← Nat.add_assoc]
      · rename_i full
        exact ⟨[field], [bits], ⟨rest, rfl⟩, .cons ⟨table, hb⟩ .nil, Nat.le_of_not_lt full⟩

theorem encodeFields_pieces {fields : List (Field × Nat)} {word : Bits}
    (h : encodeFields d i fields word s = (.ok w, next)) :
    ∃ pieces, List.Forall₂ (i.HasBits d s) fields pieces ∧ w = pieces.foldl (· ++ ·) word := by
  induction fields generalizing word s with
  | nil =>
    obtain ⟨rfl, -⟩ : word = w ∧ s = next := by simpa [encodeFields] using h
    exact ⟨[], .nil, rfl⟩
  | cons field rest ih =>
    rw [encodeFields] at h
    cases hb : i.fieldBits d field.1 field.2 s with
    | error e => simp [hb] at h
    | ok r =>
      obtain ⟨bits, table⟩ := r
      rw [hb] at h
      dsimp only at h
      split at h
      · obtain ⟨pieces, all, rfl⟩ := ih h
        refine ⟨bits :: pieces, .cons ⟨table, hb⟩ ?_, rfl⟩
        exact all.imp fun _ _ => hasBits_of_later hb
      · cases h

/-- **An encoded word is the bits of its fields**, in the order of the layout. -/
theorem encode_pieces (h : i.encode d s = (.ok w, next)) :
    ∃ layout pieces, d.layout? i.shape = some layout ∧
      List.Forall₂ (i.HasBits d s) layout.fields pieces ∧ w = Bits.concat pieces ∧
      w.width = d.wordSize := by
  obtain ⟨layout, hl, filled, width⟩ := encode_eq_ok.1 h
  obtain ⟨pieces, all, made⟩ := encodeFields_pieces filled
  exact ⟨layout, pieces, hl, all, made, width⟩

end Instruction

end Assembly

end HackToolchain
