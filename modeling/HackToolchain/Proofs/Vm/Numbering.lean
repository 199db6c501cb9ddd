import Mathlib.Order.Monotone.Defs
import HackToolchain.Proofs.Vm.Calls
import HackToolchain.Proofs.Vm.Labels

/-!
# Lines with made-up labels

The output again, with the labels set apart that the translator has made up:

* `numbered_items`: with the labels put back the lines are those of the expansion;
* `placed_numbered`, `made_numbered`: the labels are those of the comparisons and calls, and no
  others are loaded;
* `Renumbering.Moves.program`: under other counters a program has the same lines with other
  numbers.
-/

namespace HackToolchain.Vm

open Expansion

/-- A line of output, or the made-up label that it holds. -/
inductive Numbered
  | plain (item : Item)
  | load (g : Generated)
  | place (g : Generated)
  deriving DecidableEq

namespace Numbered

def item : Numbered → Item
  | plain item => item
  | load g => symbol g.text
  | place g => label g.text

def text (l : Numbered) : String := l.item.text

def made? : Numbered → Option Generated
  | plain _ => none
  | load g | place g => some g

def placed? : Numbered → Option Generated
  | place g => some g
  | _ => none

/-- The name of a label line that is not made up. -/
def defined? : Numbered → Option String
  | plain item => item.label?
  | _ => none

theorem map_item_plain (items : List Item) : (items.map plain).map item = items := by
  rw [List.map_map]
  exact List.map_id items

theorem made_plain (items : List Item) : (items.map plain).filterMap made? = [] := by
  rw [List.filterMap_map, List.filterMap_eq_nil_iff]
  exact fun _ _ => rfl

theorem placed_plain (items : List Item) : (items.map plain).filterMap placed? = [] := by
  rw [List.filterMap_map, List.filterMap_eq_nil_iff]
  exact fun _ _ => rfl

end Numbered

/-! ## Commands -/

namespace Expansion

def numberedCompare (name skip : String) (id : Nat) : List Numbered :=
  (popD ++ [assign "A" "A-1", assign "D" "M-D"]).map .plain ++ Numbered.load (.no name id) ::
    (branch "D" skip :: unary "-1").map .plain ++ Numbered.load (.done name id) ::
      [.plain (branch "0" "JMP"), .place (.no name id)] ++
        (unary "0").map .plain ++ [Numbered.place (.done name id)]

/-- A call between the loading of its label and the label. -/
def callBody (name : String) (arguments : Word) : List Item :=
  assign "D" "A" :: pushD ++ pushCell .lcl ++ pushCell .arg ++ pushCell .this ++ pushCell .that ++
    [cell .sp, assign "D" "M", literal (5 + arguments.toNat), assign "D" "D-A",
     cell .arg, assign "M" "D", cell .sp, assign "D" "M", cell .lcl, assign "M" "D",
     symbol name, branch "0" "JMP"]

def numberedCall (name : String) (arguments : Word) (id : Nat) : List Numbered :=
  .load (.back name id) :: (callBody name arguments).map .plain ++ [Numbered.place (.back name id)]

end Expansion

namespace Command

def numbered (unit : String) (n : Counters) (c : Command) : List Numbered :=
  .plain (.note c.text) ::
    match c with
    | operate .eq => numberedCompare "EQ" "JNE" n.comparisons
    | operate .lt => numberedCompare "LT" "JGE" n.comparisons
    | operate .gt => numberedCompare "GT" "JLE" n.comparisons
    | call name arguments => numberedCall name arguments n.calls
    | c => (c.statements unit n).map .plain

theorem numbered_items (unit : String) (n : Counters) (c : Command) :
    (c.numbered unit n).map Numbered.item = c.expand unit n := by
  cases c with
  | operate op => cases op <;> rfl
  | call name arguments => rfl
  | _ => exact congrArg _ (Numbered.map_item_plain _)

/-- The label lines that are set apart are the command's own. -/
theorem placed_numbered (unit : String) (n : Counters) (c : Command) :
    (c.numbered unit n).filterMap Numbered.placed? = c.generated n := by
  cases c with
  | operate op => cases op <;> rfl
  | call name arguments => rfl
  | _ => exact Numbered.placed_plain _

/-- The others carry the name that the command defines. -/
theorem defined_numbered (unit : String) (n : Counters) (c : Command) :
    (c.numbered unit n).filterMap Numbered.defined? = c.defined?.toList := by
  have plain : c.generated n = [] →
      ((c.statements unit n).map Numbered.plain).filterMap Numbered.defined? =
        c.defined?.toList := by
    intro none
    have labels := labelsOf_expand unit n c
    rw [none, List.map_nil, List.append_nil] at labels
    rw [List.filterMap_map, ← labels]
    rfl
  cases c with
  | operate op => cases op <;> rfl
  | call name arguments => rfl
  | _ => exact plain rfl

/-- Every label that a command loads is its own as well. -/
theorem made_numbered (unit : String) (n : Counters) (c : Command) :
    (c.numbered unit n).filterMap Numbered.made? ⊆ c.generated n := by
  have compared : ∀ name : String, [Generated.no name n.comparisons, .done name n.comparisons,
      .no name n.comparisons, .done name n.comparisons] ⊆
      [.no name n.comparisons, .done name n.comparisons] := by
    intro name
    simp
  cases c with
  | operate op =>
    cases op with
    | eq => exact compared "EQ"
    | lt => exact compared "LT"
    | gt => exact compared "GT"
    | _ => exact List.nil_subset _
  | call name arguments =>
    have called : [Generated.back name n.calls, .back name n.calls] ⊆ [.back name n.calls] := by
      simp
    exact called
  | _ => exact (Numbered.made_plain _).symm ▸ List.nil_subset _

end Command

/-! ## Programs -/

/-- The lines of commands from given counters on. -/
def numbered (n : Counters) : List Placed → List Numbered
  | [] => []
  | (unit, c) :: rest => c.numbered unit n ++ numbered (n.next c) rest

theorem numbered_items (n : Counters) (program : List Placed) :
    (numbered n program).map Numbered.item = expansion n program := by
  induction program generalizing n with
  | nil => rfl
  | cons c rest ih => rw [numbered, List.map_append, Command.numbered_items, ih]; rfl

theorem placed_numbered (n : Counters) (program : List Placed) :
    (numbered n program).filterMap Numbered.placed? = generated n program := by
  induction program generalizing n with
  | nil => rfl
  | cons c rest ih => rw [numbered, List.filterMap_append, Command.placed_numbered, ih]; rfl

theorem defined_numbered (n : Counters) (program : List Placed) :
    (numbered n program).filterMap Numbered.defined? = definedNames program := by
  induction program generalizing n with
  | nil => rfl
  | cons c rest ih =>
    rw [numbered, List.filterMap_append, Command.defined_numbered, ih, definedNames, definedNames,
      List.filterMap_cons]
    cases c.2.defined? <;> rfl

theorem made_numbered (n : Counters) (program : List Placed) :
    (numbered n program).filterMap Numbered.made? ⊆ generated n program := by
  induction program generalizing n with
  | nil => exact List.nil_subset _
  | cons c rest ih =>
    rw [numbered, List.filterMap_append]
    exact List.append_subset.2
      ⟨List.Subset.trans (Command.made_numbered _ _ _) (List.subset_append_left _ _),
        List.Subset.trans (ih _) (List.subset_append_right _ _)⟩

/-! ## Counters -/

namespace Counters

/-- What a command counts does not depend on what was counted before. -/
theorem next_eq (n : Counters) (c : Command) :
    n.next c = ⟨n.comparisons + (next ⟨0, 0⟩ c).comparisons, n.calls + (next ⟨0, 0⟩ c).calls⟩ := by
  unfold next
  split <;> rfl

end Counters

/-- How many comparisons and calls commands hold. -/
theorem countersAfter_eq (program : List Placed) :
    ∃ k : Counters, ∀ n, countersAfter n program =
      ⟨n.comparisons + k.comparisons, n.calls + k.calls⟩ := by
  induction program with
  | nil => exact ⟨⟨0, 0⟩, fun _ => rfl⟩
  | cons c rest ih =>
    obtain ⟨k, later⟩ := ih
    let first := Counters.next ⟨0, 0⟩ c.2
    refine ⟨⟨first.comparisons + k.comparisons, first.calls + k.calls⟩, fun n => ?_⟩
    have here : countersAfter n (c :: rest) = countersAfter (n.next c.2) rest := rfl
    rw [here, later, Counters.next_eq, Nat.add_assoc, Nat.add_assoc]

/-- What is made up after commands is made up at these counters or later. -/
theorem Generated.Since.of_countersAfter {n : Counters} {program : List Placed} {g : Generated}
    (h : g.Since (countersAfter n program)) : g.Since n := by
  induction program generalizing n with
  | nil => exact h
  | cons c rest ih => exact (ih h).of_next

theorem not_since_of_mem_generated {n : Counters} {program : List Placed} {g : Generated}
    (h : g ∈ generated n program) : ¬ g.Since (countersAfter n program) := by
  induction program generalizing n with
  | nil => cases h
  | cons c rest ih =>
    rcases List.mem_append.1 h with here | later
    · intro since
      exact (Command.since_of_mem_generated here).2 (Generated.Since.of_countersAfter since)
    · exact ih later

/-! ## Other numbers -/

/-- New numbers for comparisons and for calls, in the same order. -/
structure Renumbering where
  comparison : Nat → Nat
  call : Nat → Nat
  comparison_strictMono : StrictMono comparison
  call_strictMono : StrictMono call

namespace Renumbering

def label (r : Renumbering) : Generated → Generated
  | .no name id => .no name (r.comparison id)
  | .done name id => .done name (r.comparison id)
  | .back callee id => .back callee (r.call id)

def line (r : Renumbering) : Numbered → Numbered
  | .plain item => .plain item
  | .load g => .load (r.label g)
  | .place g => .place (r.label g)

/-- What is numbered from `n` on becomes what is numbered from `m` on. -/
structure Moves (r : Renumbering) (n m : Counters) : Prop where
  comparisons : ∀ i, r.comparison (n.comparisons + i) = m.comparisons + i
  calls : ∀ i, r.call (n.calls + i) = m.calls + i

variable {r : Renumbering} {n m : Counters}

theorem Moves.after (h : r.Moves n m) (program : List Placed) :
    r.Moves (countersAfter n program) (countersAfter m program) := by
  obtain ⟨k, after⟩ := countersAfter_eq program
  rw [after, after]
  constructor
  · intro i
    rw [Nat.add_assoc, h.comparisons, Nat.add_assoc]
  · intro i
    rw [Nat.add_assoc, h.calls, Nat.add_assoc]

theorem map_line_plain (items : List Item) :
    (items.map Numbered.plain).map r.line = items.map Numbered.plain := by
  rw [List.map_map]
  rfl

theorem Moves.command (h : r.Moves n m) (unit : String) (c : Command) :
    (c.numbered unit n).map r.line = c.numbered unit m := by
  have comparison : r.comparison n.comparisons = m.comparisons := h.comparisons 0
  have call : r.call n.calls = m.calls := h.calls 0
  cases c with
  | operate op =>
    cases op with
    | eq | lt | gt =>
      rw [Command.numbered, Command.numbered, ← comparison]
      rfl
    | _ => rfl
  | call name arguments =>
    rw [Command.numbered, Command.numbered, ← call]
    rfl
  | _ => exact congrArg _ (map_line_plain _)

/-- **Under other counters a program has other numbers and nothing else.** -/
theorem Moves.program (h : r.Moves n m) (program : List Placed) :
    (numbered n program).map r.line = numbered m program := by
  induction program generalizing n m with
  | nil => rfl
  | cons c rest ih =>
    rw [numbered, List.map_append, h.command]
    exact congrArg _ (ih (h.after [c]))

/-- Every number as it is. -/
def refl : Renumbering := ⟨id, id, strictMono_id, strictMono_id⟩

/-- Numbers that begin at `n`. -/
def startingAt (n : Counters) : Renumbering where
  comparison i := n.comparisons + i
  call i := n.calls + i
  comparison_strictMono := fun _ _ h => Nat.add_lt_add_left h _
  call_strictMono := fun _ _ h => Nat.add_lt_add_left h _

theorem startingAt_moves (n : Counters) : (startingAt n).Moves ⟨0, 0⟩ n :=
  ⟨fun i => by simp [startingAt], fun i => by simp [startingAt]⟩

/-- From `start` on, `f` with `k` more. -/
def delay (f : Nat → Nat) (start k : Nat) (i : Nat) : Nat := if i < start then f i else f i + k

theorem delay_strictMono {f : Nat → Nat} (h : StrictMono f) (start k : Nat) :
    StrictMono (delay f start k) := by
  intro i j lt
  have step := h lt
  unfold delay
  split <;> split <;> omega

/-- Numbers from `start` on put off, those before it left alone. -/
def putOff (r : Renumbering) (start k : Counters) : Renumbering where
  comparison := delay r.comparison start.comparisons k.comparisons
  call := delay r.call start.calls k.calls
  comparison_strictMono := delay_strictMono r.comparison_strictMono _ _
  call_strictMono := delay_strictMono r.call_strictMono _ _

theorem Moves.putOff (h : r.Moves n m) (k : Counters) :
    (r.putOff n k).Moves n ⟨m.comparisons + k.comparisons, m.calls + k.calls⟩ := by
  constructor
  · intro i
    have later : ¬ n.comparisons + i < n.comparisons := by omega
    simp only [Renumbering.putOff, delay, if_neg later, h.comparisons]
    omega
  · intro i
    have later : ¬ n.calls + i < n.calls := by omega
    simp only [Renumbering.putOff, delay, if_neg later, h.calls]
    omega

theorem label_putOff {start : Counters} {g : Generated} (k : Counters) (before : ¬ g.Since start) :
    (r.putOff start k).label g = r.label g := by
  cases g with
  | no name id | done name id =>
    have lt : id < start.comparisons := Nat.lt_of_not_le before
    simp [label, Renumbering.putOff, delay, lt]
  | back callee id =>
    have lt : id < start.calls := Nat.lt_of_not_le before
    simp [label, Renumbering.putOff, delay, lt]

theorem line_putOff {start : Counters} {l : Numbered} (k : Counters)
    (before : ∀ g, l.made? = some g → ¬ g.Since start) :
    (r.putOff start k).line l = r.line l := by
  cases l with
  | plain item => rfl
  | load g => exact congrArg _ (label_putOff k (before g rfl))
  | place g => exact congrArg _ (label_putOff k (before g rfl))

end Renumbering

end HackToolchain.Vm
