import HackToolchain.CommandLine.Host
import Mathlib.Data.List.Forall2

/-!
# Hosts that keep files

* `Storage`: a host on which only writes change files, and each of them whole or not at all;
* `Triple`: how a run that begins with a disk ends or stops;
* `Reads`: a run that leaves the disk as it is, with what it is known to give;
* `execute_ends`: the exit status tells which of the two it was.
-/

namespace HackToolchain.CommandLine

/-- A host on which the state holds files, each in its own place. -/
structure Storage (σ δ κ : Type) [Host (StateM σ)] where
  disk : σ → δ
  look : δ → String → Entry
  place : δ → String → Option κ
  file : δ → κ → Option ByteArray
  prints : ∀ line s, disk ((Host.print line : StateM σ Unit).run s).2 = disk s
  looks : ∀ path s, ((Host.look path : StateM σ Entry).run s).1 = look (disk s) path ∧
    disk ((Host.look path : StateM σ Entry).run s).2 = disk s
  /-- A write that fails leaves the files as they were. -/
  refuses : ∀ path bytes s, ((Host.write path bytes : StateM σ Bool).run s).1 = false →
    file (disk ((Host.write path bytes : StateM σ Bool).run s).2) = file (disk s)
  /-- A write that is done has stored all of the bytes in the place of the path, and nothing
  anywhere else. -/
  stores : ∀ path bytes s, ((Host.write path bytes : StateM σ Bool).run s).1 = true →
    ∃ here, place (disk s) path = some here ∧
      file (disk ((Host.write path bytes : StateM σ Bool).run s).2) here = some bytes ∧
      ∀ other, other ≠ here →
        file (disk ((Host.write path bytes : StateM σ Bool).run s).2) other = file (disk s) other

namespace Storage

variable {σ δ κ : Type} [Host (StateM σ)] (store : Storage σ δ κ)

/-- The second disk has the bytes under the path, and is like the first one elsewhere. -/
def Stored (before after : δ) (path : String) (bytes : ByteArray) : Prop :=
  ∃ here, store.place before path = some here ∧ store.file after here = some bytes ∧
    ∀ other, other ≠ here → store.file after other = store.file before other

/-- A run that begins with the disk ends with a value and a disk as in `ended`, or stops with a
disk as in `stopped`. -/
def Triple {α : Type} (d : δ) (x : Run (StateM σ) α) (ended : α → δ → Prop) (stopped : δ → Prop) :
    Prop :=
  ∀ s, store.disk s = d →
    match x.run.run s with
    | (.ok a, after) => ended a (store.disk after)
    | (.error _, after) => stopped (store.disk after)

/-- The run leaves the disk as it is, and if it ends it gives a value as described. -/
def Reads {α : Type} (d : δ) (x : Run (StateM σ) α) (given : α → Prop) : Prop :=
  store.Triple d x (fun a after => after = d ∧ given a) (· = d)

variable {store} {α β : Type} {d : δ} {ended : α → δ → Prop} {stopped : δ → Prop}

namespace Triple

theorem pure {a : α} (h : ended a d) : store.Triple d (Pure.pure a) ended stopped := by
  rintro s rfl
  exact h

theorem throw {e : Fault} (h : stopped d) :
    store.Triple d (MonadExcept.throw e : Run (StateM σ) α) ended stopped := by
  rintro s rfl
  exact h

theorem bind {x : Run (StateM σ) α} {f : α → Run (StateM σ) β} {last : β → δ → Prop}
    (first : store.Triple d x ended stopped)
    (next : ∀ a after, ended a after → store.Triple after (f a) last stopped) :
    store.Triple d (x >>= f) last stopped := by
  intro s hs
  have run : (x >>= f).run.run s =
      match x.run.run s with
      | (.ok a, after) => (f a).run.run after
      | (.error e, after) => (.error e, after) := by
    rw [ExceptT.run_bind, StateT.run_bind]
    rcases x.run.run s with ⟨_ | _, after⟩ <;> rfl
  rw [run]
  have here := first s hs
  generalize x.run.run s = outcome at here ⊢
  rcases outcome with ⟨e | a, after⟩
  · exact here
  · exact next a _ here after rfl

theorem mono {x : Run (StateM σ) α} {ended' : α → δ → Prop} {stopped' : δ → Prop}
    (h : store.Triple d x ended stopped) (ends : ∀ a after, ended a after → ended' a after)
    (stops : ∀ after, stopped after → stopped' after) : store.Triple d x ended' stopped' := by
  intro s hs
  have here := h s hs
  generalize x.run.run s = outcome at here ⊢
  rcases outcome with ⟨e | a, after⟩
  · exact stops _ here
  · exact ends _ _ here

theorem lift {act : StateM σ α}
    (h : ∀ s, store.disk s = d → ended (act.run s).1 (store.disk (act.run s).2)) :
    store.Triple d (ExceptT.lift act) ended stopped := by
  intro s hs
  have run : (ExceptT.lift act : Run (StateM σ) α).run.run s =
      (.ok (act.run s).1, (act.run s).2) := rfl
  rw [run]
  exact h s hs

/-- What is printed neither changes the disk nor stops the run. -/
theorem say {ended : Unit → δ → Prop} {line : String} (h : ended () d) :
    store.Triple d (CommandLine.say line) ended stopped := by
  apply lift
  rintro s rfl
  rwa [store.prints]

theorem forM_say {ended : Unit → δ → Prop} {lines : List α} {line : α → String} (h : ended () d) :
    store.Triple d (lines.forM fun x => CommandLine.say (line x)) ended stopped := by
  induction lines with
  | nil => exact pure h
  | cons x rest ih =>
    have first : store.Triple d (CommandLine.say (line x)) (fun _ after => after = d) stopped :=
      say rfl
    exact bind first fun _ _ same => same ▸ ih

theorem look {ended : Entry → δ → Prop} {path : String} (h : ended (store.look d path) d) :
    store.Triple d (CommandLine.look path) ended stopped := by
  apply lift
  rintro s rfl
  obtain ⟨entry, kept⟩ := store.looks path s
  rwa [entry, kept]

/-- **A file is written whole, or the run stops with the files as they were.** -/
theorem writeFile {path : String} {bytes : ByteArray} :
    store.Triple d (CommandLine.writeFile path bytes)
      (fun _ after => store.Stored d after path bytes)
      (fun after => store.file after = store.file d) := by
  have answered : store.Triple d (ExceptT.lift (Host.write path bytes))
      (fun done after => if done then store.Stored d after path bytes
        else store.file after = store.file d)
      (fun after => store.file after = store.file d) := by
    apply lift
    rintro s rfl
    split
    · rename_i done
      exact store.stores path bytes s done
    · rename_i refused
      exact store.refuses path bytes s (by simpa using refused)
  refine bind answered fun done after h => ?_
  cases done with
  | true => exact pure h
  | false => exact throw h

end Triple

/-! ## Runs that read -/

namespace Reads

variable {given : α → Prop}

theorem pure {a : α} (h : given a) : store.Reads d (Pure.pure a) given := Triple.pure ⟨rfl, h⟩

theorem throw {e : Fault} : store.Reads d (MonadExcept.throw e : Run (StateM σ) α) given :=
  Triple.throw rfl

theorem ofExcept {e : Except Fault α} :
    store.Reads d (MonadExcept.ofExcept e : Run (StateM σ) α) (e = .ok ·) := by
  cases e with
  | error e => exact throw
  | ok a => exact pure rfl

/-- What follows a run that reads begins with the same disk. -/
theorem next {x : Run (StateM σ) α} {f : α → Run (StateM σ) β} {last : β → δ → Prop}
    (first : store.Reads d x given) (stay : stopped d)
    (next : ∀ a, given a → store.Triple d (f a) last stopped) :
    store.Triple d (x >>= f) last stopped := by
  have first : store.Triple d x (fun a after => after = d ∧ given a) stopped :=
    Triple.mono first (fun _ _ h => h) fun _ same => same ▸ stay
  refine Triple.bind first fun a after h => ?_
  obtain ⟨rfl, h⟩ := h
  exact next a h

theorem bind {x : Run (StateM σ) α} {f : α → Run (StateM σ) β} {last : β → Prop}
    (first : store.Reads d x given) (next : ∀ a, given a → store.Reads d (f a) last) :
    store.Reads d (x >>= f) last :=
  first.next rfl next

theorem say (line : String) : store.Reads d (CommandLine.say line) fun _ => True :=
  Triple.say ⟨rfl, trivial⟩

theorem forM_say (lines : List α) (line : α → String) :
    store.Reads d (lines.forM fun x => CommandLine.say (line x)) fun _ => True :=
  Triple.forM_say ⟨rfl, trivial⟩

theorem look (path : String) :
    store.Reads d (CommandLine.look path) (· = store.look d path) :=
  Triple.look ⟨rfl, rfl⟩

/-- What is read one after the other belongs to what it was read for. -/
theorem mapM {f : α → Run (StateM σ) β} {given : α → β → Prop} {l : List α}
    (each : ∀ x ∈ l, store.Reads d (f x) (given x)) :
    store.Reads d (l.mapM f) (List.Forall₂ given l) := by
  induction l with
  | nil => exact pure .nil
  | cons x rest ih =>
    rw [List.mapM_cons]
    refine (each x List.mem_cons_self).bind fun b hb => ?_
    refine (ih fun y hy => each y (List.mem_cons_of_mem _ hy)).bind fun bs hbs => ?_
    exact pure (.cons hb hbs)

end Reads

variable (store) in
theorem disk_forM_print (lines : List String) (s : σ) :
    store.disk ((lines.forM Host.print : StateM σ Unit).run s).2 = store.disk s := by
  induction lines generalizing s with
  | nil => rfl
  | cons line rest ih => exact (ih _).trans (store.prints line s)

/-- **The exit status tells how a run went.** -/
theorem execute_ends {tool : Run (StateM σ) Unit} {ended : Unit → δ → Prop}
    (h : store.Triple d tool ended stopped) {s : σ} (hs : store.disk s = d) :
    let outcome := (execute tool).run s
    (outcome.1 = .success → ended () (store.disk outcome.2)) ∧
      (outcome.1 ≠ .success → stopped (store.disk outcome.2)) := by
  have run : (execute tool).run s =
      match tool.run.run s with
      | (.ok (), after) => (.success, after)
      | (.error (.report lines), after) =>
        (.failure, ((lines.forM Host.print : StateM σ Unit).run after).2)
      | (.error .overflow, after) => (.crash, after) := by
    rw [execute, StateT.run_bind]
    rcases tool.run.run s with ⟨(_ | _) | _, after⟩ <;> rfl
  have here := h s hs
  rw [run]
  generalize tool.run.run s = outcome at here ⊢
  rcases outcome with ⟨(lines | _) | _, after⟩
  · have kept := store.disk_forM_print lines after
    exact ⟨fun done => by simp at done, fun _ => kept ▸ here⟩
  · exact ⟨fun done => by simp at done, fun _ => here⟩
  · exact ⟨fun _ => here, fun stopped => absurd rfl stopped⟩

end Storage

/-! ## Disks -/

theorem Disk.write_cases (d : Disk) (path : String) (bytes : ByteArray) :
    d.write path bytes = (false, d) ∨
      ∃ place, d.locate path = some place ∧
        d.write path bytes = (true, { d with files := d.files.insert place bytes }) := by
  unfold Disk.write
  cases found : d.locate path with
  | none => exact .inl rfl
  | some place =>
    dsimp only
    split
    · exact .inl rfl
    · exact .inr ⟨place, rfl, rfl⟩

/-- A disk that is a value keeps files. -/
def Disk.storage : Storage Session Disk (List String) where
  disk := Session.disk
  look := Disk.look
  place := Disk.locate
  file d := d.files.get?
  prints _ _ := rfl
  looks _ _ := ⟨rfl, rfl⟩
  refuses path bytes s refused := by
    change (s.disk.write path bytes).2.files.get? = s.disk.files.get?
    rcases s.disk.write_cases path bytes with same | ⟨place, -, done⟩
    · rw [same]
    · change (s.disk.write path bytes).1 = false at refused
      rw [done] at refused
      cases refused
  stores path bytes s done := by
    change ∃ here, s.disk.locate path = some here ∧
      (s.disk.write path bytes).2.files.get? here = some bytes ∧
      ∀ other, other ≠ here →
        (s.disk.write path bytes).2.files.get? other = s.disk.files.get? other
    rcases s.disk.write_cases path bytes with same | ⟨place, found, written⟩
    · change (s.disk.write path bytes).1 = true at done
      rw [same] at done
      cases done
    · refine ⟨place, found, ?_, fun other apart => ?_⟩
      · rw [written, Table.get?_insert, if_pos rfl]
      · rw [written, Table.get?_insert, if_neg apart]

@[simp] theorem Disk.storage_disk (s : Session) : Disk.storage.disk s = s.disk := rfl

end HackToolchain.CommandLine
