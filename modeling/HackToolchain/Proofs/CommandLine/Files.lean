import HackToolchain.Proofs.CommandLine.Options
import HackToolchain.Proofs.CommandLine.Outputs
import HackToolchain.Proofs.CommandLine.Storage
import HackToolchain.Proofs.Vm.Output

/-!
# What the tools do to files

* `LinesIn`, `DescriptorIn`, `UnitsIn`: what the inputs of a tool hold;
* `AssemblerOptions.Writes`, `TranslatorOptions.Writes`: the one file that a tool writes;
* `assembler_ends`, `translator_ends`, `emulator_reads`: each tool writes its file last or stops
  with the files as they were;
* `command_files`: so no tool leaves a part of its output.
-/

namespace HackToolchain.CommandLine

/-! ## Inputs -/

section

variable (look : String → Entry)

/-- The lines of an input of the assembler. -/
def LinesIn (path : String) (lines : List SourceLine) : Prop :=
  ∃ text, textOf? (look path) = some text ∧ lines = SourceLine.ofText path text

/-- The machine that a program is assembled for. -/
def DescriptorIn : Option String → Descriptor → Prop
  | none, d => d = hack
  | some path, d => ∃ text, textOf? (look path) = some text ∧ Descriptor.ofText path text = .ok d

/-- The files that an input of the translator stands for: itself, or those of a directory that end in
`.vm`, in the order of their names. -/
inductive SourcesIn (input : String) : List String → Prop
  | file (single : ∀ names name, look input ≠ .directory names name) : SourcesIn input [input]
  | directory {names : List String} {name : Option String} {files paths : List String}
    (entry : look input = .directory names name)
    (all : files.Perm (names.filter fun n => Path.extension? n = some "vm"))
    (ordered : files.Pairwise (· ≤ ·)) (inside : List.Forall₂ (Path.Joined input) files paths) :
    SourcesIn input paths

def UnitIn (path : String) (unit : SourceUnit) : Prop :=
  ∃ text, textOf? (look path) = some text ∧
    unit = ⟨(Path.stem? path).getD "", SourceLine.ofText path text⟩

/-- The units of an input of the translator; a directory without any is no input. -/
def UnitsIn (input : String) (units : List SourceUnit) : Prop :=
  ∃ paths, SourcesIn look input paths ∧ paths ≠ [] ∧ List.Forall₂ (UnitIn look) paths units

end

/-- One translator takes all units in turn, and none of them fails. -/
inductive Translates : Vm.Translator → List SourceUnit → Vm.Translator → Prop
  | done (t : Vm.Translator) : Translates t [] t
  | unit {t next last : Vm.Translator} {unit : SourceUnit} {rest : List SourceUnit}
    (translated : t.translate unit.name unit.lines = (none, next)) (later : Translates next rest last) :
    Translates t (unit :: rest) last

/-! ## Outputs -/

section

variable (look : String → Entry)

/-- The assembler writes the program that all inputs make together, in one file. -/
def AssemblerOptions.Writes (o : AssemblerOptions) (path : String) (bytes : ByteArray) : Prop :=
  ∃ d sources p, DescriptorIn look o.descriptor d ∧ List.Forall₂ (LinesIn look) o.inputs sources ∧
    Assembly.assemble d sources.flatten = .ok p ∧ o.LeadsTo path ∧
    match o.format with
    | .text => HoldsText p bytes
    | .binary => HoldsBytes d p bytes

/-- The translator writes the lines of all units, or the words that they are assembled to. -/
def TranslatorOptions.Writes (o : TranslatorOptions) (path : String) (bytes : ByteArray) : Prop :=
  ∃ units t, List.Forall₂ (UnitsIn look) o.inputs units ∧
    Translates (.started (if o.bootstrap then some o.entry else none)) units.flatten t ∧
    o.LeadsTo look path ∧
    if o.assemble then
      ∃ p, Assembly.assemble hack (SourceLine.ofRaws (Path.generatedName path) t.lines) = .ok p ∧
        HoldsText p bytes
    else HoldsLines t.lines bytes

end

/-! ## Reading -/

section

variable {σ δ κ : Type} [Host (StateM σ)] {store : Storage σ δ κ} {d : δ}

open Storage

theorem readSource_reads (path : String) :
    store.Reads d (readSource path) (LinesIn (store.look d) path) := by
  unfold readSource
  refine (Reads.say _).bind fun _ _ => (Reads.look path).bind fun entry found => ?_
  cases entry with
  | absent => exact Reads.throw
  | directory names name => exact Reads.throw
  | file bytes =>
    dsimp only
    cases read : textOf? (.file bytes) with
    | none => exact Reads.throw
    | some text => exact Reads.pure ⟨text, found ▸ read, rfl⟩

theorem descriptorOf_reads (descriptor : Option String) :
    store.Reads d (descriptorOf descriptor) (DescriptorIn (store.look d) descriptor) := by
  cases descriptor with
  | none => exact Reads.pure rfl
  | some path =>
    unfold descriptorOf loadDescriptor
    refine (Reads.look path).bind fun entry found => ?_
    cases read : textOf? entry with
    | none => exact Reads.throw
    | some text =>
      dsimp only
      cases loaded : Descriptor.ofText path text with
      | ok machine => exact Reads.pure ⟨text, found ▸ read, loaded⟩
      | error e => cases e <;> exact Reads.throw

theorem assembleLines_reads (machine : Descriptor) (lines : List SourceLine) :
    store.Reads d (assembleLines machine lines) (Assembly.assemble machine lines = .ok ·) := by
  unfold assembleLines
  cases assembled : Assembly.assemble machine lines with
  | error ds => exact Reads.throw
  | ok p => exact (Reads.say _).bind fun _ _ => Reads.pure rfl

theorem readUnit_reads (path : String) :
    store.Reads d (readUnit path) (UnitIn (store.look d) path) := by
  unfold readUnit
  refine (Reads.say _).bind fun _ _ => (Reads.look path).bind fun entry found => ?_
  cases read : textOf? entry with
  | none => exact Reads.throw
  | some text => exact Reads.pure ⟨text, found ▸ read, rfl⟩

theorem sourcesIn_sourcesOf (look : String → Entry) (input : String) :
    SourcesIn look input (sourcesOf input (look input)) := by
  unfold sourcesOf
  split
  · rename_i names name entry
    let files := names.filter fun n => Path.extension? n = some "vm"
    have sorted : (files.mergeSort fun a b => a ≤ b).Pairwise fun a b => decide (a ≤ b) :=
      List.pairwise_mergeSort (fun a b c => by simpa using String.le_trans)
        (fun a b => by simpa using String.le_total a b) files
    refine .directory entry (List.mergeSort_perm files fun a b => a ≤ b)
      (sorted.imp fun h => of_decide_eq_true h) ?_
    exact List.forall₂_map_right_iff.2 (List.forall₂_same.2 fun name _ => Path.joined input name)
  · rename_i single
    exact .file single

theorem readUnits_reads (input : String) :
    store.Reads d (readUnits input) (UnitsIn (store.look d) input) := by
  unfold readUnits
  refine (Reads.look input).bind fun entry found => ?_
  have sources := sourcesIn_sourcesOf (store.look d) input
  rw [← found] at sources
  cases paths : sourcesOf input entry with
  | nil => exact Reads.throw
  | cons path rest =>
    rw [paths] at sources
    refine Triple.mono (Reads.mapM fun x _ => readUnit_reads x) ?_ fun _ same => same
    exact fun units _ ⟨same, read⟩ => ⟨same, _, sources, List.cons_ne_nil _ _, read⟩

theorem translates_of_translateUnits {t last : Vm.Translator} {units : List SourceUnit}
    (h : translateUnits t units = .ok last) : Translates t units last := by
  induction units generalizing t with
  | nil =>
    obtain rfl := Except.ok.inj h
    exact .done t
  | cons unit rest ih =>
    rw [translateUnits] at h
    split at h
    · rename_i next translated
      exact .unit translated (ih h)
    · cases h

/-! ## Tools -/

/-- How a tool ends that writes one file last. -/
def EndsWriting (store : Storage σ δ κ) (d : δ) (writes : String → ByteArray → Prop)
    (tool : Run (StateM σ) Unit) : Prop :=
  store.Triple d tool
    (fun _ after => ∃ path bytes, writes path bytes ∧ store.Stored d after path bytes)
    (fun after => store.file after = store.file d)

theorem EndsWriting.mono {writes writes' : String → ByteArray → Prop}
    {tool : Run (StateM σ) Unit} (h : EndsWriting store d writes tool)
    (more : ∀ path bytes, writes path bytes → writes' path bytes) :
    EndsWriting store d writes' tool :=
  Triple.mono h
    (fun _ _ ⟨path, bytes, written, stored⟩ => ⟨path, bytes, more path bytes written, stored⟩)
    fun _ same => same

theorem assembler_ends {o : AssemblerOptions} (inputs : o.inputs ≠ []) :
    EndsWriting store d (o.Writes (store.look d)) (assembler o) := by
  unfold assembler EndsWriting
  refine (Reads.say _).next rfl fun _ _ => ?_
  refine (descriptorOf_reads o.descriptor).next rfl fun machine loaded => ?_
  refine (Reads.say _).next rfl fun _ _ => ?_
  refine (Reads.mapM fun path _ => readSource_reads path).next rfl fun sources read => ?_
  refine (Reads.say _).next rfl fun _ _ => ?_
  refine (assembleLines_reads machine sources.flatten).next rfl fun p assembled => ?_
  refine (Reads.say _).next rfl fun _ _ => (Reads.say _).next rfl fun _ _ => ?_
  refine Triple.writeFile.bind fun _ after stored => ?_
  have ended : ∃ path bytes, o.Writes (store.look d) path bytes ∧ store.Stored d after path bytes :=
    ⟨_, _, ⟨machine, sources, p, loaded, read, assembled, AssemblerOptions.leadsTo_outputPath inputs,
      o.holds_serialize machine p⟩, stored⟩
  -- The listing is printed when all is done.
  split
  · exact Triple.forM_say ended
  · exact Triple.pure ended

theorem announce_reads (o : TranslatorOptions) (line : String → String) :
    store.Reads d (o.entry?.forM fun entry => say (line entry)) fun _ => True := by
  cases o.entry? with
  | none => exact Reads.pure trivial
  | some entry => exact Reads.say _

theorem outputOf_reads {o : TranslatorOptions} (inputs : o.inputs ≠ []) :
    store.Reads d (outputOf o) (o.LeadsTo (store.look d)) := by
  unfold outputOf
  cases output : o.output with
  | some path => exact Reads.pure (.given output)
  | none =>
    obtain ⟨input, rest, first⟩ := List.exists_cons_of_ne_nil inputs
    rw [first, List.head?_cons, Option.getD_some]
    refine (Reads.look input).bind fun entry found => Reads.pure ?_
    rw [found]
    exact TranslatorOptions.leadsTo_default output first

theorem translator_ends {o : TranslatorOptions} (inputs : o.inputs ≠ []) :
    EndsWriting store d (o.Writes (store.look d)) (translator o) := by
  unfold translator EndsWriting
  refine (Reads.say _).next rfl fun _ _ => (Reads.say _).next rfl fun _ _ => ?_
  refine (Reads.mapM fun input _ => readUnits_reads input).next rfl fun units read => ?_
  refine (Reads.say _).next rfl fun _ _ => (announce_reads o _).next rfl fun _ _ => ?_
  refine Reads.ofExcept.next rfl fun t translated => ?_
  refine (outputOf_reads inputs).next rfl fun path output => ?_
  have started : Translates (.started (if o.bootstrap then some o.entry else none))
      units.flatten t := by
    apply translates_of_translateUnits
    rw [← TranslatorOptions.entry?]
    cases chosen : o.entry? with
    | none =>
      simp only [chosen] at translated
      exact translated
    | some entry =>
      simp only [chosen] at translated
      exact translated
  have ended : ∀ bytes after,
      (if o.assemble then
        ∃ p, Assembly.assemble hack (SourceLine.ofRaws (Path.generatedName path) t.lines) = .ok p ∧
          HoldsText p bytes
        else HoldsLines t.lines bytes) →
      store.Stored d after path bytes →
      ∃ path bytes, o.Writes (store.look d) path bytes ∧ store.Stored d after path bytes :=
    fun bytes after written stored => ⟨path, bytes, ⟨units, t, read, started, output, written⟩, stored⟩
  split
  · rename_i assemble
    refine (Reads.say _).next rfl fun _ _ => ?_
    refine (assembleLines_reads _ _).next rfl fun p assembled => ?_
    refine (Reads.say _).next rfl fun _ _ => (Reads.say _).next rfl fun _ _ => ?_
    refine Triple.writeFile.mono (fun _ after stored => ended _ after ?_ stored) fun _ same => same
    rw [if_pos assemble]
    exact ⟨p, assembled, rfl, rfl⟩
  · rename_i plain
    refine (Reads.say _).next rfl fun _ _ => (Reads.say _).next rfl fun _ _ => ?_
    refine Triple.writeFile.mono (fun _ after stored => ended _ after ?_ stored) fun _ same => same
    rw [if_neg plain]
    rfl

theorem loadProgram_reads (path : String) :
    store.Reads d (loadProgram path) fun _ => True := by
  unfold loadProgram
  refine (Reads.look path).bind fun entry _ => ?_
  cases textOf? entry with
  | none => exact Reads.throw
  | some text =>
    dsimp only
    cases Machine.initial.load hack text with
    | ok machine => exact Reads.pure trivial
    | error e => cases e <;> exact Reads.throw

theorem loadPlan_reads (read : String → Option DumpPlan) (plan : Option String) :
    store.Reads d (loadPlan read plan) fun _ => True := by
  cases plan with
  | none => exact Reads.pure trivial
  | some path =>
    unfold loadPlan
    refine (Reads.look path).bind fun entry _ => ?_
    cases textOf? entry with
    | none => exact Reads.throw
    | some text =>
      dsimp only
      cases read text with
      | none => exact Reads.throw
      | some plan => exact Reads.pure trivial

/-- Watching prints and does nothing else, batch after batch. -/
theorem watchRun_reads (hooks : List Hook) (limit : Nat) (p : Progress) :
    store.Reads d (watchRun hooks limit p) fun _ => True := by
  induction limit using Nat.strongRecOn generalizing p with
  | ind limit ih =>
    unfold watchRun
    split
    · exact Reads.pure trivial
    · cases limit with
      | zero => exact Reads.pure trivial
      | succ limit =>
        dsimp only
        have printed : ∀ lines : Array String, store.Reads d (lines.forM say) fun _ => True := by
          rintro ⟨lines⟩
          rw [List.forM_toArray' _ _ rfl]
          exact Reads.forM_say lines id
        refine (printed _).bind fun _ _ => ?_
        apply ih
        have some_step : 0 < batch := by decide
        omega

theorem emulator_reads (read : String → Option DumpPlan) (o : EmulatorOptions) :
    store.Reads d (emulator read o) fun _ => True := by
  unfold emulator
  refine (Reads.say _).bind fun _ _ => (Reads.say _).bind fun _ _ => ?_
  refine (Reads.say _).bind fun _ _ => (Reads.say _).bind fun _ _ => ?_
  refine (loadProgram_reads o.input).bind fun machine _ => (Reads.say _).bind fun _ _ => ?_
  refine (loadPlan_reads read o.plan).bind fun plan _ => ?_
  refine (Reads.forM_say _ id).bind fun _ _ => ?_
  refine (watchRun_reads _ _ _).bind fun done _ => (Reads.say _).bind fun _ _ => Reads.say _

/-- The file that a tool writes on these arguments; the emulator writes none. -/
def Tool.Writes (look : String → Entry) (args : List String) (path : String) (bytes : ByteArray) :
    Tool → Prop
  | .assembler => ∃ arguments o, Argument.parse AssemblerOptions.specs args = some arguments ∧
      AssemblerOptions.parse args = some o ∧ o.GivenBy arguments ∧ o.Writes look path bytes
  | .translator => ∃ arguments o, Argument.parse TranslatorOptions.specs args = some arguments ∧
      TranslatorOptions.parse args = some o ∧ o.GivenBy arguments ∧ o.Writes look path bytes
  | .emulator => False

/-- Every tool but the emulator ends by writing. -/
theorem command_ends (store : Storage σ δ κ) {t : Tool} {args : List String}
    {run : StateM σ ExitStatus} (accepted : t.command? args = some run) :
    (t = .emulator ∧ ∃ o, execute (emulator DumpPlan.ofText? o) = run) ∨
      (t ≠ .emulator ∧ ∃ tool, execute tool = run ∧
        ∀ d, EndsWriting store d (fun path bytes => t.Writes (store.look d) args path bytes)
          tool) := by
  cases t with
  | assembler =>
    obtain ⟨o, parsed, ran⟩ := Option.map_eq_some_iff.1 accepted
    obtain ⟨arguments, read, given⟩ := AssemblerOptions.givenBy_of_parse parsed
    exact .inr ⟨by simp, _, ran, fun d => (assembler_ends given.inputs_ne_nil).mono
      fun _ _ written => ⟨arguments, o, read, parsed, given, written⟩⟩
  | translator =>
    obtain ⟨o, parsed, ran⟩ := Option.map_eq_some_iff.1 accepted
    obtain ⟨arguments, read, given⟩ := TranslatorOptions.givenBy_of_parse parsed
    exact .inr ⟨by simp, _, ran, fun d => (translator_ends given.some_input).mono
      fun _ _ written => ⟨arguments, o, read, parsed, given, written⟩⟩
  | emulator =>
    obtain ⟨o, -, ran⟩ := Option.map_eq_some_iff.1 accepted
    exact .inl ⟨rfl, o, ran⟩

/-- **The tools never leave partial output.** On a host that writes a file whole or not at all,
a run that does not succeed leaves every file as it was, and the emulator always does. If the
assembler or the translator succeeds, the file at the output path is all of its output, and no
other file has changed. -/
theorem command_files (store : Storage σ δ κ) {t : Tool} {args : List String}
    {run : StateM σ ExitStatus} (accepted : t.command? args = some run) (s : σ) :
    let before := store.disk s
    let status := (run.run s).1
    let after := store.disk (run.run s).2
    (status ≠ .success → store.file after = store.file before) ∧
    (t = .emulator → store.file after = store.file before) ∧
    (t ≠ .emulator → status = .success →
      ∃ path bytes, t.Writes (store.look before) args path bytes ∧
        store.Stored before after path bytes) := by
  rcases command_ends store accepted with ⟨rfl, o, rfl⟩ | ⟨writer, tool, rfl, ends⟩
  · have reads : store.Reads (store.disk s) (emulator DumpPlan.ofText? o) fun _ => True :=
      emulator_reads _ o
    obtain ⟨done, stopped⟩ := execute_ends reads (s := s) rfl
    intro before status after
    have same : store.file after = store.file before := by
      by_cases success : status = .success
      · exact congrArg store.file (done success).1
      · exact congrArg store.file (stopped success)
    exact ⟨fun _ => same, fun _ => same, fun other => absurd rfl other⟩
  · obtain ⟨done, stopped⟩ := execute_ends (ends (store.disk s)) (s := s) rfl
    exact ⟨stopped, fun other => absurd other writer, fun _ => done⟩

end

/-- A program of two instructions. -/
def adding : Disk := Disk.empty.addFile ["main.asm"] "@2\nD=D+A\n".toUTF8

theorem command_files_adding :
    ∃ run : StateM Session ExitStatus, Tool.assembler.command? ["main.asm"] = some run ∧
      (run.run ⟨adding, ""⟩).1 = .success ∧
      Disk.storage.Stored adding (run.run ⟨adding, ""⟩).2.disk "main.hack"
        "0000000000000010\n1110000010010000\n".toUTF8 := by
  let o : AssemblerOptions := ⟨["main.asm"], none, .text, none, false⟩
  let run : StateM Session ExitStatus := execute (assembler o)
  have parsed : AssemblerOptions.parse ["main.asm"] = some o := by decide +kernel
  have accepted : Tool.assembler.command? ["main.asm"] = some run := by
    rw [Tool.command?, parsed]
    rfl
  have success : (run.run ⟨adding, ""⟩).1 = .success := by decide +kernel
  obtain ⟨-, -, written⟩ := command_files Disk.storage accepted ⟨adding, ""⟩
  obtain ⟨path, bytes, ⟨_, other, -, same, -, writes⟩, stored⟩ := written (by decide) success
  obtain rfl : o = other := Option.some.inj (parsed.symm.trans same)
  obtain ⟨d, sources, p, rfl, read, assembled, leads, holds⟩ := writes
  have path_eq : path = "main.hack" := by
    cases leads with
    | given output => cases output
    | replaced output first =>
      have whole : "main" ++ ".asm" = _ ++ ".asm" := (List.cons.inj first).1
      rw [← (String.append_left_inj ".asm").1 whole]
      rfl
    | added output first other => exact absurd (List.cons.inj first).1.symm (other "main")
  have bytes_eq : bytes = "0000000000000010\n1110000010010000\n".toUTF8 := by
    cases read with
    | cons here none =>
      cases none
      obtain ⟨text, found, rfl⟩ := here
      have there : textOf? (adding.look "main.asm") = some "@2\nD=D+A\n" := by decide +kernel
      obtain rfl := Option.some.inj (found.symm.trans there)
      have words : (Assembly.assemble hack (SourceLine.ofText "main.asm" "@2\nD=D+A\n")).toOption.map
          Assembly.Program.words = some [⟨2, 16⟩, ⟨0xE090, 16⟩] := by decide +kernel
      have same : Assembly.assemble hack (SourceLine.ofText "main.asm" "@2\nD=D+A\n") = .ok p := by
        rw [← assembled, List.flatten_cons, List.flatten_nil, List.append_nil]
      rw [same] at words
      rw [holds.2, holds.1, Option.some.inj words]
      decide +kernel
  rw [path_eq, bytes_eq] at stored
  exact ⟨run, accepted, success, stored⟩

end HackToolchain.CommandLine
