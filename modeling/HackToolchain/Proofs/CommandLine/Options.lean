import HackToolchain.CommandLine.Tool
import HackToolchain.Proofs.Vm.Grammar

/-!
# Where the options come from

* `Argument.nodup_names`: no option is named twice in the arguments of a command line;
* `Gives`, `Takes`: the value of an option, if it has one, and the positional arguments in order;
* `gives_value?`: the value that is found is the only one that the arguments give;
* `GivenBy`, for each tool: its options are those of the arguments, or what it goes by without them;
* `givenBy_of_parse`: so it is whenever a tool accepts its arguments.
-/

namespace HackToolchain.CommandLine

/-! ## Names that stand once -/

theorem length_eraseDups_le (names : List String) : names.eraseDups.length ≤ names.length := by
  cases names with
  | nil => exact Nat.le_refl 0
  | cons name rest =>
    have fewer := rest.length_filter_le (!· == name)
    have shorter := length_eraseDups_le (rest.filter (!· == name))
    rw [List.eraseDups_cons]
    exact Nat.succ_le_succ (shorter.trans fewer)
termination_by names.length
decreasing_by exact Nat.lt_succ_of_le (rest.length_filter_le _)

theorem nodup_of_length_eraseDups {names : List String}
    (same : names.length = names.eraseDups.length) : names.Nodup := by
  induction names with
  | nil => exact .nil
  | cons name rest ih =>
    rw [List.eraseDups_cons, List.length_cons, List.length_cons, Nat.add_right_cancel_iff] at same
    have others : rest.filter (!· == name) = rest :=
      List.filter_sublist.eq_of_length_le (same ▸ length_eraseDups_le _)
    rw [others] at same
    refine List.nodup_cons.2 ⟨fun again => ?_, ih same⟩
    rw [← others, List.mem_filter] at again
    simp at again

theorem Argument.nodup_names {specs : List OptionSpec} {args : List String}
    {arguments : List Argument} (parsed : Argument.parse specs args = some arguments) :
    (arguments.filterMap Argument.name?).Nodup := by
  obtain ⟨-, once⟩ := Option.filter_eq_some_iff.1 parsed
  exact nodup_of_length_eraseDups (of_decide_eq_true once)

/-! ## Arguments -/

section

variable (arguments : List Argument)

/-- An option has this value, or none. -/
def Gives (name : String) : Option String → Prop
  | some text => .value name text ∈ arguments
  | none => ∀ text, .value name text ∉ arguments

/-- The arguments that belong to no option, in their order. -/
def Takes (inputs : List String) : Prop :=
  arguments.filter (·.name?.isNone) = inputs.map .positional

end

section

variable {arguments : List Argument}

theorem takes_positionals : Takes arguments (positionals arguments) := by
  unfold Takes
  induction arguments with
  | nil => rfl
  | cons a rest ih =>
    cases a with
    | positional text => exact congrArg (.positional text :: ·) ih
    | flag name => exact ih
    | value name text => exact ih

theorem hasFlag_iff {name : String} : hasFlag arguments name = true ↔ .flag name ∈ arguments :=
  List.contains_iff_mem

/-- **The value of an option is the one that stands in the arguments.** -/
theorem value?_eq_some_iff (once : (arguments.filterMap Argument.name?).Nodup)
    {name text : String} : value? arguments name = some text ↔ .value name text ∈ arguments := by
  induction arguments with
  | nil => simp [value?]
  | cons a rest ih =>
    cases a with
    | positional _ =>
      have later := ih once
      simpa [value?] using later
    | flag _ =>
      have later := ih (List.nodup_cons.1 once).2
      simpa [value?] using later
    | value other _ =>
      obtain ⟨new, once⟩ := List.nodup_cons.1 once
      have later := ih once
      by_cases same : other = name
      · have absent : .value name text ∉ rest := fun again =>
          new (List.mem_filterMap.2 ⟨_, again, congrArg some same.symm⟩)
        simp [value?, same, absent, eq_comm]
      · have apart : name ≠ other := Ne.symm same
        simpa [value?, same, apart] using later

theorem gives_value? (once : (arguments.filterMap Argument.name?).Nodup) (name : String) :
    Gives arguments name (value? arguments name) := by
  cases found : value? arguments name with
  | some text => exact (value?_eq_some_iff once).1 found
  | none =>
    intro text there
    rw [(value?_eq_some_iff once).2 there] at found
    cases found

end

/-! ## Options -/

/-- Without inputs the assembler reads `main.asm`, and it writes text if it is not told to write
bytes. -/
structure AssemblerOptions.GivenBy (arguments : List Argument) (o : AssemblerOptions) : Prop where
  inputs : o.inputs ≠ [] ∧ Takes arguments o.inputs ∨
    Takes arguments [] ∧ o.inputs = ["main.asm"]
  output : Gives arguments "output" o.output
  format : match o.format with
    | .text => Gives arguments "format" none ∨ Gives arguments "format" (some "text")
    | .binary => Gives arguments "format" (some "bin")
  descriptor : Gives arguments "isa" o.descriptor
  listing : o.listing = true ↔ .flag "dump" ∈ arguments

/-- The translator needs an input. The function that it can call first is `Sys.init` if no other is
named. -/
structure TranslatorOptions.GivenBy (arguments : List Argument) (o : TranslatorOptions) : Prop where
  some_input : o.inputs ≠ []
  inputs : Takes arguments o.inputs
  output : Gives arguments "output" o.output
  bootstrap : o.bootstrap = true ↔ .flag "bootstrap" ∈ arguments
  entry : Gives arguments "entry" (some o.entry) ∨
    Gives arguments "entry" none ∧ o.entry = "Sys.init"
  assemble : o.assemble = true ↔ .flag "assemble" ∈ arguments

/-- A number of steps in decimal digits, after a plus sign or not. -/
def Counts (text : String) (n : Nat) : Prop :=
  ∃ digits : List Char, (text.toList = digits ∨ text.toList = '+' :: digits) ∧ digits ≠ [] ∧
    (∀ c ∈ digits, '0' ≤ c ∧ c ≤ '9') ∧
    Nat.ofDigits 10 (digits.reverse.map fun c => c.toNat - '0'.toNat) = n

/-- The emulator runs one program, `main.hack` if no other is named, for as many steps as it is told
or as can be counted. -/
structure EmulatorOptions.GivenBy (arguments : List Argument) (o : EmulatorOptions) : Prop where
  input : Takes arguments [o.input] ∨ Takes arguments [] ∧ o.input = "main.hack"
  limit : (∃ text, Gives arguments "tmax" (some text) ∧ Counts text o.limit ∧ o.limit < 2 ^ 64) ∨
    Gives arguments "tmax" none ∧ o.limit = 2 ^ 64 - 1
  plan : Gives arguments "dump-cfg" o.plan
  dumpAll : o.dumpAll = true ↔ .flag "dump-all" ∈ arguments
  trace : o.trace = true ↔ .flag "trace" ∈ arguments

theorem AssemblerOptions.formatOf?_eq_some {name : Option String} {format : OutputFormat}
    (chosen : formatOf? name = some format) :
    format = .text ∧ (name = none ∨ name = some "text") ∨
      format = .binary ∧ name = some "bin" := by
  cases name with
  | none => exact .inl ⟨(Option.some.inj chosen).symm, .inl rfl⟩
  | some name =>
    unfold formatOf? at chosen
    dsimp only at chosen
    split at chosen
    · rename_i text
      exact .inl ⟨(Option.some.inj chosen).symm, .inr (congrArg some text)⟩
    · obtain ⟨binary, same⟩ := Option.ite_none_right_eq_some.1 chosen
      exact .inr ⟨(Option.some.inj same).symm, congrArg some binary⟩

theorem AssemblerOptions.givenBy_of_parse {args : List String} {o : AssemblerOptions}
    (parsed : parse args = some o) :
    ∃ arguments, Argument.parse specs args = some arguments ∧ o.GivenBy arguments := by
  obtain ⟨arguments, read, parsed⟩ := Option.bind_eq_some_iff.1 parsed
  obtain ⟨format, chosen, rfl⟩ := Option.map_eq_some_iff.1 parsed
  have gives := gives_value? (Argument.nodup_names read)
  refine ⟨arguments, read, ?_, gives "output", ?_, gives "isa", hasFlag_iff⟩
  · have takes : Takes arguments _ := takes_positionals
    dsimp only
    split
    · rename_i none
      exact .inr ⟨none ▸ takes, rfl⟩
    · rename_i filled
      exact .inl ⟨filled, takes⟩
  · have given := gives "format"
    rcases formatOf?_eq_some chosen with ⟨rfl, none | text⟩ | ⟨rfl, binary⟩
    · exact .inl (none ▸ given)
    · exact .inr (text ▸ given)
    · exact binary ▸ given

theorem AssemblerOptions.GivenBy.inputs_ne_nil {arguments : List Argument} {o : AssemblerOptions}
    (given : o.GivenBy arguments) : o.inputs ≠ [] := by
  rcases given.inputs with ⟨filled, -⟩ | ⟨-, default⟩
  · exact filled
  · simp [default]

theorem TranslatorOptions.givenBy_of_parse {args : List String} {o : TranslatorOptions}
    (parsed : parse args = some o) :
    ∃ arguments, Argument.parse specs args = some arguments ∧ o.GivenBy arguments := by
  obtain ⟨arguments, read, parsed⟩ := Option.bind_eq_some_iff.1 parsed
  have gives := gives_value? (Argument.nodup_names read)
  split at parsed
  · cases parsed
  · rename_i filled
    obtain rfl := Option.some.inj parsed
    refine ⟨arguments, read, filled, takes_positionals, gives "output", hasFlag_iff, ?_, hasFlag_iff⟩
    have given := gives "entry"
    cases found : value? arguments "entry" with
    | none => exact .inr ⟨found ▸ given, rfl⟩
    | some entry => exact .inl (found ▸ given)

theorem EmulatorOptions.counts_of_limitOf? {text : String} {n : Nat}
    (read : limitOf? (some text) = some n) : Counts text n ∧ n < 2 ^ 64 := by
  obtain ⟨value, small⟩ := Option.filter_eq_some_iff.1 read
  have low : n < 2 ^ 64 := Nat.lt_of_le_pred (by decide) (of_decide_eq_true small)
  refine ⟨?_, low⟩
  split at value
  · rename_i digits signed
    exact ⟨digits, .inr signed, Vm.decimal?_eq_some_iff.1 value⟩
  · exact ⟨_, .inl rfl, Vm.decimal?_eq_some_iff.1 value⟩

theorem EmulatorOptions.givenBy_of_parse {args : List String} {o : EmulatorOptions}
    (parsed : parse args = some o) :
    ∃ arguments, Argument.parse specs args = some arguments ∧ o.GivenBy arguments := by
  obtain ⟨arguments, read, parsed⟩ := Option.bind_eq_some_iff.1 parsed
  obtain ⟨limit, chosen, parsed⟩ := Option.bind_eq_some_iff.1 parsed
  have gives := gives_value? (Argument.nodup_names read)
  have takes : Takes arguments _ := takes_positionals
  have limited : (∃ text, Gives arguments "tmax" (some text) ∧ Counts text limit ∧ limit < 2 ^ 64) ∨
      Gives arguments "tmax" none ∧ limit = 2 ^ 64 - 1 := by
    have given := gives "tmax"
    cases found : value? arguments "tmax" with
    | none =>
      rw [found] at chosen given
      exact .inr ⟨given, (Option.some.inj chosen).symm⟩
    | some text =>
      rw [found] at chosen given
      exact .inl ⟨text, given, counts_of_limitOf? chosen⟩
  split at parsed
  · cases parsed
  · rename_i single
    obtain rfl := Option.some.inj parsed
    refine ⟨arguments, read, ?_, limited, gives "dump-cfg", hasFlag_iff, hasFlag_iff⟩
    cases inputs : positionals arguments with
    | nil => exact .inr ⟨inputs ▸ takes, rfl⟩
    | cons input rest =>
      obtain rfl : rest = [] := by
        cases rest with
        | nil => rfl
        | cons other rest => exact absurd inputs (single _ _ _)
      exact .inl (inputs ▸ takes)

end HackToolchain.CommandLine
