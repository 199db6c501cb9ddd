import HackToolchain.CommandLine.Tool
import HackToolchain.Proofs.Assembly.TextAndBytes
import Mathlib.Data.List.TakeWhile

/-!
# What the tools write, and where

* `Path.Joined`, `Path.Renamed`: a name in a directory, and a name with another ending;
* `withExtension_of_renamed`: where a path ends in a name, the new ending follows its stem;
* `AssemblerOptions.LeadsTo`, `TranslatorOptions.LeadsTo`: the path that was given, or the one that
  comes from the first input;
* `HoldsText`, `HoldsBytes`, `HoldsLines`: the contents of a file, to the last byte;
* `holds_serialize`: which of them the assembler writes.
-/

namespace HackToolchain

/-! ## Paths -/

namespace Path

/-- A name in a directory stands behind a slash. -/
inductive Joined : String → String → String → Prop
  | here (name : String) : Joined "" name name
  | closed (front name : String) : Joined (front ++ "/") name (front ++ "/" ++ name)
  | unclosed {directory : String} (name : String) (filled : directory ≠ "")
    (unclosed : ∀ front, directory ≠ front ++ "/") : Joined directory name (directory ++ "/" ++ name)

/-- What can stand in front of the name that a path ends in. -/
def IsParent (parent : String) : Prop := parent = "" ∨ ∃ front, parent = front ++ "/"

/-- Two paths to one directory, where the name that the first one ends in has the new ending. -/
inductive Renamed (ending : String) : String → String → Prop
  /-- What follows the last dot of the name is replaced. -/
  | replaced {parent stem old : String} (behind : IsParent parent) (filled : stem ≠ "")
    (dots : stem ≠ ".") (part : '/' ∉ (stem ++ old).toList) (last : '.' ∉ old.toList) :
    Renamed ending (parent ++ stem ++ "." ++ old) (parent ++ stem ++ "." ++ ending)
  /-- A dot that the name begins with is none before an ending. -/
  | added {parent name : String} (behind : IsParent parent) (filled : name ≠ "") (dot : name ≠ ".")
    (part : '/' ∉ name.toList) (plain : '.' ∉ name.toList.tail) :
    Renamed ending (parent ++ name) (parent ++ name ++ "." ++ ending)

theorem joined (directory name : String) : Joined directory name (join directory name) := by
  rw [join]
  split
  · rename_i closed
    rw [Bool.or_eq_true, decide_eq_true_iff] at closed
    rcases closed with empty | slash
    · obtain rfl : directory = "" := by simpa using empty
      rw [String.empty_append]
      exact .here name
    · obtain ⟨front, same⟩ := List.getLast?_eq_some_iff.1 slash
      obtain rfl : directory = String.ofList front ++ "/" := by
        rw [← String.toList_inj, same, String.toList_append, String.toList_ofList]
        rfl
      exact .closed _ name
  · rename_i unclosed
    rw [Bool.or_eq_true, decide_eq_true_iff, not_or] at unclosed
    refine .unclosed name (fun empty => unclosed.1 (by rw [empty]; rfl)) ?_
    rintro front rfl
    exact unclosed.2 (by rw [String.toList_append]; exact List.getLast?_concat)

section

variable {parent name stem old ending : List Char}

/-- What comes first of a text that goes on, if at all, with the character that it lacks. -/
theorem takeWhile_ne_append {c : Char} {front back : List Char} (apart : c ∉ front)
    (stops : back = [] ∨ ∃ rest, back = c :: rest) :
    (front ++ back).takeWhile (· ≠ c) = front := by
  rw [List.takeWhile_append_of_pos]
  · rcases stops with rfl | ⟨rest, rfl⟩ <;> simp
  · intro x hx
    simpa using fun same : x = c => apart (same ▸ hx)

theorem splitName_dotted (filled : stem ≠ []) (last : '.' ∉ old) :
    splitName (stem ++ '.' :: old) = (stem, some old) := by
  have back : (stem ++ '.' :: old).reverse = old.reverse ++ '.' :: stem.reverse := by simp
  have ending : (old.reverse ++ '.' :: stem.reverse).takeWhile (· ≠ '.') = old.reverse :=
    takeWhile_ne_append (by simpa using last) (.inr ⟨_, rfl⟩)
  rw [splitName, back, ending, List.drop_left]
  split
  · rename_i empty
    cases empty
  · rename_i only
    exact absurd (List.cons.inj only).2 (by simpa using filled)
  · rename_i same
    rw [← (List.cons.inj same).2, List.reverse_reverse, List.reverse_reverse]

theorem splitName_plain (plain : '.' ∉ name.tail) : splitName name = (name, none) := by
  cases name with
  | nil => rfl
  | cons c rest =>
    rw [List.tail_cons] at plain
    by_cases dot : c = '.'
    · have back : (c :: rest).reverse = rest.reverse ++ ['.'] := by simp [dot]
      rw [splitName, back, takeWhile_ne_append (by simpa using plain) (.inr ⟨[], rfl⟩),
        List.drop_left]
      rfl
    · have whole : ((c :: rest).reverse ++ []).takeWhile (· ≠ '.') = (c :: rest).reverse :=
        takeWhile_ne_append (by simp [plain, Ne.symm dot]) (.inl rfl)
      rw [List.append_nil] at whole
      rw [splitName, whole, List.drop_length]

theorem dropEnd_of_ne {c : Char} {back : List Char} (slash : c ≠ '/')
    (dot : c = '.' → back.head? ≠ some '/') : dropEnd (c :: back) = c :: back := by
  unfold dropEnd
  split
  · rename_i same
    exact absurd (List.cons.inj same).1 slash
  · rename_i same
    obtain ⟨rfl, rfl⟩ := List.cons.inj same
    exact absurd rfl (dot rfl)
  · rfl

/-- A path that ends in a name is cut in front of it. -/
theorem parts?_append (behind : parent = [] ∨ ∃ front, parent = front ++ ['/']) (filled : name ≠ [])
    (part : '/' ∉ name) (dot : name ≠ ['.']) (dots : name ≠ ['.', '.']) :
    parts? (parent ++ name) = some ⟨parent, (splitName name).1, (splitName name).2⟩ := by
  have kept : dropEnd (name.reverse ++ parent.reverse) = name.reverse ++ parent.reverse := by
    have inside : '/' ∉ name.reverse := by simpa using part
    cases back : name.reverse with
    | nil => exact absurd back (by simpa using filled)
    | cons c rest =>
      rw [back, List.mem_cons, not_or] at inside
      refine dropEnd_of_ne (Ne.symm inside.1) ?_
      rintro rfl
      cases rest with
      | nil => exact absurd (List.reverse_eq_iff.1 back) dot
      | cons next rest => simpa [eq_comm] using fun slash : next = '/' => inside.2 (by simp [slash])
  have taken : (name.reverse ++ parent.reverse).takeWhile (· ≠ '/') = name.reverse := by
    apply takeWhile_ne_append (by simpa using part)
    rcases behind with rfl | ⟨front, rfl⟩
    · exact .inl rfl
    · exact .inr ⟨front.reverse, by simp⟩
  rw [parts?, List.reverse_append, kept, taken, List.reverse_reverse,
    if_neg (by simp [filled, dot, dots]), ← List.length_reverse, List.drop_left,
    List.reverse_reverse]

/-- The extension of a name is replaced where there is one. -/
theorem setExtension_dotted (behind : parent = [] ∨ ∃ front, parent = front ++ ['/'])
    (filled : stem ≠ []) (dots : stem ≠ ['.']) (part : '/' ∉ stem ++ old) (last : '.' ∉ old)
    (given : ending ≠ []) :
    setExtension (parent ++ (stem ++ '.' :: old)) ending = parent ++ (stem ++ '.' :: ending) := by
  rw [List.mem_append, not_or] at part
  have cut : ∀ old : List Char, '/' ∉ old → '.' ∉ old →
      parts? (parent ++ (stem ++ '.' :: old)) = some ⟨parent, stem, some old⟩ := by
    intro old slash last
    have no_dot : stem ++ '.' :: old ≠ ['.'] := by simp [List.append_eq_cons_iff, filled]
    have no_dots : stem ++ '.' :: old ≠ ['.', '.'] := by
      intro same
      rcases List.append_eq_cons_iff.1 same with ⟨empty, -⟩ | ⟨rest, rfl, same⟩
      · exact filled empty
      · cases rest with
        | nil => exact dots rfl
        | cons => simp at same
    rw [parts?_append behind (by simp) (by simp [part.1, slash]) no_dot no_dots,
      splitName_dotted filled last]
  have front : (parent ++ (stem ++ '.' :: old)).take
      ((parent ++ (stem ++ '.' :: old)).length - old.length) = parent ++ (stem ++ '.' :: []) := by
    have split : parent ++ (stem ++ '.' :: old) = (parent ++ (stem ++ '.' :: [])) ++ old := by simp
    rw [split, List.length_append, Nat.add_sub_cancel, List.take_left]
  have unended : ending.isEmpty = false := by simpa using given
  rw [setExtension, cut old part.2 last, Option.bind_some]
  dsimp only
  rw [front, replaceExtension, cut [] (by simp) (by simp)]
  simp [unended]

/-- A name without an extension gets one. -/
theorem setExtension_plain (behind : parent = [] ∨ ∃ front, parent = front ++ ['/'])
    (filled : name ≠ []) (dot : name ≠ ['.']) (part : '/' ∉ name) (plain : '.' ∉ name.tail)
    (given : ending ≠ []) : setExtension (parent ++ name) ending = parent ++ name ++ '.' :: ending := by
  have dots : name ≠ ['.', '.'] := by
    rintro rfl
    simp at plain
  have cut := parts?_append behind filled part dot dots
  rw [splitName_plain plain] at cut
  have unended : ending.isEmpty = false := by simpa using given
  rw [setExtension, cut, Option.bind_some]
  dsimp only
  rw [replaceExtension, cut]
  simp [unended]

end

theorem IsParent.toList {parent : String} (h : IsParent parent) :
    parent.toList = [] ∨ ∃ front, parent.toList = front ++ ['/'] := by
  rcases h with rfl | ⟨front, rfl⟩
  · exact .inl rfl
  · exact .inr ⟨front.toList, String.toList_append⟩

/-- **The new ending follows the stem of the name.** -/
theorem withExtension_of_renamed {source ending path : String} (given : ending ≠ "")
    (h : Renamed ending source path) : withExtension source ending = path := by
  have given : ending.toList ≠ [] := by simpa using given
  rw [withExtension, ← String.toList_inj, String.toList_ofList]
  cases h with
  | replaced behind filled dots part last =>
    have set := setExtension_dotted behind.toList (by simpa using filled)
      (fun same => dots (String.toList_inj.1 same)) (by simpa using part) last given
    simpa using set
  | added behind filled dot part plain =>
    have set := setExtension_plain behind.toList (by simpa using filled)
      (fun same => dot (String.toList_inj.1 same)) part plain given
    simpa using set

end Path

namespace CommandLine

/-! ## Output paths -/

/-- What the file that the assembler writes is called: the output path that was given, or the first
input with the ending of the format in place of `.asm`, or behind another name. -/
inductive AssemblerOptions.LeadsTo (o : AssemblerOptions) : String → Prop
  | given {path : String} (output : o.output = some path) : LeadsTo o path
  | replaced {stem : String} {rest : List String} (output : o.output = none)
    (first : o.inputs = (stem ++ ".asm") :: rest) :
    LeadsTo o (stem ++ match o.format with | .text => ".hack" | .binary => ".bin")
  | added {input : String} {rest : List String} (output : o.output = none)
    (first : o.inputs = input :: rest) (other : ∀ stem, input ≠ stem ++ ".asm") :
    LeadsTo o (input ++ match o.format with | .text => ".hack" | .binary => ".bin")

/-- What the file that the translator writes is called after: an input itself, or for a directory
its own name within it. -/
inductive NamedAfter (look : String → Entry) (input : String) : String → Prop
  | file (single : ∀ names name, look input ≠ .directory names name) : NamedAfter look input input
  | directory {names : List String} {name : Option String} {source : String}
    (entry : look input = .directory names name) (inside : Path.Joined input (name.getD "out") source) :
    NamedAfter look input source

/-- The output path of the translator: the one that was given, or that of the first input with the
ending of what is written. -/
inductive TranslatorOptions.LeadsTo (look : String → Entry) (o : TranslatorOptions) : String → Prop
  | given {path : String} (output : o.output = some path) : LeadsTo look o path
  | derived {input source path : String} {rest : List String} (output : o.output = none)
    (first : o.inputs = input :: rest) (after : NamedAfter look input source)
    (ending : path = Path.withExtension source (if o.assemble then "hack" else "asm"))
    (renamed : ∀ other, Path.Renamed (if o.assemble then "hack" else "asm") source other →
      path = other) : LeadsTo look o path

theorem AssemblerOptions.leadsTo_outputPath {o : AssemblerOptions} (some_input : o.inputs ≠ []) :
    o.LeadsTo o.outputPath := by
  unfold outputPath
  cases output : o.output with
  | some path => exact .given output
  | none =>
    obtain ⟨input, rest, first⟩ := List.exists_cons_of_ne_nil some_input
    rw [first, List.head?_cons, Option.getD_some]
    dsimp only
    split
    · rename_i suffix
      obtain ⟨stem, same⟩ := List.isSuffixOf_iff_suffix.1 suffix
      obtain rfl : input = String.ofList stem ++ ".asm" := by
        apply String.toList_inj.1
        rw [← same, String.toList_append, String.toList_ofList (l := stem)]
      have cut : (String.ofList stem ++ ".asm").toList.take
          ((String.ofList stem ++ ".asm").toList.length - 4) = stem := by
        rw [← same, List.length_append]
        exact List.take_left' rfl
      rw [cut]
      exact .replaced output first
    · rename_i other
      rw [String.ofList_toList]
      refine .added output first ?_
      rintro stem rfl
      exact other (List.isSuffixOf_iff_suffix.2 ⟨stem.toList, String.toList_append.symm⟩)

theorem TranslatorOptions.leadsTo_default {look : String → Entry} {o : TranslatorOptions}
    {input : String} {rest : List String} (output : o.output = none)
    (first : o.inputs = input :: rest) :
    o.LeadsTo look (defaultOutput input o.extension (look input)) := by
  have given : o.extension ≠ "" := by
    unfold extension
    split <;> decide
  obtain ⟨source, after, same⟩ : ∃ source, NamedAfter look input source ∧
      defaultOutput input o.extension (look input) = Path.withExtension source o.extension := by
    unfold defaultOutput
    split
    · rename_i names name entry
      exact ⟨_, .directory entry (Path.joined _ _), rfl⟩
    · rename_i single
      exact ⟨input, .file single, rfl⟩
  refine .derived output first after same fun other renamed => ?_
  rw [same]
  exact Path.withExtension_of_renamed given renamed

/-! ## Contents -/

/-- The file holds the program as text: each word in its digits, on a line of its own. -/
def HoldsText (p : Assembly.Program) (bytes : ByteArray) : Prop :=
  p.toText = String.join (p.words.map fun w => w.toString ++ "\n") ∧ bytes = p.toText.toUTF8

/-- The file holds the program as bytes: each word in as many as hold its bits, but not more than
eight, with the lowest first. -/
def HoldsBytes (d : Descriptor) (p : Assembly.Program) (bytes : ByteArray) : Prop :=
  p.toBytes d.wordSize = (p.words.flatMap fun w =>
    (List.range (min ((d.wordSize + 7) / 8) 8)).map fun k => UInt8.ofNat (w.val.toNat / 256 ^ k)) ∧
  bytes.data.toList = p.toBytes d.wordSize

/-- The file holds the lines with line breaks between them and one behind the last. -/
def HoldsLines (lines : List String) (bytes : ByteArray) : Prop :=
  bytes = ("\n".intercalate lines ++ "\n").toUTF8

/-- **The assembler writes the whole program in the format that was chosen.** -/
theorem AssemblerOptions.holds_serialize (o : AssemblerOptions) (d : Descriptor)
    (p : Assembly.Program) :
    match o.format with
    | .text => HoldsText p (o.serialize d p)
    | .binary => HoldsBytes d p (o.serialize d p) := by
  unfold serialize
  cases o.format with
  | text => exact ⟨rfl, rfl⟩
  | binary =>
    refine ⟨?_, rfl⟩
    unfold Assembly.Program.toBytes Assembly.Program.bytesOf
    congr! 4 with w k
    rw [← UInt8.toNat_inj, Assembly.Program.toNat_byte, UInt8.toNat_ofNat']

end CommandLine

end HackToolchain
