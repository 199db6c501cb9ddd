import HackToolchain.Descriptor
import HackToolchain.Yaml.Node

/-!
# Descriptor documents

A descriptor is written as a mapping of nine members. Bit patterns are strings; widths and
addresses are plain numbers of 64 and 32 bits. What is read is validated.
-/

namespace HackToolchain

open Yaml (Node)

namespace Bits

def ofNode? (n : Node) : Option Bits :=
  n.string?.bind fun s => (Bits.parse s).toOption

def toNode (b : Bits) : Node := .scalar false b.toString

end Bits

namespace Shape

def ofNode? (n : Node) : Option Shape := n.string?.bind ofName?

def toNode (s : Shape) : Node := .scalar true s.name

end Shape

def natNode (n : Nat) : Node := .scalar true (toString n)

def stringNode (s : String) : Node := .scalar false s

namespace Layout

def fieldOfNode? (n : Node) : Option (Field × Nat) :=
  match n.items? with
  | some [f, width] =>
    (f.string?.bind Field.ofName?).bind fun f => (width.nat? UInt64.size).map (f, ·)
  | _ => none

def ofNode? (n : Node) : Option Layout := (n.listOf? fieldOfNode?).map Layout.mk

def toNode (l : Layout) : Node :=
  .sequence (l.fields.map fun (f, width) => .sequence [.scalar true f.name, natNode width])

end Layout

namespace Descriptor

def codesOfNode? (n : Node) : Option (TwoWay String Bits) :=
  (n.pairsOf? Node.string? Bits.ofNode?).map .ofList

def codesNode (codes : TwoWay String Bits) : Node :=
  .mapping (codes.entries.map fun (name, code) => (stringNode name, code.toNode))

def memberNames : List String :=
  ["name", "word_size", "opcodes", "formats", "comp", "dest", "jump", "symbols", "var_base"]

/-- The descriptor in a document, not yet validated. -/
def read? (n : Node) : Option Descriptor := do
  let members ← n.members? memberNames
  let name ← (← members.lookup "name").string?
  let wordSize ← (← members.lookup "word_size").nat? UInt64.size
  let opcodes ← (← members.lookup "opcodes").pairsOf? Shape.ofNode? Bits.ofNode?
  let layouts ← (← members.lookup "formats").pairsOf? Shape.ofNode? Layout.ofNode?
  let comp ← codesOfNode? (← members.lookup "comp")
  let dest ← codesOfNode? (← members.lookup "dest")
  let jump ← codesOfNode? (← members.lookup "jump")
  let symbols ← (← members.lookup "symbols").pairsOf? Node.string? (Node.nat? UInt32.size)
  let varBase ← (← members.lookup "var_base").nat? UInt32.size
  return ⟨name, wordSize, .ofList opcodes, .ofList layouts, comp, dest, jump, .ofList symbols, varBase⟩

def ofNode (source : String) (n : Node) : Except DescriptorError Descriptor :=
  match read? n with
  | none => .error (.unreadable source)
  | some d => d.validate.map fun _ => d

/-- The descriptor in a text that comes from `source`. -/
def ofText (source text : String) : Except DescriptorError Descriptor :=
  match Node.ofText? text with
  | none => .error (.unreadable source)
  | some n => ofNode source n

def toNode (d : Descriptor) : Node :=
  .mapping
    [(stringNode "name", stringNode d.name),
     (stringNode "word_size", natNode d.wordSize),
     (stringNode "opcodes", .mapping (d.opcodes.entries.map fun (s, b) => (s.toNode, b.toNode))),
     (stringNode "formats", .mapping (d.layouts.entries.map fun (s, l) => (s.toNode, l.toNode))),
     (stringNode "comp", codesNode d.comp),
     (stringNode "dest", codesNode d.dest),
     (stringNode "jump", codesNode d.jump),
     (stringNode "symbols", .mapping (d.symbols.entries.map fun (name, a) => (stringNode name, natNode a))),
     (stringNode "var_base", natNode d.varBase)]

end Descriptor

end HackToolchain
