import HackToolchain.Assembly.Statement
import HackToolchain.Descriptor

/-!
# Symbol tables

A name is bound once: by the descriptor, by the first label line that carries it, or as a
variable when an operand first uses it. Variables take consecutive addresses.
-/

namespace HackToolchain.Assembly

inductive SymbolKind
  | predefined | label | var
  deriving DecidableEq, Repr

structure Symbol where
  kind : SymbolKind
  address : Nat
  deriving DecidableEq, Repr

structure SymbolTable where
  table : Table String Symbol
  nextVariable : Nat

/-- Addresses have 32 bits. -/
def maxAddress : Nat := UInt32.size - 1

namespace SymbolTable

def ofDescriptor (d : Descriptor) : SymbolTable where
  table := d.symbols.mapValues fun address => ⟨.predefined, address⟩
  nextVariable := d.varBase

def get? (s : SymbolTable) (name : String) : Option Symbol := s.table.get? name

def address? (s : SymbolTable) (name : String) : Option Nat := (s.get? name).map (·.address)

/-- The first binding of a name wins; a later one changes nothing and gives `false`. -/
def bindLabel (s : SymbolTable) (name : String) (counter : Nat) : Bool × SymbolTable :=
  match s.get? name with
  | some _ => (false, s)
  | none => (true, { s with table := s.table.insert name ⟨.label, counter⟩ })

/-- The address of a name; a new one takes the next variable address. -/
def resolve (s : SymbolTable) (name : String) : Except Error (Nat × SymbolTable) :=
  match s.get? name with
  | some symbol => .ok (symbol.address, s)
  | none =>
    if s.nextVariable < maxAddress then
      .ok (s.nextVariable,
        ⟨s.table.insert name ⟨.var, s.nextVariable⟩, s.nextVariable + 1⟩)
    else .error .addressesExhausted

def entries (s : SymbolTable) : List (String × Symbol) := s.table.entries

/-- All but the names of the descriptor. -/
def defined (s : SymbolTable) : List (String × Symbol) :=
  s.entries.filter fun p => p.2.kind ≠ .predefined

end SymbolTable

end HackToolchain.Assembly
