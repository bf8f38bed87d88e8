/-!
# Node identities

Every node of a parsed program carries a number of its own. The tables of the analysis are keyed
by these numbers, never by the shape of a node. Nothing bounds them here. Numbers of 32 bits are the
same ones for every source of fewer than `2 ^ 31` characters: see `index_le_of_parseProgram`.
-/

namespace MicroC

/-- The number of a node. -/
structure NodeId where
  index : Nat
deriving DecidableEq, Repr, Inhabited

namespace NodeId

/-- `#n` -/
def text (n : NodeId) : String := s!"#{n.index}"

instance : LT NodeId := ⟨fun a b => a.index < b.index⟩

instance (a b : NodeId) : Decidable (a < b) := inferInstanceAs (Decidable (a.index < b.index))

end NodeId

/-- A source of fresh node numbers: `issued` of them, from zero on, are in use. -/
structure Numbering where
  issued : Nat := 0
deriving DecidableEq, Repr

namespace Numbering

/-- The next free number. -/
def fresh (g : Numbering) : NodeId × Numbering := (⟨g.issued⟩, ⟨g.issued + 1⟩)

end Numbering

end MicroC
