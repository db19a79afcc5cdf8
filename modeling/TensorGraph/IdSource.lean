import TensorGraph.Text.Integer

/-!
# Identifiers

Ids of graphs, nodes and edges come from one counter: each id is a stem, an underscore and the next
number, so two ids of one counter never agree, whatever their stems.
-/

namespace TensorGraph

/-- A counter of the ids issued so far. -/
structure IdSource where
  issued : Nat
deriving DecidableEq, Repr

namespace IdSource

/-- The counter before the first id. -/
def fresh : IdSource := ⟨0⟩

/-- The id with a stem and a number. -/
def idOf (stem : String) (n : Nat) : String := stem ++ "_" ++ Text.Integer.write n

/-- Issue the next id. -/
def next (s : IdSource) (stem : String) : String × IdSource :=
  (idOf stem (s.issued + 1), ⟨s.issued + 1⟩)

end IdSource

end TensorGraph
