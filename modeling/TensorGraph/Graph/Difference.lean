import TensorGraph.Graph.Basic

/-!
# Differences

What changed between two states of a graph, by id. A node counts as modified when it kept its id but
not its kind or name. Names are compared on their own (`Datum.sameAlone`), so a node whose name is a
NaN always counts as modified.
-/

namespace TensorGraph.Graph

/-- Ids that came, went or changed between two states of a graph. -/
structure Difference where
  addedNodes : List String
  removedNodes : List String
  modifiedNodes : List String
  addedEdges : List String
  removedEdges : List String
deriving DecidableEq, Repr

/-- Whether nothing changed. -/
def Difference.isEmpty (d : Difference) : Bool :=
  d.addedNodes.isEmpty && d.removedNodes.isEmpty && d.modifiedNodes.isEmpty
    && d.addedEdges.isEmpty && d.removedEdges.isEmpty

/-- Whether a node kept its id but not its kind or name. -/
def isModified (before : Graph) (n : Node) : Bool :=
  match before.nodes.find? n.id with
  | some old => old.op != n.op || !old.name.sameAlone n.name
  | none => false

/-- What changed from one state of a graph to another. -/
def difference (before after : Graph) : Difference :=
  let oldEdges := before.edges.map Edge.id
  let newEdges := after.edges.map Edge.id
  { addedNodes := after.nodes.ids.filter fun id => !before.nodes.contains id
    removedNodes := before.nodes.ids.filter fun id => !after.nodes.contains id
    modifiedNodes := (after.nodes.toList.filter before.isModified).map Node.id
    addedEdges := newEdges.filter fun id => !oldEdges.contains id
    removedEdges := oldEdges.filter fun id => !newEdges.contains id }

end TensorGraph.Graph
