import TensorGraph.Graph.Search

/-!
# Type inference

Tensor types are carried forward in topological order. Each input port takes the type of the first
edge that feeds it; each node's formula then gives the type of its output ports and of the edges out
of them. A node whose formula defers keeps its output ports as they are.
-/

namespace TensorGraph

/-- Types found so far, and the nodes as they are now. -/
structure Typing where
  types : Dict TensorType
  nodes : NodeTable
deriving DecidableEq, Repr

namespace Typing

/-- The node at the other end of the first edge that feeds an input port. -/
def feeder (g : Graph) (id : String) (index : Nat) : Option String :=
  ((g.inputEdges id).find? fun e => e.target.index.integral? = some (index : Int)).map
    fun e => e.source.node

/-- The types that reach the input ports of a node. -/
def reaching (g : Graph) (types : Dict TensorType) (n : Node) : InputTypes :=
  (List.range n.inputs.length).map fun i => (feeder g n.id i).bind types.get?

/-- An input port with the type that reaches it, if one does. -/
def retype (port : Port) (type : Option TensorType) : Port :=
  match type with
  | some t => port.withType (some t)
  | none => port

/-- Type one node. The indices of the ports that its edges lead to must be keys. -/
def step (g : Graph) (s : Typing) (n : Node) : Except Error Typing := do
  (g.inputEdges n.id).forM fun e => e.target.index.checkKey
  let inputs := reaching g s.types n
  let ports := List.zipWith retype n.inputs inputs
  match ← n.infer inputs with
  | none => return { s with nodes := s.nodes.replace { n with inputs := ports } }
  | some out =>
    let outputs := n.outputs.map (·.withType (some out))
    return ⟨s.types.set n.id out, s.nodes.replace { n with inputs := ports, outputs := outputs }⟩

/-- Type nodes in turn. -/
def run (g : Graph) (s : Typing) : List Node → Except Error Typing
  | [] => .ok s
  | n :: rest => do
    let next ← step g s n
    run g next rest

/-- An edge with the type found for its source, if one was. -/
def retypeEdge (types : Dict TensorType) (e : Edge) : Edge :=
  match types.get? e.source.node with
  | some t => e.withType (some t)
  | none => e

end Typing

/-- The graph with the types of ports and edges inferred. -/
def Graph.inferTypes (g : Graph) : Except Error Graph := do
  let s ← Typing.run g ⟨Dict.empty, g.nodes⟩ g.topologicalOrder
  return { g with nodes := s.nodes, edges := g.edges.map (Typing.retypeEdge s.types) }

end TensorGraph
