import TensorGraph.Graph.NodeTable
import TensorGraph.IdSource

/-!
# Graphs

A graph is a table of nodes and a list of edges, with a name, a description and a record of what has
been done to it. Edges are the only record of which node reads which; an edge may dangle until the
graph is validated. Every operation returns a new graph.
-/

namespace TensorGraph

/-- One end of an edge: a node and the index of one of its ports. The index is kept as the edge's
maker gave it; it names a port if it is a number in the range of the node's ports. -/
structure Endpoint where
  node : String
  index : Datum := .int 0
deriving DecidableEq, Repr

/-- Equality of ends, indices being compared as numbers. -/
def Endpoint.same (a b : Endpoint) : Bool := a.node == b.node && a.index.same b.index

/-- A value flowing from an output port of one node to an input port of another. -/
structure Edge where
  id : String
  source : Endpoint
  target : Endpoint
  type : Option TensorType := none
deriving DecidableEq, Repr

namespace Edge

/-- The edge with another source; the port index stays unless one is given. -/
def withSource (e : Edge) (node : String) (index : Option Datum) : Edge :=
  { e with source := ⟨node, index.getD e.source.index⟩ }

/-- The edge with another target; the port index stays unless one is given. -/
def withTarget (e : Edge) (node : String) (index : Option Datum) : Edge :=
  { e with target := ⟨node, index.getD e.target.index⟩ }

/-- The edge with another type. -/
def withType (e : Edge) (type : Option TensorType) : Edge := { e with type := type }

/-- Equality of edges. -/
def same (a b : Edge) : Bool :=
  a.id == b.id && a.source.same b.source && a.target.same b.target && a.type == b.type

end Edge

/-- One step of a graph's history. -/
structure PassRecord where
  name : Label
  description : Label
  timestamp : Datum
deriving DecidableEq, Repr

/-- Equality of records, timestamps being compared as numbers. -/
def PassRecord.same (a b : PassRecord) : Bool :=
  a.name.same b.name && a.description.same b.description && a.timestamp.same b.timestamp

/-- The totals of a memory plan. -/
structure MemorySummary where
  peakBytes : Int
  tensorBytes : Int
  inPlaceCount : Int
deriving DecidableEq, Repr

/-- What is known about a graph as a whole. -/
structure Metadata where
  name : Label := .str "graph"
  description : Label := .str ""
  history : List PassRecord := []
  memoryPlan : Option MemorySummary := none
deriving DecidableEq, Repr

/-- A dataflow graph. -/
structure Graph where
  id : String
  nodes : NodeTable := NodeTable.empty
  edges : List Edge := []
  metadata : Metadata := {}
deriving DecidableEq, Repr

namespace Graph

/-- The name of the graph. -/
def name (g : Graph) : Label := g.metadata.name

/-- An empty graph with a fresh id. -/
def create (name description : Label) (ids : IdSource) : Graph × IdSource :=
  let (id, ids) := ids.next "g"
  (⟨id, NodeTable.empty, [], ⟨name, description, [], none⟩⟩, ids)

/-! ### Edits -/

/-- Add a node whose id must be new. -/
def addNode (g : Graph) (node : Node) : Except Error Graph :=
  if g.nodes.contains node.id then .error (.duplicateNode node.id)
  else .ok { g with nodes := g.nodes.insert node }

/-- Replace the node with the same id, which must exist. -/
def replaceNode (g : Graph) (node : Node) : Except Error Graph :=
  if g.nodes.contains node.id then .ok { g with nodes := g.nodes.replace node }
  else .error (.cannotReplace node.id)

/-- Remove a node together with the edges at it. -/
def removeNode (g : Graph) (id : String) : Graph :=
  { g with
    nodes := g.nodes.filter (·.id != id)
    edges := g.edges.filter fun e => e.source.node != id && e.target.node != id }

/-- Add an edge at the end. -/
def addEdge (g : Graph) (e : Edge) : Graph := { g with edges := g.edges ++ [e] }

/-- Remove every edge with an id. -/
def removeEdge (g : Graph) (id : String) : Graph :=
  { g with edges := g.edges.filter (·.id != id) }

/-- Change every edge with an id. -/
def updateEdge (g : Graph) (id : String) (f : Edge → Edge) : Graph :=
  { g with edges := g.edges.map fun e => if e.id = id then f e else e }

/-- Attach annotations to a node, which must exist. -/
def annotate (g : Graph) (id : String) (items : List (String × Annotation)) : Except Error Graph :=
  match g.nodes.find? id with
  | none => .error (.unknownNode id)
  | some n => g.replaceNode (n.annotate items)

/-- Append a step to the history. -/
def recordPass (g : Graph) (record : PassRecord) : Graph :=
  { g with metadata := { g.metadata with history := g.metadata.history ++ [record] } }

/-! ### Queries -/

/-- The node with an id, which must exist. -/
def node (g : Graph) (id : String) : Except Error Node :=
  match g.nodes.find? id with
  | some n => .ok n
  | none => .error (.unknownNode id)

/-- The name of a node, or its id if there is no such node. -/
def nameOf (g : Graph) (id : String) : Label :=
  match g.nodes.find? id with
  | some n => n.name
  | none => .str id

/-- The node that a piece of data names, which must exist. -/
def nodeNamed (g : Graph) (d : Datum) : Except Error Node := do
  d.checkKey
  match d with
  | .str id => g.node id
  | _ => throw (.unknownNode d.toName)

/-- The edges into a node, in order. -/
def inputEdges (g : Graph) (id : String) : List Edge := g.edges.filter (·.target.node = id)

/-- The edges out of a node, in order. -/
def outputEdges (g : Graph) (id : String) : List Edge := g.edges.filter (·.source.node = id)

/-- The nodes that a node reads, in edge order. -/
def producers (g : Graph) (id : String) : List Node :=
  (g.inputEdges id).filterMap fun e => g.nodes.find? e.source.node

/-- The nodes that read a node, in edge order. -/
def consumers (g : Graph) (id : String) : List Node :=
  (g.outputEdges id).filterMap fun e => g.nodes.find? e.target.node

/-- Edges grouped by a key, keys in order of first appearance. -/
def groupEdges (key : Edge → String) (edges : List Edge) : Dict (List Edge) :=
  edges.foldl (fun index e => index.set (key e) ((index.get? (key e)).getD [] ++ [e])) Dict.empty

/-- Edges grouped by the node they lead to. -/
def incomingIndex (g : Graph) : Dict (List Edge) := groupEdges (·.target.node) g.edges

/-- Edges grouped by the node they come from. -/
def outgoingIndex (g : Graph) : Dict (List Edge) := groupEdges (·.source.node) g.edges

/-- Equality of graphs: nodes in any order, edges and history in order. -/
def same (g h : Graph) : Bool :=
  g.id == h.id && g.nodes.same h.nodes && allSame Edge.same g.edges h.edges
    && g.metadata.name.same h.metadata.name
    && g.metadata.description.same h.metadata.description
    && allSame PassRecord.same g.metadata.history h.metadata.history
    && g.metadata.memoryPlan == h.metadata.memoryPlan

end Graph

end TensorGraph
