import TensorGraph.Graph.Search
import TensorGraph.Quantity

/-!
# Metrics

Size and cost of a graph: how many nodes of each kind it has, the operations and parameters of its
operators, the bytes of its outputs, and its depth, the length of a longest path.
-/

namespace TensorGraph

/-- Size and cost of a graph. -/
structure Metrics where
  nodeCount : Int
  edgeCount : Int
  opCounts : Dict Int := Dict.empty
  operations : Int := 0
  parameters : Int := 0
  memoryBytes : Int := 0
  depth : Int := 0
deriving DecidableEq, Repr

namespace Metrics

/-- Costs added up over nodes. -/
structure Costs where
  operations : Int := 0
  parameters : Int := 0
  memoryBytes : Int := 0
deriving DecidableEq, Repr

/-- Add the costs of a node. -/
def Costs.add (c : Costs) (n : Node) : Except Error Costs := do
  let operations ← n.operations
  let parameters ← n.parameters
  let bytes ←
    match n.outputType with
    | none => .ok 0
    | some t => t.byteCount
  return ⟨c.operations + operations, c.parameters + parameters, c.memoryBytes + bytes⟩

/-- Add the costs of nodes in turn. -/
def Costs.addAll (c : Costs) : List Node → Except Error Costs
  | [] => .ok c
  | n :: rest => do
    let next ← c.add n
    next.addAll rest

/-- How many nodes there are of each kind, kinds in order of first appearance. -/
def countKinds (nodes : List Node) : Dict Int :=
  nodes.foldl (fun counts n => counts.set n.op.label ((counts.get? n.op.label).getD 0 + 1))
    Dict.empty

/-- The depth of a node: one more than the deepest node it reads, 0 if it reads none. -/
def nodeDepth (g : Graph) (depths : Dict Nat) (n : Node) : Nat :=
  (g.inputEdges n.id).foldl
    (fun depth e => max depth ((depths.get? e.source.node).getD 0 + 1)) 0

/-- The depths of all nodes. -/
def depths (g : Graph) : Dict Nat :=
  g.topologicalOrder.foldl (fun found n => found.set n.id (nodeDepth g found n)) Dict.empty

/-- The depth of a graph. -/
def depthOf (g : Graph) : Nat :=
  ((depths g).entries.map Prod.snd).foldl max 0

/-- Measure a graph. -/
def compute (g : Graph) : Except Error Metrics := do
  let costs ← Costs.addAll {} g.nodes.toList
  return ⟨g.nodes.size, g.edges.length, countKinds g.nodes.toList, costs.operations,
    costs.parameters, costs.memoryBytes, depthOf g⟩

/-- Measure several graphs with a number of workers, which must be positive if it is given and there
is anything to do. -/
def computeMany (graphs : List Graph) (workers : Datum) : Except Error (List Metrics) := do
  if !graphs.isEmpty && !(workers matches .null) then
    if ← workers.isAtMost 0 then throw .noWorkers
  graphs.mapM compute

end Metrics

/-- The figures of a report on a graph. -/
structure MetricsReport where
  nodes : Datum
  edges : Datum
  opCounts : Dict Datum
  operations : Datum
  parameters : Datum
  memory : Datum
  depth : Datum
deriving DecidableEq, Repr

namespace MetricsReport

/-- The count of one kind as text. -/
def writeCount (r : MetricsReport) (op : String) : Except Error String := do
  let count ← Figure.plain ((r.opCounts.get? op).getD (.int 0))
  return op ++ "=" ++ count

/-- A report as text. -/
def write (r : MetricsReport) (indent : String) : Except Error String := do
  let counts ← (Text.sorted r.opCounts.keys).mapM r.writeCount
  let nodes ← Figure.plain r.nodes
  let edges ← Figure.plain r.edges
  let depth ← Figure.plain r.depth
  let operations ← Quantity.operations r.operations
  let parameters ← Figure.grouped r.parameters
  let memory ← Quantity.bytes r.memory
  return Text.unlines
    [indent ++ "Nodes:  " ++ nodes,
     indent ++ "Edges:  " ++ edges,
     indent ++ "Depth:  " ++ depth,
     indent ++ "FLOPs:  " ++ operations,
     indent ++ "Params: " ++ parameters,
     indent ++ "Memory: " ++ memory,
     indent ++ "Ops:    " ++ String.intercalate ", " counts]

end MetricsReport

/-- The report on measured metrics. -/
def Metrics.report (m : Metrics) : MetricsReport :=
  { nodes := .int m.nodeCount
    edges := .int m.edgeCount
    opCounts := ⟨m.opCounts.entries.map fun entry => (entry.1, .int entry.2)⟩
    operations := .int m.operations
    parameters := .int m.parameters
    memory := .int m.memoryBytes
    depth := .int m.depth }

/-- Metrics as text. -/
def Metrics.write (m : Metrics) (indent : String) : Except Error String := m.report.write indent

end TensorGraph
