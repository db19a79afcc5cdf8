import TensorGraph.Graph.Search

/-!
# Summaries

A graph as text: a heading, then one line for each node in topological order with the names of the
nodes it reads and the type of its output.
-/

namespace TensorGraph.Graph

/-- The line of a node. -/
def summaryLine (g : Graph) (n : Node) : Except Error String := do
  let sources ← (g.inputEdges n.id).mapM fun e =>
    match g.nodes.find? e.source.node with
    | some s => s.name.text
    | none => .ok "?"
  let result ←
    match n.outputType with
    | some t => t.write.map (" -> " ++ ·)
    | none => .ok ""
  return "- " ++ n.name.toName ++ ": " ++ n.op.label ++
    "(" ++ String.intercalate ", " sources ++ ")" ++ result

/-- A graph as text. -/
def summary (g : Graph) : Except Error String := do
  let heading := "Graph(name=" ++ g.name.write ++ ", nodes="
    ++ Text.Integer.write g.nodes.size ++ ", edges=" ++ Text.Integer.write g.edges.length ++ ")"
  let lines ← g.topologicalOrder.mapM g.summaryLine
  return Text.unlines (heading :: lines)

end TensorGraph.Graph
