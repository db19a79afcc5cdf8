import TensorGraph.Graph.Difference
import TensorGraph.Graph.Summary
import TensorGraph.Memory.PlanReport
import TensorGraph.Metrics
import TensorGraph.Pipeline
import TensorGraph.Sample.Networks

/-!
# Sample reports

What optimising the sample networks prints: the classifier pass by pass with its costs, the residual
block with its fused operators and its memory plans.
-/

namespace TensorGraph.Sample

/-- Lines of text, each ended. -/
def endLines (lines : List String) : String := String.join (lines.map (· ++ "\n"))

/-- Timestamps that count the passes. -/
def ticks (i : Nat) : Datum := .int i

/-- The lines about one pass. -/
def passLines (before : Graph) (result : PassResult) : Except Error (List String) := do
  let m ← Metrics.compute result.graph
  let operations ← Quantity.operations (.int m.operations)
  let memory ← Quantity.bytes (.int m.memoryBytes)
  let d := before.difference result.graph
  let count := fun (ids : List String) => Text.Integer.write ids.length
  let lines :=
    ["",
     "== " ++ result.pass.name ++ " ==",
     "  nodes=" ++ Text.Integer.write m.nodeCount ++ " edges=" ++ Text.Integer.write m.edgeCount
       ++ " depth=" ++ Text.Integer.write m.depth ++ " flops=" ++ operations
       ++ " memory=" ++ memory,
     "  +" ++ count d.addedNodes ++ " / -" ++ count d.removedNodes ++ " nodes, +"
       ++ count d.addedEdges ++ " / -" ++ count d.removedEdges ++ " edges"]
  return lines

/-- The lines about all passes. -/
def allPassLines (before : Graph) : List PassResult → Except Error (List String)
  | [] => .ok []
  | result :: rest => do
    let lines ← passLines before result
    let more ← allPassLines result.graph rest
    return lines ++ more

/-- The lines about the peak of a planned graph. -/
def peakLines (g : Graph) : Except Error (List String) :=
  match g.metadata.memoryPlan with
  | none => .ok []
  | some plan => do
    let peak ← Quantity.bytes (.int plan.peakBytes)
    return ["", "Peak memory " ++ peak ++ " (" ++ Text.Integer.write plan.inPlaceCount
      ++ " in-place op(s))"]

/-- The report on the classifier. -/
def classifierReport : Except Error String := do
  let (made, ids) := Graph.ofModel classifier IdSource.fresh
  let g ← made
  let results ← (runPipeline Pass.defaults ticks g ids).1
  let final := finalGraph g results
  let passes ← allPassLines g results
  let peak ← peakLines final
  let before ← g.summary
  let after ← final.summary
  return endLines
    (["Input graph:", before] ++ passes ++ ["", "Optimized graph:", after] ++ peak)

/-- The line about one node of the optimised block. -/
def nodeLine (n : Node) : Option String :=
  match n.annotations.get? "fused_from" with
  | some (.fusedFrom origins) =>
    some ("- " ++ n.name.toName ++ ": " ++ n.op.label ++ " <- "
      ++ String.intercalate " + " (origins.map (·.kind.label)))
  | _ =>
    if n.op = .input then none else some ("- " ++ n.name.toName ++ " (" ++ n.op.label ++ ")")

/-- The lines about a memory plan. -/
def planLines (g : Graph) (reuse : Bool) : Except Error (List String) := do
  let plan ← MemoryPlan.compute g Alignment.one reuse
  let text ← plan.write (some g) "  "
  return ["", "Memory plan (reuse_freed=" ++ (if reuse then "True" else "False") ++ "):", text]

/-- The report on the residual block. -/
def residualReport : Except Error String := do
  let (made, ids) := residualBlock (.int 64) (.int 56) IdSource.fresh
  let g ← made
  let passes : List Pass :=
    [.inferTypes, .foldConstants, .dropDead, .fuse FusionPattern.defaults,
     .planMemory Alignment.one true]
  let results ← (runPipeline passes ticks g ids).1
  let final := finalGraph g results
  let kept ← planLines final false
  let reused ← planLines final true
  return endLines
    (["Original: " ++ Text.Integer.write g.nodes.size ++ " nodes",
      "Fused:    " ++ Text.Integer.write final.nodes.size ++ " nodes"]
      ++ final.topologicalOrder.filterMap nodeLine ++ kept ++ reused)

end TensorGraph.Sample
