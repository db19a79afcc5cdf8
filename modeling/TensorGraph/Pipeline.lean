import TensorGraph.Graph.Validity
import TensorGraph.Memory.Plan
import TensorGraph.Transform.Folding
import TensorGraph.Transform.Fusion
import TensorGraph.Transform.Liveness
import TensorGraph.Transform.Typing

/-!
# Passes and pipelines

A pass is one of the transformations, as a value with a name and a description. Running a pass on
its own checks that the graph is valid and appends the pass to the graph's history; a pipeline runs
several passes in turn and keeps every state of the graph.
-/

namespace TensorGraph

/-- A transformation of graphs. -/
inductive Pass where
  | inferTypes
  | foldConstants
  | dropDead
  | fuse (patterns : List FusionPattern)
  | planMemory (alignment : Alignment) (reuse : Bool)
deriving DecidableEq, Repr

/-- The graph with every placement of a plan noted at its node, and the plan's totals. -/
def Graph.withPlan (g : Graph) (plan : MemoryPlan) : Graph :=
  let placed := plan.byNode
  { g with
    nodes := g.nodes.mapNodes
      (fun n =>
        match placed.get? n.id with
        | some a => n.annotate [("memory", .memory a)]
        | none => n)
      (by
        intro n
        split <;> rfl)
    metadata := { g.metadata with memoryPlan := some plan.summary } }

namespace Pass

/-- The name of a pass. -/
def name : Pass → String
  | .inferTypes => "Shape Inference"
  | .foldConstants => "Constant Folding"
  | .dropDead => "Dead Code Elimination"
  | .fuse _ => "Operator Fusion"
  | .planMemory _ _ => "Memory Planning"

/-- What a pass does, in words. -/
def description : Pass → String
  | .inferTypes => "Propagate tensor shapes through the computation graph"
  | .foldConstants => "Evaluate subgraphs with all-constant inputs at compile time"
  | .dropDead => "Remove unreachable nodes that do not contribute to any output"
  | .fuse _ =>
    "Fuse sequences of operators into single optimized kernels (Conv+BN+ReLU, MatMul+Add)"
  | .planMemory _ _ =>
    "Compute optimal memory allocation with liveness analysis and in-place operation detection"

/-- The usual passes in their usual order. -/
def defaults : List Pass :=
  [.inferTypes, .foldConstants, .dropDead, .fuse FusionPattern.defaults,
   .planMemory Alignment.one false]

/-- Transform a graph. -/
def apply (p : Pass) (g : Graph) (ids : IdSource) : Except Error Graph × IdSource :=
  match p with
  | .inferTypes => (g.inferTypes, ids)
  | .foldConstants =>
    let (folded, ids) := g.foldConstants ids
    (.ok folded, ids)
  | .dropDead => (.ok g.dropDead, ids)
  | .fuse patterns => Graph.fuse patterns g ids
  | .planMemory alignment reuse => ((MemoryPlan.compute g alignment reuse).map g.withPlan, ids)

/-- The history entry of a pass. -/
def record (p : Pass) (timestamp : Datum) : PassRecord :=
  ⟨.str p.name, .str p.description, timestamp⟩

/-- Check a graph, transform it and append the pass to its history. -/
def run (p : Pass) (g : Graph) (timestamp : Datum) (ids : IdSource) :
    Except Error Graph × IdSource :=
  match g.validate with
  | .error cause => (.error cause, ids)
  | .ok () =>
    let (result, ids) := p.apply g ids
    (result.map (·.recordPass (p.record timestamp)), ids)

end Pass

/-- A graph as a pass left it. -/
structure PassResult where
  pass : Pass
  graph : Graph
deriving DecidableEq, Repr

/-- A clock that counts up from a number. It is set to one less and goes forward by one before each
reading, so a floating-point start is rounded at every step and never read as a negative zero. -/
def clockFrom (start : Datum) : Except Error (Nat → Datum) :=
  match start with
  | .float x =>
    let before := x.sub (Number.Binary64.ofInt 1)
    .ok fun i => .float (Nat.repeat Number.Binary64.succ (i + 1) before)
  | _ => start.whole.map fun first i => .int (first + i)

/-- Run passes in turn. `clock` gives the timestamp of each pass by its position, counted from
`start`. -/
def runPasses (clock : Nat → Datum) (start : Nat) (g : Graph) (ids : IdSource) :
    List Pass → Except Error (List PassResult) × IdSource
  | [] => (.ok [], ids)
  | p :: rest =>
    match p.run g (clock start) ids with
    | (.error cause, ids) => (.error cause, ids)
    | (.ok next, ids) =>
      match runPasses clock (start + 1) next ids rest with
      | (.error cause, ids) => (.error cause, ids)
      | (.ok results, ids) => (.ok (⟨p, next⟩ :: results), ids)

/-- Run a pipeline on a graph. -/
def runPipeline (passes : List Pass) (clock : Nat → Datum) (g : Graph) (ids : IdSource) :
    Except Error (List PassResult) × IdSource :=
  runPasses clock 0 g ids passes

/-- The graph after the last pass. -/
def finalGraph (g : Graph) (results : List PassResult) : Graph :=
  match results.getLast? with
  | some result => result.graph
  | none => g

end TensorGraph
