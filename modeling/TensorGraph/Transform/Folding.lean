import TensorGraph.Graph.Search

/-!
# Constant folding

A node that is fed by constants only can be computed ahead of time: it gives way to a constant with
the same output ports. Constants that nobody reads any more are dropped at once. Folding goes on
until no node qualifies; it ends because each fold removes a computing node and adds none.
-/

namespace TensorGraph

/-- Whether nodes of a kind compute something. -/
def OpKind.isComputing : OpKind → Bool
  | .input => false
  | .output => false
  | .constant => false
  | _ => true

namespace Graph

/-- Whether an id is that of a constant. -/
def isConstant (g : Graph) (id : String) : Bool :=
  match g.nodes.find? id with
  | some n => n.op == .constant
  | none => false

/-- Whether a node computes something and is fed by constants only. -/
def canFold (g : Graph) (n : Node) : Bool :=
  n.op.isComputing && !(g.inputEdges n.id).isEmpty
    && (g.inputEdges n.id).all fun e => g.isConstant e.source.node

/-- The constant that a folded node gives way to. -/
def foldedConstant (n : Node) (id : String) : Node :=
  { id := id
    op := .constant
    name := .str ("folded_" ++ n.name.toName)
    outputs := n.outputs
    annotations := ⟨[("folded_from", .foldedFrom n.origin)]⟩ }

/-- Drop the constants that no edge reads, except the one with the given id, and the edges at
them. -/
def dropOrphans (g : Graph) (spared : String) : Graph :=
  let used := g.edges.map fun e => e.source.node
  let isOrphan := fun (n : Node) => n.op == .constant && n.id != spared && !used.contains n.id
  let orphans := (g.nodes.toList.filter isOrphan).map Node.id
  { g with
    nodes := g.nodes.filter fun n => !orphans.contains n.id
    edges := g.edges.filter fun e =>
      !orphans.contains e.source.node && !orphans.contains e.target.node }

/-- Replace a node by a constant with the given id: the edges into the node go, the edges out of it
leave the constant. -/
def replaceByConstant (g : Graph) (n : Node) (id : String) : Graph :=
  { g with
    nodes := (g.nodes.filter (·.id != n.id)).insert (foldedConstant n id)
    edges := (g.edges.filter (·.target.node != n.id)).map fun e =>
      if e.source.node = n.id then e.withSource id none else e }

/-- Fold one node. -/
def foldNode (g : Graph) (n : Node) (ids : IdSource) : Graph × IdSource :=
  let (id, ids) := ids.next "const"
  ((g.replaceByConstant n id).dropOrphans id, ids)

/-- The number of computing nodes. -/
def computingCount (t : NodeTable) : Nat := t.toList.countP fun n => n.op.isComputing

private theorem computingCount_filter_le (t : NodeTable) (keep : Node → Bool) :
    computingCount (t.filter keep) ≤ computingCount t := by
  simp only [computingCount, NodeTable.filter, List.countP_filter]
  exact List.countP_mono_left fun _ _ h => by simp_all

private theorem computingCount_filter_lt {t : NodeTable} {keep : Node → Bool} {n : Node}
    (hn : n ∈ t.toList) (hop : n.op.isComputing = true) (hkeep : keep n = false) :
    computingCount (t.filter keep) < computingCount t := by
  simp only [computingCount, NodeTable.filter, List.countP_filter]
  exact countP_lt_countP (fun _ _ h => by simp_all) hn (by simp [hkeep]) hop

private theorem computingCount_insert_le (t : NodeTable) {n : Node}
    (hop : n.op.isComputing = false) :
    computingCount (t.insert n) ≤ computingCount t := by
  unfold NodeTable.insert
  split
  · simp only [computingCount, NodeTable.replace, NodeTable.mapNodes, List.countP_map]
    refine List.countP_mono_left fun m _ h => ?_
    by_cases hid : m.id = n.id <;> simp_all
  · simp [computingCount, hop]

private theorem computingCount_foldNode_lt {g : Graph} {n : Node} (ids : IdSource)
    (hn : n ∈ g.nodes.toList) (hop : n.op.isComputing = true) :
    computingCount (g.foldNode n ids).1.nodes < computingCount g.nodes := by
  simp only [foldNode, dropOrphans, replaceByConstant]
  refine Nat.lt_of_le_of_lt (computingCount_filter_le _ _) ?_
  refine Nat.lt_of_le_of_lt (computingCount_insert_le _ rfl) ?_
  exact computingCount_filter_lt hn hop (by simp)

/-- Fold nodes, the first that qualifies in table order each time, until none qualifies. -/
def foldConstants (g : Graph) (ids : IdSource) : Graph × IdSource :=
  match _h : g.nodes.toList.find? g.canFold with
  | none => (g, ids)
  | some n => (g.foldNode n ids).1.foldConstants (g.foldNode n ids).2
termination_by computingCount g.nodes
decreasing_by
  have hfold := List.find?_some _h
  simp only [canFold, Bool.and_eq_true] at hfold
  exact computingCount_foldNode_lt ids (List.mem_of_find?_eq_some _h) hfold.1.1

end Graph

end TensorGraph
