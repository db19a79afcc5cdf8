import TensorGraph.Metrics
import TensorGraph.Proofs.NodeTable
import TensorGraph.Proofs.Wiring

/-!
# Graphs under other ids and with other remarks

A recasting gives every node another id, distinct ids for distinct ones, and other annotations, and
the graph other metadata. Nothing that a graph is asked for depends on any of that. Looking up nodes
and edges, searching, and sorting give the same answers under the other ids
(`Recasting.find?_table`, `Recasting.inputEdges_graph`, `Recasting.topologicalOrder_graph`), and
metrics are the same altogether (`Recasting.metrics_graph`).
-/

namespace TensorGraph

/-! ### Dictionaries under other keys -/

namespace Dict

variable {β γ : Type}

/-- The dictionary under other keys and with other values. -/
def rekey (keys : String ↪ String) (f : β → γ) (d : Dict β) : Dict γ :=
  ⟨d.entries.map fun entry => (keys entry.1, f entry.2)⟩

variable (keys : String ↪ String) (f : β → γ)

@[simp] theorem rekey_empty : (empty : Dict β).rekey keys f = empty := rfl

/-- What `rekey` has under the other key is the value with `f` applied. -/
@[simp] theorem get?_rekey (d : Dict β) (key : String) :
    (d.rekey keys f).get? (keys key) = (d.get? key).map f := by
  obtain ⟨entries⟩ := d
  show (entries.map fun entry => (keys entry.1, f entry.2)).lookup (keys key) =
    (entries.lookup key).map f
  induction entries with
  | nil => rfl
  | cons entry rest ih =>
    obtain ⟨k, v⟩ := entry
    simp only [List.map_cons, List.lookup_cons]
    by_cases hkey : key = k
    · simp [hkey]
    -- distinct keys stay distinct
    · have hkey' : keys key ≠ keys k := fun heq => hkey (keys.injective heq)
      rw [beq_false_of_ne hkey, beq_false_of_ne hkey']
      exact ih

/-- `rekey` goes through `set`. -/
@[simp] theorem rekey_set (d : Dict β) (key : String) (value : β) :
    (d.set key value).rekey keys f = (d.rekey keys f).set (keys key) (f value) := by
  obtain ⟨entries⟩ := d
  simp only [rekey, set, mk.injEq]
  induction entries with
  | nil => rfl
  | cons entry rest ih =>
    obtain ⟨k, v⟩ := entry
    -- the key stands first, or it is looked for in the rest
    by_cases hkey : k = key
    · simp [setEntries, hkey]
    · simp [setEntries, hkey, ih]

/-- `rekey` goes through `setAll`. -/
theorem rekey_setAll (d : Dict β) (entries : List (String × β)) :
    (d.setAll entries).rekey keys f =
      (d.rekey keys f).setAll (entries.map fun entry => (keys entry.1, f entry.2)) := by
  unfold setAll
  induction entries generalizing d with
  | nil => rfl
  | cons entry rest ih => rw [List.foldl_cons, ih, rekey_set, List.map_cons, List.foldl_cons]

end Dict

/-! ### Recastings -/

/-- The edge with its ends under other ids. -/
def Edge.rename (ids : String ↪ String) (e : Edge) : Edge :=
  { e with
    source := ⟨ids e.source.node, e.source.index⟩
    target := ⟨ids e.target.node, e.target.index⟩ }

@[simp] theorem Edge.source_rename (ids : String ↪ String) (e : Edge) :
    (e.rename ids).source.node = ids e.source.node := rfl

@[simp] theorem Edge.target_rename (ids : String ↪ String) (e : Edge) :
    (e.rename ids).target.node = ids e.target.node := rfl

/-- Other ids for nodes, the annotations of the node with an id, and other metadata. -/
structure Recasting where
  ids : String ↪ String
  remarks : String → Dict Annotation
  metadata : Metadata

namespace Recasting

variable (M : Recasting)

/-- The node under its other id and with its other annotations. -/
def node (n : Node) : Node := { n with id := M.ids n.id, annotations := M.remarks n.id }

/-- The table of the nodes under their other ids. -/
def table (t : NodeTable) : NodeTable :=
  ⟨t.toList.map M.node, by
    have hids : (t.toList.map M.node).map Node.id = (t.toList.map Node.id).map M.ids := by
      simp [node]
    rw [hids]
    exact t.ids_nodup.map M.ids.injective⟩

/-- The graph under other ids and with other remarks. -/
def graph (g : Graph) : Graph :=
  { id := g.id
    nodes := M.table g.nodes
    edges := g.edges.map (Edge.rename M.ids)
    metadata := M.metadata }

@[simp] theorem id_node (n : Node) : (M.node n).id = M.ids n.id := rfl

@[simp] theorem op_node (n : Node) : (M.node n).op = n.op := rfl

@[simp] theorem nodes_graph (g : Graph) : (M.graph g).nodes = M.table g.nodes := rfl

/-! ### Tables -/

@[simp] theorem ids_beq (a b : String) : (M.ids a == M.ids b) = (a == b) := by
  rw [Bool.eq_iff_iff]
  simp

@[simp] theorem toList_table (t : NodeTable) : (M.table t).toList = t.toList.map M.node := rfl

@[simp] theorem size_table (t : NodeTable) : (M.table t).size = t.size := List.length_map _

private theorem ids_table (t : NodeTable) : (M.table t).ids = t.ids.map M.ids := by
  simp [NodeTable.ids, node]

/-- A `table` has under the other id of a node that node, recast. -/
@[simp] theorem find?_table (t : NodeTable) (id : String) :
    (M.table t).find? (M.ids id) = (t.find? id).map M.node := by
  simp only [NodeTable.find?, toList_table, List.find?_map]
  congr 2
  funext n
  simp [node]

@[simp] theorem contains_table (t : NodeTable) (id : String) :
    (M.table t).contains (M.ids id) = t.contains id := by
  simp [NodeTable.contains]

/-- A `table` is filtered before or after recasting by tests that agree. -/
theorem filter_table {t : NodeTable} {p q : Node → Bool}
    (hpq : ∀ n ∈ t.toList, q (M.node n) = p n) :
    (M.table t).filter q = M.table (t.filter p) := by
  apply NodeTable.ext
  simp only [NodeTable.filter, toList_table, List.filter_map]
  congr 1
  exact List.filter_congr hpq

/-- A node of a `table` is replaced before or after recasting. -/
theorem replace_table (t : NodeTable) (n : Node) :
    (M.table t).replace (M.node n) = M.table (t.replace n) := by
  apply NodeTable.ext
  simp only [NodeTable.replace, NodeTable.mapNodes, toList_table, List.map_map]
  apply List.map_congr_left
  intro m _
  by_cases hid : m.id = n.id <;> simp [node, hid]

/-- The recasting with other annotations for the node with an id. -/
def noting (id : String) (annotations : Dict Annotation) : Recasting :=
  { M with remarks := fun key => if key = id then annotations else M.remarks key }

private theorem node_noting_of_ne {id : String} {annotations : Dict Annotation} {n : Node}
    (h : n.id ≠ id) :
    (M.noting id annotations).node n = M.node n := by
  simp [node, noting, h]

/-- The node under its other id, with its own annotations. -/
def newcomer (n : Node) : Node := { n with id := M.ids n.id }

/-- A `newcomer` to a `table` keeps its annotations, whatever a node with its id had before. -/
theorem insert_table (t : NodeTable) (n : Node) :
    (M.table t).insert (M.newcomer n) = (M.noting n.id n.annotations).table (t.insert n) := by
  have hnode : (M.noting n.id n.annotations).node n = M.newcomer n := by
    simp [node, noting, newcomer]
  apply NodeTable.ext
  by_cases hmem : n.id ∈ t.ids
  · -- the node takes the place of the one with its id
    have hmem' : (M.newcomer n).id ∈ (M.table t).ids := by
      rw [ids_table]
      exact List.mem_map_of_mem hmem
    rw [toList_table, NodeTable.toList_insert_of_mem hmem, NodeTable.toList_insert_of_mem hmem',
      toList_table, List.map_map, List.map_map]
    apply List.map_congr_left
    intro m _
    by_cases hid : m.id = n.id
    · have hid' : (M.node m).id = (M.newcomer n).id := congrArg M.ids hid
      simp only [Function.comp_apply, if_pos hid, if_pos hid', hnode]
    · have hne : (M.node m).id ≠ (M.newcomer n).id := fun heq => hid (M.ids.injective heq)
      simp only [Function.comp_apply, if_neg hid, if_neg hne, M.node_noting_of_ne hid]
  · -- the node comes last, and no other one has its id
    have hmem' : (M.newcomer n).id ∉ (M.table t).ids := by
      rw [ids_table]
      intro h
      obtain ⟨id, hid, heq⟩ := List.mem_map.mp h
      exact hmem (M.ids.injective heq ▸ hid)
    rw [toList_table, NodeTable.toList_insert hmem, NodeTable.toList_insert hmem', List.map_append,
      List.map_singleton, hnode, toList_table]
    congr 1
    apply List.map_congr_left
    intro m hm
    have hid : m.id ≠ n.id := fun heq => hmem (heq ▸ List.mem_map_of_mem hm)
    exact (M.node_noting_of_ne hid).symm

/-! ### Edges -/

/-- Renaming by `ids` keeps apart what was apart. -/
theorem contains_map (ids : List String) (id : String) :
    (ids.map M.ids).contains (M.ids id) = ids.contains id := by
  simp [List.contains_eq_mem]

/-- A recast graph is `WiredAs` the graph. -/
theorem wired (g : Graph) : (M.graph g).WiredAs g M.ids (Edge.rename M.ids) :=
  ⟨rfl, fun _ => rfl, fun _ => rfl⟩

@[simp] theorem inputEdges_graph (g : Graph) (id : String) :
    (M.graph g).inputEdges (M.ids id) = (g.inputEdges id).map (Edge.rename M.ids) :=
  (M.wired g).inputEdges_eq id

@[simp] theorem outputEdges_graph (g : Graph) (id : String) :
    (M.graph g).outputEdges (M.ids id) = (g.outputEdges id).map (Edge.rename M.ids) :=
  (M.wired g).outputEdges_eq id

/-! ### Searching and sorting -/

variable {g : Graph}

@[simp] theorem reachedFrom_graph (roots : List String) :
    (M.graph g).reachedFrom (roots.map M.ids) = (g.reachedFrom roots).map M.ids :=
  (M.wired g).reachedFrom_eq roots

/-- The nodes of `topologicalOrder` stand in the same order. -/
@[simp] theorem topologicalOrder_graph (g : Graph) :
    (M.graph g).topologicalOrder = g.topologicalOrder.map M.node := by
  rw [(M.wired g).topologicalOrder_eq (M.ids_table g.nodes),
    List.filterMap_eq_map_iff_forall_eq_some]
  intro n hn
  have hmem := g.topologicalOrder_perm.mem_iff.mp hn
  show (M.table g.nodes).find? (M.ids n.id) = some (M.node n)
  rw [M.find?_table, NodeTable.find?_of_mem hmem]
  rfl

/-! ### Metrics -/

/-- `Costs.addAll` comes to the same. -/
private theorem costs_addAll (costs : Metrics.Costs) (nodes : List Node) :
    costs.addAll (nodes.map M.node) = costs.addAll nodes := by
  induction nodes generalizing costs with
  | nil => rfl
  | cons n rest ih =>
    rw [List.map_cons, Metrics.Costs.addAll, Metrics.Costs.addAll]
    -- what a node costs is read off its kind, ports and attributes
    have hadd : costs.add (M.node n) = costs.add n := rfl
    simp only [hadd, ih]

private theorem countKinds_map (nodes : List Node) :
    Metrics.countKinds (nodes.map M.node) = Metrics.countKinds nodes := List.foldl_map

/-- `nodeDepth` looks at the depths of the same nodes. -/
private theorem nodeDepth_graph (found : Dict Nat) (n : Node) :
    Metrics.nodeDepth (M.graph g) (found.rekey M.ids fun depth => depth) (M.node n) =
      Metrics.nodeDepth g found n := by
  unfold Metrics.nodeDepth
  rw [id_node, inputEdges_graph, List.foldl_map]
  congr 1
  funext depth e
  simp [Edge.rename]

/-- `Metrics.depths` has the same depths, under the other ids. -/
private theorem depths_graph (g : Graph) :
    Metrics.depths (M.graph g) = (Metrics.depths g).rekey M.ids fun depth => depth := by
  suffices hall : ∀ (nodes : List Node) (found : Dict Nat),
      (nodes.map M.node).foldl
          (fun found n => found.set n.id (Metrics.nodeDepth (M.graph g) found n))
          (found.rekey M.ids fun depth => depth) =
        (nodes.foldl (fun found n => found.set n.id (Metrics.nodeDepth g found n)) found).rekey
          M.ids fun depth => depth by
    unfold Metrics.depths
    rw [topologicalOrder_graph]
    exact hall g.topologicalOrder Dict.empty
  -- depths are entered one after the other, each from those entered before it
  intro nodes
  induction nodes with
  | nil => exact fun _ => rfl
  | cons n rest ih =>
    intro found
    rw [List.map_cons, List.foldl_cons, List.foldl_cons, nodeDepth_graph, ← ih, Dict.rekey_set]
    rfl

/-- `Metrics.compute` sees neither ids nor remarks. -/
theorem metrics_graph (g : Graph) : Metrics.compute (M.graph g) = Metrics.compute g := by
  have hdepth : Metrics.depthOf (M.graph g) = Metrics.depthOf g := by
    unfold Metrics.depthOf
    rw [depths_graph]
    simp [Dict.rekey, Function.comp_def]
  unfold Metrics.compute
  rw [hdepth]
  simp only [graph, toList_table, costs_addAll, countKinds_map, size_table, List.length_map]

end Recasting

end TensorGraph
