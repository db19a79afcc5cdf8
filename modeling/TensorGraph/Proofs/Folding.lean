import TensorGraph.Proofs.FreshIds
import TensorGraph.Proofs.Validity
import TensorGraph.Transform.Folding

/-!
# Folding keeps graphs well formed

One fold is described in its two halves: a node gives way to a constant (`replaceByConstant`), and
constants that nobody reads go (`dropOrphans`). Each half keeps a graph well formed; so does the
fold, and so does folding until no node qualifies. The new id must not belong to a node, which the
id source guarantees as long as it is fresh for the graph.
-/

namespace TensorGraph.Graph

/-! ### Replacing a node by a constant -/

/-- Where an edge comes from once a node has given way to the constant with the given id. -/
def redirect (n : Node) (id : String) (e : Edge) : Edge :=
  if e.source.node = n.id then e.withSource id none else e

@[simp] theorem redirect_id (n : Node) (id : String) (e : Edge) : (redirect n id e).id = e.id := by
  unfold redirect
  split <;> rfl

@[simp] theorem redirect_target (n : Node) (id : String) (e : Edge) :
    (redirect n id e).target = e.target := by
  unfold redirect
  split <;> rfl

@[simp] theorem redirect_source_index (n : Node) (id : String) (e : Edge) :
    (redirect n id e).source.index = e.source.index := by
  unfold redirect
  split <;> rfl

@[simp] theorem redirect_type (n : Node) (id : String) (e : Edge) :
    (redirect n id e).type = e.type := by
  unfold redirect
  split <;> rfl

/-- `redirect` changes the source of edges out of the node, and of no others. -/
theorem redirect_source_node (n : Node) (id : String) (e : Edge) :
    (redirect n id e).source.node = if e.source.node = n.id then id else e.source.node := by
  unfold redirect
  split <;> rfl

/-- The edges after `replaceByConstant` are those that do not lead to the node, each under
`redirect`. -/
theorem edges_replaceByConstant (g : Graph) (n : Node) (id : String) :
    (g.replaceByConstant n id).edges =
      (g.edges.filter (·.target.node != n.id)).map (redirect n id) := rfl

/-- An edge after `replaceByConstant` is an old edge that does not lead to the node, under
`redirect`. -/
theorem mem_edges_replaceByConstant {g : Graph} {n : Node} {id : String} {e : Edge} :
    e ∈ (g.replaceByConstant n id).edges ↔
      ∃ e₀ ∈ g.edges, e₀.target.node ≠ n.id ∧ redirect n id e₀ = e := by
  simp [edges_replaceByConstant, and_assoc]

/-- After `replaceByConstant` the constant is found under its id, nothing under the id of the node,
and nothing else changes. -/
theorem find?_replaceByConstant (g : Graph) (n : Node) (id : String) {key : String} {m : Node} :
    (g.replaceByConstant n id).nodes.find? key = some m ↔
      if key = id then m = foldedConstant n id else g.nodes.find? key = some m ∧ key ≠ n.id := by
  simp only [replaceByConstant, NodeTable.find?_insert]
  by_cases hkey : key = id
  · subst hkey
    simp only [foldedConstant, ↓reduceIte, Option.some.injEq]
    exact eq_comm
  · have hne : key ≠ (foldedConstant n id).id := hkey
    rw [if_neg hne, if_neg hkey, NodeTable.find?_filter_eq_some_iff]
    -- the id of what is found is the key, so the node filtered out is the one under that key
    constructor
    · intro h
      refine ⟨h.1, ?_⟩
      rw [← NodeTable.id_eq_of_find? h.1]
      simpa using h.2
    · intro h
      refine ⟨h.1, ?_⟩
      rw [← NodeTable.id_eq_of_find? h.1] at h
      simpa using h.2

/-- The nodes after `replaceByConstant` are the others in their order, and then the constant. -/
theorem toList_replaceByConstant {g : Graph} (n : Node) {id : String} (hnew : id ∉ g.nodes.ids) :
    (g.replaceByConstant n id).nodes.toList =
      g.nodes.toList.filter (·.id != n.id) ++ [foldedConstant n id] := by
  apply NodeTable.toList_insert
  intro hmem
  exact hnew ((List.filter_sublist.map Node.id).subset hmem)

/-- The ids after `replaceByConstant` are old ones and that of the constant. -/
private theorem mem_ids_replaceByConstant {g : Graph} {n : Node} {id key : String}
    (h : key ∈ (g.replaceByConstant n id).nodes.ids) : key = id ∨ key ∈ g.nodes.ids := by
  obtain ⟨m, hm⟩ := NodeTable.mem_ids_iff.mp h
  rw [find?_replaceByConstant] at hm
  split at hm
  · exact Or.inl ‹_›
  · exact Or.inr (NodeTable.mem_ids_of_find? hm.1)

/-- To send the constant of `replaceByConstant` back to the node that it stands for turns new edges
into old ones. -/
theorem feeds_of_replaceByConstant {g : Graph} {n : Node} {id : String} (hclosed : g.Closed)
    (hnew : id ∉ g.nodes.ids) {u v : String} (h : (g.replaceByConstant n id).Feeds u v) :
    g.Feeds (if u = id then n.id else u) (if v = id then n.id else v) := by
  obtain ⟨e, he, rfl, rfl⟩ := h
  obtain ⟨e₀, he₀, _, rfl⟩ := mem_edges_replaceByConstant.mp he
  -- the new id is not among those that edges run between
  have hsource : e₀.source.node ≠ id := fun heq => hnew (heq ▸ (hclosed e₀ he₀).1)
  have htarget : e₀.target.node ≠ id := fun heq => hnew (heq ▸ (hclosed e₀ he₀).2)
  refine ⟨e₀, he₀, ?_, ?_⟩
  · -- edges out of the folded node come from the constant now
    rw [redirect_source_node]
    by_cases heq : e₀.source.node = n.id
    · rw [if_pos heq, if_pos rfl, heq]
    · rw [if_neg heq, if_neg hsource]
  · rw [redirect_target, if_neg htarget]

/-- `replaceByConstant` with a node of a `WellFormed` graph and a new id keeps it `WellFormed`. -/
theorem WellFormed.replaceByConstant {g : Graph} (hg : g.WellFormed) {n : Node} {id : String}
    (hn : n ∈ g.nodes.toList) (hnew : id ∉ g.nodes.ids) :
    (g.replaceByConstant n id).WellFormed where
  edgeIds_nodup := by
    have hids : (g.replaceByConstant n id).edges.map Edge.id =
        (g.edges.filter (·.target.node != n.id)).map Edge.id := by
      simp [edges_replaceByConstant, Function.comp_def]
    rw [hids]
    exact hg.edgeIds_nodup.sublist (List.filter_sublist.map Edge.id)
  source_port := by
    intro e he
    obtain ⟨e₀, he₀, _, rfl⟩ := mem_edges_replaceByConstant.mp he
    obtain ⟨m, hm, hport⟩ := hg.source_port e₀ he₀
    rw [redirect_source_node, redirect_source_index]
    by_cases hsource : e₀.source.node = n.id
    · -- the constant has the output ports of the node
      have hmn : m = n := by
        rw [hsource, NodeTable.find?_of_mem hn] at hm
        exact (Option.some.inj hm).symm
      subst hmn
      refine ⟨foldedConstant m id, ?_, hport⟩
      rw [if_pos hsource, find?_replaceByConstant, if_pos rfl]
    · refine ⟨m, ?_, hport⟩
      have hid : e₀.source.node ≠ id := fun heq => hnew (heq ▸ NodeTable.mem_ids_of_find? hm)
      rw [if_neg hsource, find?_replaceByConstant, if_neg hid]
      exact ⟨hm, hsource⟩
  target_port := by
    intro e he
    obtain ⟨e₀, he₀, htarget, rfl⟩ := mem_edges_replaceByConstant.mp he
    obtain ⟨m, hm, hport⟩ := hg.target_port e₀ he₀
    have hid : e₀.target.node ≠ id := fun heq => hnew (heq ▸ NodeTable.mem_ids_of_find? hm)
    rw [redirect_target]
    refine ⟨m, ?_, hport⟩
    rw [find?_replaceByConstant, if_neg hid]
    exact ⟨hm, htarget⟩
  acyclic := by
    -- a cycle through the constant would have been one through the node
    refine hg.acyclic.of_map (fun key => if key = id then n.id else key) ?_
    intro u v h
    exact .single (feeds_of_replaceByConstant hg.closed hnew h)

/-! ### Dropping constants that nobody reads -/

/-- The ids of the constants, other than the spared one, that no edge leaves. -/
def orphanIds (g : Graph) (spared : String) : List String :=
  (g.nodes.toList.filter fun n =>
    n.op == .constant && n.id != spared && !(g.edges.map fun e => e.source.node).contains n.id).map
      Node.id

theorem nodes_dropOrphans (g : Graph) (spared : String) :
    (g.dropOrphans spared).nodes =
      g.nodes.filter fun n => !(g.orphanIds spared).contains n.id := rfl

/-- `orphanIds` are those of the constants, other than the spared one, that no edge leaves. -/
theorem mem_orphanIds {g : Graph} {spared id : String} :
    id ∈ g.orphanIds spared ↔ ∃ n ∈ g.nodes.toList, n.id = id ∧ n.op = .constant ∧ id ≠ spared ∧
      ∀ e ∈ g.edges, e.source.node ≠ id := by
  simp only [orphanIds, List.mem_map, List.mem_filter, Bool.and_eq_true, beq_iff_eq, bne_iff_ne,
    Bool.not_eq_true', List.contains_eq_mem, decide_eq_false_iff_not, not_exists, not_and]
  constructor
  · intro h
    obtain ⟨n, ⟨hn, ⟨hop, hspared⟩, hunread⟩, rfl⟩ := h
    exact ⟨n, hn, rfl, hop, hspared, hunread⟩
  · intro h
    obtain ⟨n, hn, rfl, hop, hspared, hunread⟩ := h
    exact ⟨n, ⟨hn, ⟨hop, hspared⟩, hunread⟩, rfl⟩

/-- No edge leaves a node in `orphanIds`. -/
theorem source_not_mem_orphanIds {g : Graph} (spared : String) {e : Edge} (he : e ∈ g.edges) :
    e.source.node ∉ g.orphanIds spared := by
  intro h
  obtain ⟨_, _, _, _, _, hunread⟩ := mem_orphanIds.mp h
  exact hunread e he rfl

/-- The edges that go under `dropOrphans` are the edges into the orphans. -/
theorem edges_dropOrphans (g : Graph) (spared : String) :
    (g.dropOrphans spared).edges =
      g.edges.filter fun e => !(g.orphanIds spared).contains e.target.node := by
  show g.edges.filter (fun e => !(g.orphanIds spared).contains e.source.node &&
    !(g.orphanIds spared).contains e.target.node) = _
  apply List.filter_congr
  intro e he
  have hsource := source_not_mem_orphanIds spared he
  simp [hsource]

/-- `dropOrphans` keeps a graph `WellFormed`. -/
theorem WellFormed.dropOrphans {g : Graph} (hg : g.WellFormed) (spared : String) :
    (g.dropOrphans spared).WellFormed := by
  refine hg.restrict _ _ ?_ ?_
  · -- sources are never orphans, whether their edge is kept or not
    intro e he _ n hn
    rw [NodeTable.id_eq_of_find? hn]
    show (!(g.orphanIds spared).contains e.source.node) = true
    rw [Bool.not_eq_true', List.contains_eq_mem, decide_eq_false_iff_not]
    exact source_not_mem_orphanIds spared he
  · intro e _ hkeep n hn
    rw [NodeTable.id_eq_of_find? hn]
    simp only [Bool.and_eq_true] at hkeep
    exact hkeep.2

/-! ### Folding -/

/-- The nodes after `foldNode`: those with the constant in place of the node, without the
orphans. -/
theorem mem_foldNode_iff {g : Graph} {n m : Node} {ids : IdSource} :
    m ∈ (g.foldNode n ids).1.nodes.toList ↔
      m ∈ (g.replaceByConstant n (ids.next "const").1).nodes.toList ∧
        m.id ∉ (g.replaceByConstant n (ids.next "const").1).orphanIds (ids.next "const").1 := by
  show m ∈ ((g.replaceByConstant n (ids.next "const").1).dropOrphans
    (ids.next "const").1).nodes.toList ↔ _
  rw [nodes_dropOrphans, NodeTable.mem_toList_filter, Bool.not_eq_true', List.contains_eq_mem,
    decide_eq_false_iff_not]

/-- The ids after `foldNode` are old ones and the one that was issued for the constant. -/
theorem mem_ids_foldNode {g : Graph} {n : Node} {ids : IdSource} {key : String}
    (h : key ∈ (g.foldNode n ids).1.nodes.ids) :
    key = (ids.next "const").1 ∨ key ∈ g.nodes.ids := by
  obtain ⟨m, hm, hid⟩ := List.mem_map.mp h
  rw [← hid]
  exact mem_ids_replaceByConstant (List.mem_map_of_mem (mem_foldNode_iff.mp hm).1)

/-- `foldNode` keeps a graph `WellFormed` and the id source fresh for it. -/
theorem foldNode_wellFormed {g : Graph} {n : Node} {ids : IdSource} (hg : g.WellFormed)
    (hfresh : ids.FreshFor g.nodes) (hn : n ∈ g.nodes.toList) :
    (g.foldNode n ids).1.WellFormed ∧ (g.foldNode n ids).2.FreshFor (g.foldNode n ids).1.nodes := by
  constructor
  · exact (hg.replaceByConstant hn (hfresh.next_not_mem "const")).dropOrphans _
  · exact hfresh.next fun _ hid => mem_ids_foldNode hid

/-- `foldConstants` keeps a graph `WellFormed` and the id source fresh for it. -/
theorem foldConstants_wellFormed {g : Graph} {ids : IdSource} (hg : g.WellFormed)
    (hfresh : ids.FreshFor g.nodes) :
    (g.foldConstants ids).1.WellFormed ∧
      (g.foldConstants ids).2.FreshFor (g.foldConstants ids).1.nodes := by
  fun_induction foldConstants g ids with
  | case1 g ids _ => exact ⟨hg, hfresh⟩
  | case2 g ids n hfind ih =>
    have hstep := foldNode_wellFormed hg hfresh (List.mem_of_find?_eq_some hfind)
    exact ih hstep.1 hstep.2

/-- What every `foldNode` in a `WellFormed` graph keeps, `foldConstants` keeps. -/
theorem foldConstants_keeps {P : Graph → IdSource → Prop}
    (hstep : ∀ g ids n, g.WellFormed → ids.FreshFor g.nodes → n ∈ g.nodes.toList → P g ids →
      P (g.foldNode n ids).1 (ids.next "const").2)
    {g : Graph} {ids : IdSource} (hg : g.WellFormed) (hfresh : ids.FreshFor g.nodes)
    (hkeeps : P g ids) : P (g.foldConstants ids).1 (g.foldConstants ids).2 := by
  fun_induction foldConstants g ids with
  | case1 g ids _ => exact hkeeps
  | case2 g ids n hfind ih =>
    have hn := List.mem_of_find?_eq_some hfind
    obtain ⟨hwf, hfresh'⟩ := foldNode_wellFormed hg hfresh hn
    exact ih hwf hfresh' (hstep g ids n hg hfresh hn hkeeps)

/-- A source that has issued seventeen ids is `FreshFor` `scaledLayer`. -/
theorem freshFor_scaledLayer : IdSource.FreshFor ⟨17⟩ scaledLayer.nodes := by
  have hids : scaledLayer.nodes.ids = [("x", 2), ("w", 3), ("c", 4), ("k", 5), ("m", 6), ("a", 7),
      ("r", 8), ("y", 9)].map fun entry => IdSource.idOf entry.1 entry.2 := by decide
  exact IdSource.freshFor_of_issued hids (by decide)

end TensorGraph.Graph
