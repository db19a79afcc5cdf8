import TensorGraph.Proofs.Validity

/-!
# Edits of valid graphs

A valid graph stays valid when nodes or edges are taken out of it, and when a node with a new id is
added: its edges are still edges between the same nodes (`WellFormed.of_subset`). An added edge can
break it in four ways: its id may be taken, an end may be missing, a port index may be out of range,
or it may close a cycle.

A path that uses the added edge splits into a path to its source and a path from its target that do
without it (`transGen_addEdge`). So the edge closes a cycle exactly if its source can be reached
from its target (`acyclic_addEdge_iff`).
-/

namespace TensorGraph.Graph

/-! ### Nodes -/

theorem addNode_of_not_mem {g : Graph} {n : Node} (h : n.id ∉ g.nodes.ids) :
    g.addNode n = .ok { g with nodes := g.nodes.insert n } := by
  rw [addNode, if_neg (by rwa [NodeTable.contains_eq_true_iff])]

/-- A `WellFormed` graph stays so when a node with a new id is inserted, as it is at the end of no
edge. -/
theorem WellFormed.insert {g : Graph} (hg : g.WellFormed) {n : Node} (hnew : n.id ∉ g.nodes.ids) :
    ({ g with nodes := g.nodes.insert n } : Graph).WellFormed := by
  have hfind : ∀ id m, g.nodes.find? id = some m → (g.nodes.insert n).find? id = some m := by
    intro id m hm
    have hne : id ≠ n.id := fun heq => hnew (heq ▸ NodeTable.mem_ids_of_find? hm)
    rw [NodeTable.find?_insert, if_neg hne, hm]
  exact hg.of_subset hg.edgeIds_nodup (List.Subset.refl _) (fun e _ => hfind e.source.node)
    (fun e _ => hfind e.target.node)

/-- `removeNode` keeps a graph `WellFormed`, as all edges at the node go with it. -/
theorem WellFormed.removeNode {g : Graph} (hg : g.WellFormed) (id : String) :
    (g.removeNode id).WellFormed := by
  refine hg.restrict _ _ ?_ ?_
  · intro e _ hkeep n hn
    -- an edge that is kept has neither end at the node
    rw [Bool.and_eq_true] at hkeep
    rw [NodeTable.id_eq_of_find? hn]
    exact hkeep.1
  · intro e _ hkeep n hn
    rw [Bool.and_eq_true] at hkeep
    rw [NodeTable.id_eq_of_find? hn]
    exact hkeep.2

/-! ### Edges -/

theorem WellFormed.removeEdge {g : Graph} (hg : g.WellFormed) (id : String) :
    (g.removeEdge id).WellFormed :=
  hg.of_subset (hg.edgeIds_nodup.sublist (List.filter_sublist.map Edge.id))
    (List.filter_subset_self _) (fun _ _ _ hn => hn) (fun _ _ _ hn => hn)

private theorem mem_addEdge {g : Graph} {e x : Edge} :
    x ∈ (g.addEdge e).edges ↔ x ∈ g.edges ∨ x = e := by
  simp [addEdge]

/-- After `addEdge` a node `Feeds` another one if it did before or the new edge leads from it to the
other. -/
private theorem feeds_addEdge_iff {g : Graph} {e : Edge} {u v : String} :
    (g.addEdge e).Feeds u v ↔ g.Feeds u v ∨ e.source.node = u ∧ e.target.node = v := by
  simp only [Feeds, mem_addEdge, or_and_right, exists_or, exists_eq_left]

/-- A path after `addEdge` is a path without the new edge, or leads to its source and on from its
target without it. -/
private theorem transGen_addEdge {g : Graph} {e : Edge} {u v : String}
    (h : Relation.TransGen (g.addEdge e).Feeds u v) :
    Relation.TransGen g.Feeds u v ∨
      Relation.ReflTransGen g.Feeds u e.source.node ∧
      Relation.ReflTransGen g.Feeds e.target.node v := by
  induction h with
  | single hstep =>
    rcases feeds_addEdge_iff.mp hstep with hold | ⟨rfl, rfl⟩
    · exact Or.inl (.single hold)
    · exact Or.inr ⟨.refl, .refl⟩
  | tail _ hstep ih =>
    rcases feeds_addEdge_iff.mp hstep with hold | ⟨rfl, rfl⟩
    · exact ih.imp (fun hpath => hpath.tail hold) fun ⟨hsource, htarget⟩ =>
        ⟨hsource, htarget.tail hold⟩
    · -- where the path uses the new edge for the last time, only the way to its source matters
      exact Or.inr ⟨ih.elim (fun hpath => hpath.to_reflTransGen) fun h => h.1, .refl⟩

/-- `addEdge` closes a cycle exactly if the source of the edge can be reached from its target, be it
in no step. -/
private theorem acyclic_addEdge_iff {g : Graph} (hg : g.Acyclic) {e : Edge} :
    (g.addEdge e).Acyclic ↔ ¬ Relation.ReflTransGen g.Feeds e.target.node e.source.node := by
  constructor
  · intro hacyclic hreach
    have hnew : (g.addEdge e).Feeds e.source.node e.target.node :=
      feeds_addEdge_iff.mpr (Or.inr ⟨rfl, rfl⟩)
    have hback : Relation.ReflTransGen (g.addEdge e).Feeds e.target.node e.source.node :=
      Relation.ReflTransGen.mono (fun _ _ hold => feeds_addEdge_iff.mpr (Or.inl hold)) _ _ hreach
    exact hacyclic e.source.node (Relation.TransGen.head' hnew hback)
  · intro hreach id hcycle
    -- a cycle without the new edge was there before; one with it leads from its target to its
    -- source
    rcases transGen_addEdge hcycle with hold | ⟨hsource, htarget⟩
    · exact hg id hold
    · exact hreach (htarget.trans hsource)

/-- `addEdge` keeps a graph `WellFormed` exactly if the id is new, the ends are ports, and no cycle
is closed. -/
private theorem WellFormed.addEdge_iff {g : Graph} (hg : g.WellFormed) {e : Edge} :
    (g.addEdge e).WellFormed ↔
      e.id ∉ g.edges.map Edge.id ∧
        (∃ n, g.nodes.find? e.source.node = some n ∧ IsPort e.source.index n.outputs.length) ∧
        (∃ n, g.nodes.find? e.target.node = some n ∧ IsPort e.target.index n.inputs.length) ∧
        ¬ Relation.ReflTransGen g.Feeds e.target.node e.source.node := by
  have hids : ((g.addEdge e).edges.map Edge.id).Nodup ↔ e.id ∉ g.edges.map Edge.id := by
    simp only [addEdge, List.map_append, List.map_cons, List.map_nil]
    rw [← List.concat_eq_append, List.nodup_concat]
    exact and_iff_left hg.edgeIds_nodup
  -- the new edge has to pass what all edges have to pass
  have hlast : e ∈ (g.addEdge e).edges := mem_addEdge.mpr (Or.inr rfl)
  constructor
  · intro h
    exact ⟨hids.mp h.edgeIds_nodup, h.source_port e hlast, h.target_port e hlast,
      (acyclic_addEdge_iff hg.acyclic).mp h.acyclic⟩
  · rintro ⟨hid, hsource, htarget, hreach⟩
    refine ⟨hids.mpr hid, ?_, ?_, (acyclic_addEdge_iff hg.acyclic).mpr hreach⟩
    · intro x hx
      -- an edge from before passes as before
      rcases mem_addEdge.mp hx with hold | rfl
      · exact hg.source_port x hold
      · exact hsource
    · intro x hx
      rcases mem_addEdge.mp hx with hold | rfl
      · exact hg.target_port x hold
      · exact htarget

/-! ### Edits and validation -/

/-- A valid graph stays valid under `removeNode` and `removeEdge`, whatever the id, and if `addNode`
adds a node with a new id. Under `addEdge` it stays valid exactly if the id of the edge is new, its
ends are ports of nodes of the graph, and its source is neither its target nor reached from it. -/
theorem edits_keep_valid {g : Graph} (hvalid : g.validate = .ok ()) :
    (∀ id, (g.removeNode id).validate = .ok ()) ∧ (∀ id, (g.removeEdge id).validate = .ok ()) ∧
      (∀ n : Node, n.id ∉ g.nodes.ids → ∃ h, g.addNode n = .ok h ∧ h.validate = .ok ()) ∧
      ∀ e, (g.addEdge e).validate = .ok () ↔
        e.id ∉ g.edges.map Edge.id ∧
          (∃ n, g.nodes.find? e.source.node = some n ∧ e.source.index.Within n.outputs.length) ∧
          (∃ n, g.nodes.find? e.target.node = some n ∧ e.target.index.Within n.inputs.length) ∧
          ¬ Relation.ReflTransGen g.Feeds e.target.node e.source.node := by
  simp only [validate_eq_ok_iff, ← isPort_iff_within] at hvalid ⊢
  refine ⟨hvalid.removeNode, hvalid.removeEdge, fun n hnew => ?_, fun e => hvalid.addEdge_iff⟩
  exact ⟨_, addNode_of_not_mem hnew, hvalid.insert hnew⟩

/-- `scaledLayer` may do without the product of its constants, and may have another edge into that
product, but not from the activation that is computed from it. -/
theorem edits_keep_scaledLayer_valid :
    scaledLayer.validate = .ok () ∧ (scaledLayer.removeNode "k_5").validate = .ok () ∧
      (scaledLayer.removeEdge "e_13").validate = .ok () ∧
      (∃ h, scaledLayer.addNode (layerNode "z_18" .relu 1) = .ok h ∧ h.validate = .ok ()) ∧
      (scaledLayer.addEdge (layerEdge "e_18" "x_2" "k_5" 1)).validate = .ok () ∧
      (scaledLayer.addEdge (layerEdge "e_18" "r_8" "k_5" 1)).validate ≠ .ok () := by
  obtain ⟨hnodes, hedges, hadd, hlead⟩ := edits_keep_valid validate_scaledLayer
  refine ⟨validate_scaledLayer, hnodes _, hedges _, hadd _ (by decide), (hlead _).mpr ?_, ?_⟩
  · refine ⟨by decide, ⟨layerNode "x_2" .input 0, rfl, 0, rfl, by simp [layerNode]⟩,
      ⟨layerNode "k_5" .mul 2, rfl, 1, rfl, by simp [layerNode]⟩, ?_⟩
    -- nothing leads to an input
    have hnone : ∀ e ∈ scaledLayer.edges, e.target.node ≠ "x_2" := by decide
    intro hreach
    rcases hreach.cases_tail with heq | ⟨_, _, e, he, _, htarget⟩
    · exact absurd heq (by decide)
    · exact hnone e he htarget
  · intro hvalid
    have hproduct : scaledLayer.Feeds "k_5" "m_6" :=
      ⟨layerEdge "e_13" "k_5" "m_6" 1, by decide, rfl, rfl⟩
    have hsum : scaledLayer.Feeds "m_6" "a_7" :=
      ⟨layerEdge "e_14" "m_6" "a_7" 0, by decide, rfl, rfl⟩
    have hactivation : scaledLayer.Feeds "a_7" "r_8" :=
      ⟨layerEdge "e_16" "a_7" "r_8" 0, by decide, rfl, rfl⟩
    exact ((hlead _).mp hvalid).2.2.2
      (((Relation.ReflTransGen.single hproduct).tail hsum).tail hactivation)

end TensorGraph.Graph
