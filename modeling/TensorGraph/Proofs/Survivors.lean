import TensorGraph.Graph.Difference
import TensorGraph.Proofs.FusionRun
import TensorGraph.Proofs.Passes
import TensorGraph.Proofs.TypeAssignment

/-!
# What survives a pass

A pass never touches the identity of what it keeps. Edges keep their ids and their order, nodes keep
their kinds, names and order, and every node that comes in says what it stands for (`Descends`).
Typing and planning change nodes in place (`Descends.of_map`); everything else drops nodes and may
append new ones (`Descends.step`), so a whole run of folds or fusions descends from the graph that
it started with.

So the difference between a graph and what a pass makes of it shows no modified node and no added
edge (`Pass.apply_descends`).
-/

namespace TensorGraph

/-- The node came in for others and says for which: a constant for the node that was folded, or any
node for a chain that was fused. -/
def Node.IsReplacement (m : Node) : Prop :=
  (m.op = .constant ∧ ∃ origin, m.annotations.get? "folded_from" = some (.foldedFrom origin)) ∨
    ∃ origins, m.annotations.get? "fused_from" = some (.fusedFrom origins)

namespace Graph

/-- What the second graph shares with the first it has taken over unchanged, and all its other nodes
came in for nodes that are gone. -/
structure Descends (g h : Graph) : Prop where
  edgeIds : (h.edges.map Edge.id).Sublist (g.edges.map Edge.id)
  order : (h.nodes.ids.filter fun id => g.nodes.contains id).Sublist g.nodes.ids
  kept : ∀ n ∈ g.nodes.toList, ∀ m ∈ h.nodes.toList, m.id = n.id → m.op = n.op ∧ m.name = n.name
  added : ∀ m ∈ h.nodes.toList, m.id ∉ g.nodes.ids → m.IsReplacement

/-- A graph `Descends` from one whose nodes it has with other ports or annotations. -/
theorem Descends.of_map {g h : Graph} {f : Node → Node}
    (hnodes : h.nodes.toList = g.nodes.toList.map f)
    (hf : ∀ n, (f n).id = n.id ∧ (f n).op = n.op ∧ (f n).name = n.name)
    (hedges : h.edges.map Edge.id = g.edges.map Edge.id) : g.Descends h := by
  have hids : h.nodes.ids = g.nodes.ids := by
    simp only [NodeTable.ids, hnodes, List.map_map]
    exact List.map_congr_left fun n _ => (hf n).1
  refine ⟨?_, ?_, ?_, ?_⟩
  · rw [hedges]
  · rw [hids]
    exact List.filter_sublist
  · -- a node that has kept its id has kept its kind and name
    intro n hn m hm hid
    rw [hnodes, List.mem_map] at hm
    obtain ⟨n', hn', rfl⟩ := hm
    rw [(hf n').1] at hid
    obtain rfl := NodeTable.eq_of_id_eq hn' hn hid
    exact (hf n').2
  · -- no node is new
    intro m hm hid
    exact absurd (hids ▸ List.mem_map_of_mem hm) hid

theorem Descends.refl (g : Graph) : g.Descends g :=
  .of_map (List.map_id _).symm (fun _ => ⟨rfl, rfl, rfl⟩) rfl

/-- A graph still `Descends` from the first one when nodes and edges go and replacements with ids
that the first one does not have are appended. -/
theorem Descends.step {g k h : Graph} (hk : g.Descends k) (new : List Node)
    (hnew : ∀ m ∈ new, m.id ∉ g.nodes.ids ∧ m.IsReplacement)
    (hnodes : h.nodes.toList.Sublist (k.nodes.toList ++ new))
    (hedges : (h.edges.map Edge.id).Sublist (k.edges.map Edge.id)) : g.Descends h := by
  have hmem : ∀ m ∈ h.nodes.toList, m ∈ k.nodes.toList ∨ m ∈ new := fun m hm =>
    List.mem_append.mp (hnodes.subset hm)
  refine ⟨hedges.trans hk.edgeIds, ?_, ?_, ?_⟩
  · -- the new ids are not among those that are looked at
    have hnone : (new.map Node.id).filter (fun id => g.nodes.contains id) = [] := by
      rw [List.filter_eq_nil_iff]
      intro id hid
      obtain ⟨m, hm, rfl⟩ := List.mem_map.mp hid
      rw [NodeTable.contains_eq_true_iff]
      exact (hnew m hm).1
    have hsub := (hnodes.map Node.id).filter fun id => g.nodes.contains id
    rw [List.map_append, List.filter_append, hnone, List.append_nil] at hsub
    exact hsub.trans hk.order
  · -- a node with an id of the first graph is none of the new ones
    intro n hn m hm hid
    cases hmem m hm with
    | inl hold => exact hk.kept n hn m hold hid
    | inr hin => exact absurd (hid ▸ List.mem_map_of_mem hn) (hnew m hin).1
  · intro m hm hid
    cases hmem m hm with
    | inl hold => exact hk.added m hold hid
    | inr hin => exact (hnew m hin).2

/-- A graph still `Descends` from the first one when nodes and edges go. -/
theorem Descends.restrict {g k h : Graph} (hk : g.Descends k)
    (hnodes : h.nodes.toList.Sublist k.nodes.toList) (hedges : h.edges.Sublist k.edges) :
    g.Descends h := by
  refine hk.step [] (List.forall_mem_nil _) ?_ (hedges.map Edge.id)
  rw [List.append_nil]
  exact hnodes

/-! ### One pass at a time -/

/-- A `foldedConstant` says what it was folded from. -/
private theorem foldedConstant_isReplacement (n : Node) (id : String) :
    (foldedConstant n id).IsReplacement :=
  Or.inl ⟨rfl, n.origin, rfl⟩

/-- Edges keep their ids in `replaceByConstant`. -/
theorem edgeIds_replaceByConstant (g : Graph) (n : Node) (id : String) :
    ((g.replaceByConstant n id).edges.map Edge.id).Sublist (g.edges.map Edge.id) := by
  have hids : Edge.id ∘ redirect n id = Edge.id := funext fun e => redirect_id n id e
  rw [edges_replaceByConstant, List.map_map, hids]
  exact List.filter_sublist.map Edge.id

/-- `foldConstants` keeps what it does not fold. -/
private theorem foldConstants_descends {g : Graph} {ids : IdSource} (hg : g.WellFormed)
    (hfresh : ids.FreshFor g.nodes) : g.Descends (g.foldConstants ids).1 := by
  -- the ids that are still to come are new to the graph that folding started with
  refine (foldConstants_keeps (P := fun k ids => g.Descends k ∧ ids.FreshFor g.nodes) ?_ hg hfresh
    ⟨.refl g, hfresh⟩).1
  intro k ids n _ hfreshk _ hk
  obtain ⟨hdesc, hfresh⟩ := hk
  have hreplaced : g.Descends (k.replaceByConstant n (ids.next "const").1) := by
    refine hdesc.step [foldedConstant n (ids.next "const").1] ?_ ?_
      (edgeIds_replaceByConstant k n _)
    · intro m hm
      obtain rfl := List.mem_singleton.mp hm
      exact ⟨hfresh.next_not_mem "const", foldedConstant_isReplacement n _⟩
    · rw [toList_replaceByConstant n (hfreshk.next_not_mem "const")]
      exact List.filter_sublist.append_right _
  exact ⟨hreplaced.restrict List.filter_sublist List.filter_sublist,
    hfresh.next fun _ hid => Or.inr hid⟩

/-- A node that came in for a chain that `Fuses` says so. -/
private theorem Fuses.new_isReplacement {g h : Graph} {pattern : FusionPattern} {chain : List Node}
    {first last new : Node} (hf : g.Fuses pattern chain first last new h) : new.IsReplacement := by
  rw [hf.new_eq]
  exact Or.inr ⟨chain.map Node.origin, rfl⟩

/-- Edges keep their ids where a graph `Fuses`. -/
theorem Fuses.edgeIds {g h : Graph} {pattern : FusionPattern} {chain : List Node}
    {first last new : Node} (hf : g.Fuses pattern chain first last new h) :
    (h.edges.map Edge.id).Sublist (g.edges.map Edge.id) := by
  obtain ⟨c, name, hc, _, rfl⟩ := contract_eq_ok hf.contract_eq
  exact edgeIds_sublist_of_contractEdges hc

/-- `fuse` keeps what it does not fuse. -/
private theorem fuse_descends {patterns : List FusionPattern} {g h : Graph} {ids : IdSource}
    (hg : g.WellFormed) (hfresh : ids.FreshFor g.nodes) (hok : (fuse patterns g ids).1 = .ok h) :
    g.Descends h := by
  -- a fusion brings in one node with a new id, and takes some away
  refine (fuse_keeps (P := fun k ids => g.Descends k ∧ ids.FreshFor g.nodes) ?_ hg hfresh
    ⟨.refl g, hfresh⟩ hok).1
  intro k ids pattern chain first last new next _ _ hid hf hk
  obtain ⟨hdesc, hfresh⟩ := hk
  refine ⟨hdesc.step [new] ?_ ?_ hf.edgeIds, hfresh.next fun _ hid => Or.inr hid⟩
  · intro m hm
    obtain rfl := List.mem_singleton.mp hm
    exact ⟨hid ▸ hfresh.next_not_mem "fused", hf.new_isReplacement⟩
  · rw [hf.nodes_eq]
    exact List.filter_sublist.append_right _

/-- `inferTypes` changes nodes and edges in place. -/
private theorem inferTypes_descends {g h : Graph} (hg : g.WellFormed) (hok : g.inferTypes = .ok h) :
    g.Descends h := by
  obtain ⟨types, _, rfl⟩ := (inferTypes_eq_ok_iff hg).mp hok
  refine .of_map (f := g.retypeNode types) rfl (fun _ => ⟨rfl, rfl, rfl⟩) ?_
  simp [retyped, Edge.withType]

/-- `withPlan` changes nodes in place. -/
private theorem withPlan_descends (g : Graph) (plan : MemoryPlan) :
    g.Descends (g.withPlan plan) := by
  refine .of_map rfl (fun n => ?_) rfl
  split <;> exact ⟨rfl, rfl, rfl⟩

private theorem dropDead_descends (g : Graph) : g.Descends g.dropDead :=
  (Descends.refl g).restrict List.filter_sublist List.filter_sublist

/-! ### Differences -/

/-- In a graph that `Descends` from another no edge has come in. -/
private theorem Descends.addedEdges_eq_nil {g h : Graph} (hdesc : g.Descends h) :
    (g.difference h).addedEdges = [] := by
  show (h.edges.map Edge.id).filter _ = []
  rw [List.filter_eq_nil_iff]
  intro id hid
  simpa using hdesc.edgeIds.subset hid

/-- In a graph that `Descends` from another no node has changed its kind or name, if names equal
themselves. -/
private theorem Descends.modifiedNodes_eq_nil {g h : Graph} (hdesc : g.Descends h)
    (hnames : ∀ n ∈ g.nodes.toList, n.name.sameAlone n.name = true) :
    (g.difference h).modifiedNodes = [] := by
  show (h.nodes.toList.filter g.isModified).map Node.id = []
  rw [List.map_eq_nil_iff, List.filter_eq_nil_iff]
  intro m hm
  unfold isModified
  split
  · -- a node that was there has kept its kind and name
    rename_i old hold
    obtain ⟨hmem, hid⟩ := NodeTable.find?_eq_some_iff.mp hold
    obtain ⟨hop, hname⟩ := hdesc.kept old hmem m hm hid.symm
    simp [hop, hname, hnames old hmem]
  · -- a node that was not there is not modified
    exact Bool.false_ne_true

end Graph

/-- `Pass.apply` on a valid graph keeps what it does not replace: edges keep their ids and order,
nodes keep kind, name and order, and every other node is a constant that says what was folded or a
node that says what was fused. So no edge counts as added in the `difference`, and no node counts
as modified if names equal themselves, as every text does. (A name that is a NaN differs from
itself.) -/
theorem Pass.apply_descends {p : Pass} {g h : Graph} {ids : IdSource} (hvalid : g.validate = .ok ())
    (hfresh : ids.FreshFor g.nodes) (hok : (p.apply g ids).1 = .ok h) :
    g.Descends h ∧ (g.difference h).addedEdges = [] ∧
      ((∀ n ∈ g.nodes.toList, n.name.sameAlone n.name = true) →
        (g.difference h).modifiedNodes = []) := by
  have hg := Graph.validate_eq_ok_iff.mp hvalid
  have hdesc : g.Descends h := by
    cases p with
    | inferTypes => exact Graph.inferTypes_descends hg hok
    | foldConstants =>
      cases hok
      exact Graph.foldConstants_descends hg hfresh
    | dropDead =>
      cases hok
      exact Graph.dropDead_descends g
    | fuse patterns => exact Graph.fuse_descends hg hfresh hok
    | planMemory alignment reuse =>
      -- noting a plan can fail, and then there is no graph
      obtain ⟨plan, _, rfl⟩ := exists_of_map_eq_ok hok
      exact Graph.withPlan_descends g plan
  exact ⟨hdesc, hdesc.addedEdges_eq_nil, hdesc.modifiedNodes_eq_nil⟩

/-- `Graph.scaledLayer`, in which there is something to fold. -/
theorem Pass.foldConstants_scaledLayer_descends :
    Graph.scaledLayer.validate = .ok () ∧ IdSource.FreshFor ⟨17⟩ Graph.scaledLayer.nodes ∧
      Graph.scaledLayer.Descends (Graph.scaledLayer.foldConstants ⟨17⟩).1 ∧
      (Graph.scaledLayer.difference (Graph.scaledLayer.foldConstants ⟨17⟩).1).addedEdges = [] ∧
      (Graph.scaledLayer.difference (Graph.scaledLayer.foldConstants ⟨17⟩).1).modifiedNodes =
        [] := by
  obtain ⟨hdesc, hadded, hmodified⟩ := Pass.apply_descends (p := .foldConstants)
    Graph.validate_scaledLayer Graph.freshFor_scaledLayer rfl
  exact ⟨Graph.validate_scaledLayer, Graph.freshFor_scaledLayer, hdesc, hadded,
    hmodified (by decide)⟩

end TensorGraph
