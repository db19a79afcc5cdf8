import TensorGraph.Proofs.Editing
import TensorGraph.Proofs.TopologicalOrder
import TensorGraph.Proofs.TypeAssignment

/-!
# Orders that sorting keeps

The search takes the nodes as roots in the order in which they were put in. If every edge leads to a
node that was put in later, then all that feeds a root has been finished when its turn comes: the
root is entered and finished at once (`search_of_marked`), and the roots are finished in their order
(`explore_of_settled`). So sorting keeps an order that is topological already, and a graph whose
nodes are put in again in topological order is sorted (`foldlM_addNode`).
-/

namespace TensorGraph

/-- `NodeTable.find?` of all ids of a table in turn gives its nodes. -/
private theorem NodeTable.filterMap_find?_ids (t : NodeTable) :
    t.ids.filterMap t.find? = t.toList := by
  rw [NodeTable.ids, List.filterMap_map]
  refine (List.filterMap_congr ?_).trans List.filterMap_some
  exact fun n hn => NodeTable.find?_of_mem hn

namespace Graph

/-! ### Roots that wait for nothing -/

/-- If all sources of the edges to be looked at are marked, `search` finishes the node on top of the
stack next. -/
private theorem search_of_marked (g : Graph) {id : String} {pending : List Edge}
    (mem : ∀ e ∈ pending, e ∈ g.edges) (rest : List (Frame g)) {visited : List String}
    (finished : List String) (h : ∀ e ∈ pending, e.source.node ∈ visited) :
    g.search (⟨id, pending, mem⟩ :: rest) visited finished =
      g.search rest visited (id :: finished) := by
  induction pending with
  | nil => rw [search]
  | cons e es ih =>
    rw [List.forall_mem_cons] at h
    rw [search, dif_pos (List.contains_iff_mem.mpr h.1)]
    exact ih (Frame.mem_of_later mem) h.2

/-- A list of ids is `Settled` if each of them comes after all that feeds it. -/
private theorem settled_of_forall {g : Graph} {ids : List String}
    (h : ∀ later id earlier, ids = later ++ id :: earlier →
      ∀ e ∈ g.inputEdges id, e.source.node ∈ earlier) : g.Settled ids := by
  induction ids with
  | nil => trivial
  | cons id rest ih =>
    refine ⟨h [] id rest rfl, ih ?_⟩
    intro later id' earlier hsplit
    exact h (id :: later) id' earlier (by rw [hsplit, List.cons_append])

/-- `explore` finishes roots that come after all that feeds them in their order, on top of what has
been finished before. -/
private theorem explore_of_settled {g : Graph} {roots done : List String}
    (hnodup : (roots.reverse ++ done).Nodup) (hsettled : g.Settled (roots.reverse ++ done)) :
    g.explore roots (done, done) = (roots.reverse ++ done, roots.reverse ++ done) := by
  induction roots generalizing done with
  | nil => rfl
  | cons root roots ih =>
    rw [List.reverse_cons, List.append_assoc, List.singleton_append] at hnodup hsettled ⊢
    -- the root is new, and all that feeds it is among the ids before it
    have hnew : root ∉ done := (List.nodup_cons.mp (List.nodup_append.mp hnodup).2.1).1
    have hfed : ∀ e ∈ g.inputEdges root, e.source.node ∈ root :: done :=
      fun e he => List.mem_cons_of_mem _ (hsettled.source_mem he)
    rw [explore, if_neg (by simpa using hnew), Frame.enter, search_of_marked g _ _ _ hfed, search]
    exact ih hnodup hsettled

/-! ### Orders of insertion -/

/-- A list without repetitions is split at one of its members in one way only. -/
private theorem eq_of_append_cons_eq {first last first' last' : List String} {id : String}
    (hnodup : (first ++ id :: last).Nodup) (h : first ++ id :: last = first' ++ id :: last') :
    first = first' := by
  rw [List.nodup_append, List.nodup_cons] at hnodup
  have hfirst : id ∉ first := fun hmem => hnodup.2.2 id hmem id List.mem_cons_self rfl
  exact ((List.append_cons_inj_of_notMem hfirst hnodup.2.1.1).mp h).1

/-- If the order of insertion `Respects` every edge, the ids, read backwards, are `Settled`. -/
private theorem settled_of_respects {g : Graph} (h : ∀ e ∈ g.edges, Respects g.nodes.toList e) :
    g.Settled g.nodes.ids.reverse := by
  apply settled_of_forall
  intro later id earlier hsplit e he
  obtain ⟨hmem, htarget⟩ := mem_inputEdges.mp he
  obtain ⟨before, source, between, target, after, horder, hsource, hid⟩ := h e hmem
  have hids : g.nodes.ids = earlier.reverse ++ id :: later.reverse := by
    rw [← List.reverse_reverse g.nodes.ids, hsplit]
    simp
  -- the same list, cut at the target as the edge cuts it
  have hrespected : g.nodes.ids =
      (before ++ source :: between).map Node.id ++ id :: after.map Node.id := by
    rw [NodeTable.ids, horder, ← htarget, ← hid]
    simp
  -- the target stands in one place only, and the source is before it
  have hbefore : earlier.reverse = (before ++ source :: between).map Node.id :=
    eq_of_append_cons_eq (hids ▸ g.nodes.ids_nodup) (hids.symm.trans hrespected)
  rw [← List.mem_reverse, hbefore, ← hsource]
  simp

/-- If every edge leads to a node that was put in later, `topologicalOrder` is the order of
insertion. -/
private theorem topologicalOrder_eq_toList {g : Graph}
    (h : ∀ e ∈ g.edges, Respects g.nodes.toList e) :
    g.topologicalOrder = g.nodes.toList := by
  have hnodup : g.nodes.ids.reverse.Nodup := List.nodup_reverse.mpr g.nodes.ids_nodup
  have hexplore := explore_of_settled (by rwa [List.append_nil])
    (by rw [List.append_nil]; exact settled_of_respects h)
  rw [topologicalOrder, hexplore, List.append_nil, List.reverse_reverse,
    NodeTable.filterMap_find?_ids]

/-- The same graph, with its nodes put in one after the other in a given order. -/
def reinsert (g : Graph) (order : List Node) : Except Error Graph :=
  order.foldlM addNode { g with nodes := NodeTable.empty }

/-- `addNode` puts in nodes with new ids that differ from each other one after the other, and they
come last. -/
private theorem foldlM_addNode {g : Graph} {order : List Node}
    (h : (g.nodes.ids ++ order.map Node.id).Nodup) :
    ∃ table : NodeTable, order.foldlM addNode g = .ok { g with nodes := table } ∧
      table.toList = g.nodes.toList ++ order := by
  induction order generalizing g with
  | nil => exact ⟨g.nodes, rfl, (List.append_nil _).symm⟩
  | cons n rest ih =>
    -- the node is new, and the ids of the rest are new to the longer table
    have hnew : n.id ∉ g.nodes.ids := by
      intro hmem
      exact (List.nodup_append.mp h).2.2 n.id hmem n.id List.mem_cons_self rfl
    have htable := NodeTable.toList_insert hnew
    have hids : (g.nodes.insert n).ids = g.nodes.ids ++ [n.id] := by
      simp [NodeTable.ids, htable]
    obtain ⟨table, hrest, hlist⟩ :=
      ih (g := { g with nodes := g.nodes.insert n }) (by simpa [hids] using h)
    refine ⟨table, ?_, ?_⟩
    · rw [List.foldlM_cons, addNode_of_not_mem hnew]
      exact hrest
    · rw [hlist, htable, List.append_assoc, List.singleton_append]

/-- `topologicalOrder` is stable. In a valid graph it is the order in which the nodes were put in
exactly if every edge leads to a node that was put in later. So if the nodes are put in again in
topological order (`reinsert`), the graph that results is valid, and sorting it gives the same
order. -/
theorem topologicalOrder_stable {g : Graph} (hvalid : g.validate = .ok ()) :
    (g.topologicalOrder = g.nodes.toList ↔ ∀ e ∈ g.edges, Respects g.nodes.toList e) ∧
      ∃ h, g.reinsert g.topologicalOrder = .ok h ∧ h.nodes.toList = g.topologicalOrder ∧
        h.edges = g.edges ∧ h.validate = .ok () ∧ h.topologicalOrder = g.topologicalOrder := by
  have hg := validate_eq_ok_iff.mp hvalid
  have hrespects : ∀ e ∈ g.edges, Respects g.topologicalOrder e :=
    fun e he => topologicalOrder_respects hg.closed hg.acyclic he
  constructor
  · exact ⟨fun heq => heq ▸ hrespects, topologicalOrder_eq_toList⟩
  · -- no id comes twice in the order, so all its nodes can be put in again
    obtain ⟨table, hinsert, htable⟩ : ∃ table : NodeTable,
        g.reinsert g.topologicalOrder = .ok { g with nodes := table } ∧
          table.toList = g.topologicalOrder :=
      foldlM_addNode g.topologicalOrder_ids_nodup
    have hwellFormed : ({ g with nodes := table } : Graph).WellFormed :=
      hg.of_perm (htable ▸ g.topologicalOrder_perm) (List.Perm.refl _)
    refine ⟨{ g with nodes := table }, hinsert, htable, rfl, validate_eq_ok_iff.mpr hwellFormed, ?_⟩
    have hstable : ({ g with nodes := table } : Graph).topologicalOrder = table.toList :=
      topologicalOrder_eq_toList (htable ▸ hrespects)
    rw [hstable, htable]

/-- The output of `scaledLayerBackwards` was put in before the node that it reads, so sorting
changes the order, and keeps it once the nodes have been put in again. -/
theorem topologicalOrder_scaledLayerBackwards_stable :
    scaledLayerBackwards.validate = .ok () ∧
      scaledLayerBackwards.topologicalOrder ≠ scaledLayerBackwards.nodes.toList ∧
      ∃ h, scaledLayerBackwards.reinsert scaledLayerBackwards.topologicalOrder = .ok h ∧
        h.topologicalOrder = h.nodes.toList := by
  have hvalid : scaledLayerBackwards.validate = .ok () :=
    validate_eq_ok_iff.mpr
    ((validate_eq_ok_iff.mp validate_scaledLayer).of_perm (List.reverse_perm _)
      (List.reverse_perm _))
  obtain ⟨hkeeps, h, hinsert, hnodes, _, _, hsorted⟩ := topologicalOrder_stable hvalid
  refine ⟨hvalid, ?_, h, hinsert, hsorted.trans hnodes.symm⟩
  intro hkept
  obtain ⟨before, source, between, target, after, horder, _, htarget⟩ :=
    hkeeps.mp hkept (layerEdge "e_17" "r_8" "y_9" 0) (by decide)
  -- something stands before the target, but the output is the first node
  have hlater : target ∈ scaledLayerBackwards.nodes.toList.tail := by
    rw [horder]
    cases before <;> simp
  have hnone : ∀ n ∈ scaledLayerBackwards.nodes.toList.tail, n.id ≠ "y_9" := by decide
  exact hnone target hlater htarget

end Graph

end TensorGraph
