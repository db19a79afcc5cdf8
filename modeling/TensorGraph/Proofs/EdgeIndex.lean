import Mathlib.Data.List.Induction
import TensorGraph.Graph.Basic
import TensorGraph.Proofs.Lists

/-!
# Edges looked up and edges searched for

The edges at a node can be found in two ways: by going through the edge list for that node, or in an
index of the whole list, which is built once. `IsIndex` says what an index has to be to stand in for
the search. Putting one more edge into an index keeps it one (`IsIndex.add`), so grouping a list
edge by edge gives an index of it (`isIndex_groupEdges`). Nothing is asked of the edges: several may
run between the same nodes or share an id, and their ends need not be nodes of the graph.
-/

namespace TensorGraph

/-- If the list under a key grows at its end by `setEntries`, so do all lists of the dictionary
together, up to order. -/
private theorem Dict.flatMap_setEntries_perm {α : Type} (key : String) (added : List α)
    (entries : List (String × List α)) :
    ((setEntries key ((entries.lookup key).getD [] ++ added) entries).flatMap Prod.snd).Perm
      (entries.flatMap Prod.snd ++ added) := by
  induction entries with
  | nil => simp [setEntries]
  | cons entry rest ih =>
    obtain ⟨k, values⟩ := entry
    simp only [setEntries]
    by_cases hk : k = key
    · subst hk
      simp only [List.lookup_cons, beq_self_eq_true, Option.getD_some, if_true, List.flatMap_cons,
        List.append_assoc]
      -- what is added moves past the lists of the later keys
      exact List.perm_append_comm.append_left values
    · simp only [List.lookup_cons, beq_false_of_ne (Ne.symm hk), if_neg hk, List.flatMap_cons,
        List.append_assoc]
      exact ih.append_left values

namespace Graph

/-- What a dictionary of edges is that can be used instead of searching a list of edges for those
with a key: `search` is the search, and `key` says what the edges are filed under. -/
structure IsIndex (key : Edge → String) (search : String → List Edge) (edges : List Edge)
    (index : Dict (List Edge)) : Prop where
  /-- Under each id stands what the search for it finds, in the same order. -/
  lookup : ∀ id, (index.get? id).getD [] = search id
  /-- The keys are the ids that some edge is filed under. -/
  mem_keys : ∀ id, id ∈ index.keys ↔ ∃ e ∈ edges, key e = id
  /-- Of two keys the one that the edge list comes to first stands first; no key stands twice. -/
  order : index.keys.Pairwise fun a b => (edges.map key).idxOf a < (edges.map key).idxOf b
  /-- Each edge stands in the index as often as in the list. -/
  count : ∀ e, (index.entries.flatMap Prod.snd).count e = edges.count e

section
variable {key : Edge → String} {edges : List Edge} {index : Dict (List Edge)}

/-- An empty dictionary `IsIndex` of no edges. -/
private theorem isIndex_empty (key : Edge → String) :
    IsIndex key (fun id => [].filter (key · = id)) [] Dict.empty where
  lookup _ := rfl
  mem_keys _ := by simp [Dict.empty, Dict.keys]
  order := .nil
  count _ := rfl

/-- What `IsIndex` stays so when an edge is filed and comes last in the list. -/
theorem IsIndex.add (h : IsIndex key (fun id => edges.filter (key · = id)) edges index) (e : Edge) :
    IsIndex key (fun id => (edges ++ [e]).filter (key · = id)) (edges ++ [e])
      (index.set (key e) ((index.get? (key e)).getD [] ++ [e])) where
  lookup id := by
    rw [Dict.get?_set, List.filter_append]
    by_cases hid : id = key e
    · subst hid
      simp [h.lookup]
    · simp [hid, Ne.symm hid, h.lookup]
  mem_keys id := by
    have hlast : (∃ x ∈ edges ++ [e], key x = id) ↔ id ∈ index.keys ∨ id = key e := by
      simp [h.mem_keys, or_and_right, exists_or, eq_comm]
    rw [Dict.keys_set, hlast]
    split
    · rename_i hold
      refine ⟨Or.inl, ?_⟩
      rintro (hid | rfl)
      · exact hid
      · exact hold
    · simp
  order := by
    have hmem : ∀ a, a ∈ index.keys ↔ a ∈ edges.map key := fun a => by
      rw [h.mem_keys, List.mem_map]
    -- keys that were there keep their places, and a new one is the last to appear
    rw [Dict.keys_set, List.map_append]
    have hold := h.order.imp_of_mem fun ha hb hlt =>
      idxOf_lt_append ((hmem _).mp ha) ((hmem _).mp hb) hlt ([e].map key)
    split
    · exact hold
    · rename_i hnew
      rw [List.pairwise_append]
      refine ⟨hold, List.pairwise_singleton _ _, fun a ha b hb => ?_⟩
      rw [List.mem_singleton.mp hb]
      exact idxOf_lt_idxOf_new ((hmem a).mp ha) fun hk => hnew ((hmem _).mpr hk)
  count x := by
    have hperm := Dict.flatMap_setEntries_perm (key e) [e] index.entries
    calc ((Dict.set _ _ _).entries.flatMap Prod.snd).count x
        = (index.entries.flatMap Prod.snd ++ [e]).count x := hperm.count_eq x
      _ = (edges ++ [e]).count x := by rw [List.count_append, List.count_append, h.count]

end

private theorem groupEdges_concat (key : Edge → String) (edges : List Edge) (e : Edge) :
    groupEdges key (edges ++ [e]) = (groupEdges key edges).set (key e)
      (((groupEdges key edges).get? (key e)).getD [] ++ [e]) := by
  simp only [groupEdges, List.foldl_append, List.foldl_cons, List.foldl_nil]

/-- `groupEdges` gives an `IsIndex` of the edges. -/
private theorem isIndex_groupEdges (key : Edge → String) (edges : List Edge) :
    IsIndex key (fun id => edges.filter (key · = id)) edges (groupEdges key edges) := by
  -- from the end of the list: the edge that is filed last comes off first
  induction edges using List.reverseRecOn with
  | nil => exact isIndex_empty key
  | append_singleton edges e ih =>
    rw [groupEdges_concat]
    exact ih.add e

/-- `incomingIndex`, the index of the edges by the node they lead to, stands for the search for the
edges into a node, and `outgoingIndex`, the index by the node they come from, for the search for the
edges out of one. -/
theorem indexed_edges_are_searched_edges (g : Graph) :
    IsIndex (fun e => e.target.node) g.inputEdges g.edges g.incomingIndex ∧
      IsIndex (fun e => e.source.node) g.outputEdges g.edges g.outgoingIndex :=
  ⟨isIndex_groupEdges _ g.edges, isIndex_groupEdges _ g.edges⟩

end Graph

end TensorGraph
