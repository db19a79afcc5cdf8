import TensorGraph.Metrics
import TensorGraph.Proofs.BufferNeeds
import TensorGraph.Proofs.FusionTyping
import TensorGraph.Proofs.Survivors

/-!
# Depth, and passes that never make it greater

The depth that metrics report is the length of a longest path: some path is as long
(`exists_pathTo_depthOf`), and in a well-formed graph none is longer (`le_depthOf_of_pathTo`).

A pass never adds nodes or edges, and what it makes of a graph can be laid over the graph in such a
way that every edge comes to lie on a path (`Shrinks`). A constant is laid over the node that was
folded, the node that came in for a chain over the last node of the chain. Hence no path of the
result is longer than the longest path before (`Shrinks.depthOf_le`).
-/

namespace TensorGraph

/-! ### Paths -/

namespace Graph

/-- A path of so many edges ends at an id. -/
def PathTo (g : Graph) : Nat → String → Prop
  | 0, _ => True
  | k + 1, v => ∃ u, g.Feeds u v ∧ g.PathTo k u

/-- A path with `PathTo` one id that is continued gets longer. -/
theorem PathTo.extend {g : Graph} {k : Nat} {u v : String} (h : g.PathTo k u)
    (hreach : Relation.TransGen g.Feeds u v) : ∃ m, k < m ∧ g.PathTo m v := by
  induction hreach with
  | single hfeeds => exact ⟨k + 1, by omega, _, hfeeds, h⟩
  | tail _ hfeeds ih =>
    obtain ⟨m, hlt, hpath⟩ := ih
    exact ⟨m + 1, by omega, _, hfeeds, hpath⟩

/-- Where every edge comes to lie on a path, `PathTo` an id comes to lie on one that is no
shorter. -/
theorem PathTo.of_map {g h : Graph} (f : String → String)
    (hfeeds : ∀ u v, h.Feeds u v → Relation.TransGen g.Feeds (f u) (f v)) {k : Nat} {v : String}
    (hpath : h.PathTo k v) : ∃ m, k ≤ m ∧ g.PathTo m (f v) := by
  induction k generalizing v with
  | zero => exact ⟨0, by omega, trivial⟩
  | succ k ih =>
    obtain ⟨u, hfeed, hprev⟩ := hpath
    obtain ⟨m, hle, hm⟩ := ih hprev
    obtain ⟨m', hlt, hm'⟩ := hm.extend (hfeeds u v hfeed)
    exact ⟨m', by omega, hm'⟩

end Graph

/-! ### Depth as the length of a longest path -/

/-- What `get?` finds in a dictionary is one of its entries. -/
private theorem Dict.mem_entries_of_get? {β : Type} {d : Dict β} {key : String} {value : β}
    (h : d.get? key = some value) : (key, value) ∈ d.entries := by
  obtain ⟨before, after, heq, _⟩ := List.lookup_eq_some_iff.mp h
  rw [heq]
  simp

/-- `set` leaves old entries and the new one. -/
private theorem Dict.mem_entries_set {β : Type} {d : Dict β} {key : String} {value : β}
    {entry : String × β} (h : entry ∈ (d.set key value).entries) :
    entry = (key, value) ∨ entry ∈ d.entries := by
  obtain ⟨entries⟩ := d
  simp only [set] at h ⊢
  induction entries with
  | nil => exact Or.inl (List.mem_singleton.mp h)
  | cons first rest ih =>
    obtain ⟨k, v⟩ := first
    simp only [setEntries] at h
    split at h
    · rename_i hkey
      -- the entry is overwritten, and the rest stays
      subst hkey
      cases List.mem_cons.mp h with
      | inl heq => exact Or.inl heq
      | inr hrest => exact Or.inr (List.mem_cons_of_mem _ hrest)
    · cases List.mem_cons.mp h with
      | inl heq => exact Or.inr (heq ▸ List.mem_cons_self)
      | inr hrest => exact (ih hrest).imp_right (List.mem_cons_of_mem _)

/-- A maximum found by `foldl` is where the search for it started or one of the numbers that it
looked at. -/
private theorem foldl_max_eq_or_mem {α : Type} (measure : α → Nat) (xs : List α) (start : Nat) :
    xs.foldl (fun best x => max best (measure x)) start = start ∨
      ∃ x ∈ xs, xs.foldl (fun best x => max best (measure x)) start = measure x := by
  induction xs generalizing start with
  | nil => exact Or.inl rfl
  | cons x rest ih =>
    rw [List.foldl_cons]
    cases ih (max start (measure x)) with
    | inr hrest =>
      -- the greatest value is that of a later member
      obtain ⟨y, hy, heq⟩ := hrest
      exact Or.inr ⟨y, List.mem_cons_of_mem _ hy, heq⟩
    | inl heq =>
      -- no later member is greater, so it is the start or the first member
      rw [heq]
      by_cases hle : measure x ≤ start
      · exact Or.inl (Nat.max_eq_left hle)
      · exact Or.inr ⟨x, List.mem_cons_self, Nat.max_eq_right (by omega)⟩

/-- A maximum found by `foldl` is no less than any of the numbers that it looked at. -/
private theorem le_foldl_max_of_mem {α : Type} (measure : α → Nat) {xs : List α} {x : α}
    (hx : x ∈ xs) (start : Nat) :
    measure x ≤ xs.foldl (fun best x => max best (measure x)) start := by
  apply le_foldl_of_mem _ hx
  · exact fun _ => Nat.le_max_right _ _
  · exact fun _ _ => Nat.le_max_left _ _

namespace Metrics

open TensorGraph.Graph

/-- `nodeDepth` is the length of some path to the node, if that is so of the depths found before. -/
private theorem pathTo_nodeDepth {g : Graph} {found : Dict Nat}
    (hfound : ∀ entry ∈ found.entries, g.PathTo entry.2 entry.1) (n : Node) :
    g.PathTo (nodeDepth g found n) n.id := by
  obtain heq | ⟨e, he, heq⟩ := foldl_max_eq_or_mem
    (fun e : Edge => (found.get? e.source.node).getD 0 + 1) (g.inputEdges n.id) 0
  · -- no edge leads here, or none was worth more than zero
    unfold nodeDepth
    rw [heq]
    trivial
  · unfold nodeDepth
    rw [heq]
    obtain ⟨hmem, htarget⟩ := mem_inputEdges.mp he
    refine ⟨e.source.node, ⟨e, hmem, rfl, htarget⟩, ?_⟩
    cases hget : found.get? e.source.node with
    | none => trivial
    | some d => exact hfound _ (Dict.mem_entries_of_get? hget)

/-- Every depth in `depths` is the length of a path, whether the graph is well formed or not. -/
private theorem pathTo_depths (g : Graph) :
    ∀ entry ∈ (depths g).entries, g.PathTo entry.2 entry.1 := by
  -- one more node at a time
  suffices hall : ∀ (nodes : List Node) (found : Dict Nat),
      (∀ entry ∈ found.entries, g.PathTo entry.2 entry.1) →
      ∀ entry ∈ (nodes.foldl (fun found n => found.set n.id (nodeDepth g found n)) found).entries,
        g.PathTo entry.2 entry.1 from
    hall g.topologicalOrder Dict.empty fun _ hentry => nomatch hentry
  intro nodes
  induction nodes with
  | nil => exact fun _ hfound => hfound
  | cons n rest ih =>
    intro found hfound
    refine ih _ fun entry hentry => ?_
    cases Dict.mem_entries_set hentry with
    | inl heq =>
      rw [heq]
      exact pathTo_nodeDepth hfound n
    | inr hold => exact hfound entry hold

/-- Some path is as long as `depthOf` says. -/
theorem exists_pathTo_depthOf (g : Graph) : ∃ v, g.PathTo (depthOf g) v := by
  have hmax := foldl_max_eq_or_mem (fun d : Nat => d) ((depths g).entries.map Prod.snd) 0
  unfold depthOf
  obtain heq | ⟨d, hd, heq⟩ := hmax
  · -- nothing is deeper than zero, and to any node there is a path without edges
    rw [heq]
    exact ⟨"", trivial⟩
  · rw [heq]
    obtain ⟨entry, hentry, rfl⟩ := List.mem_map.mp hd
    exact ⟨entry.1, pathTo_depths g entry hentry⟩

/-- The depth of a node under the depths of the nodes that it reads, as a rule. -/
def depthRule (g : Graph) (values : String → Nat) (n : Node) : Nat :=
  (g.inputEdges n.id).foldl (fun depth e => max depth (values e.source.node + 1)) 0

private theorem depthRule_local (g : Graph) : g.Local (depthRule g) := by
  intro n values others hsame
  refine List.foldl_ext _ _ _ fun depth e he => ?_
  rw [hsame e he]

/-- The depth that is found for an id, 0 if none is. -/
def depthAt (g : Graph) (id : String) : Nat := ((depths g).get? id).getD 0

/-- `depthAt` is found by a `sweep` over the topological order. -/
private theorem depthAt_eq_sweep (g : Graph) :
    depthAt g = sweep (depthRule g) (fun _ => 0) g.topologicalOrder := by
  suffices hall : ∀ (nodes : List Node) (found : Dict Nat),
      (fun id => ((nodes.foldl (fun found n => found.set n.id (nodeDepth g found n))
          found).get? id).getD 0) =
        sweep (depthRule g) (fun id => (found.get? id).getD 0) nodes from
    hall g.topologicalOrder Dict.empty
  intro nodes
  induction nodes with
  | nil => exact fun _ => rfl
  | cons n rest ih =>
    intro found
    -- after one node the depths are those before it, with one more filled in
    have hset : (fun id => ((found.set n.id (nodeDepth g found n)).get? id).getD 0) = fun id =>
        if id = n.id then depthRule g (fun id => (found.get? id).getD 0) n
        else (found.get? id).getD 0 := by
      funext id
      rw [Dict.get?_set]
      split <;> rfl
    rw [List.foldl_cons, sweep, ← hset]
    exact ih _

/-- `depthAt` an id is never greater than `depthOf` the graph. -/
private theorem depthAt_le_depthOf (g : Graph) (id : String) : depthAt g id ≤ depthOf g := by
  unfold depthAt
  cases hget : (depths g).get? id with
  | none => exact Nat.zero_le _
  | some d =>
    have hmem : d ∈ (depths g).entries.map Prod.snd :=
      List.mem_map_of_mem (f := Prod.snd) (Dict.mem_entries_of_get? hget)
    exact le_foldl_max_of_mem (fun d => d) hmem 0

/-- In a `WellFormed` graph no path is longer than `depthAt` the node at its end. -/
private theorem le_depthAt_of_pathTo {g : Graph} (hg : g.WellFormed) {k : Nat} {v : String}
    (hpath : g.PathTo k v) : k ≤ depthAt g v := by
  induction k generalizing v with
  | zero => exact Nat.zero_le _
  | succ k ih =>
    obtain ⟨u, ⟨e, he, rfl, rfl⟩, hprev⟩ := hpath
    -- the node at the end reads the last edge of the path, so it is deeper than the source of that
    -- edge
    obtain ⟨n, hn, hid⟩ := List.mem_map.mp (hg.closed e he).2
    have hsolves := sweep_solves hg (depthRule_local g) (fun _ => 0) n hn
    rw [← depthAt_eq_sweep] at hsolves
    have hin : e ∈ g.inputEdges n.id := mem_inputEdges.mpr ⟨he, hid.symm⟩
    have hstep : depthAt g e.source.node + 1 ≤ depthRule g (depthAt g) n :=
      le_foldl_max_of_mem (fun e : Edge => depthAt g e.source.node + 1) hin 0
    have hdeep := ih hprev
    rw [← hid, hsolves]
    omega

theorem le_depthOf_of_pathTo {g : Graph} (hg : g.WellFormed) {k : Nat} {v : String}
    (hpath : g.PathTo k v) : k ≤ depthOf g :=
  Nat.le_trans (le_depthAt_of_pathTo hg hpath) (depthAt_le_depthOf g v)

end Metrics

/-! ### Graphs that get no bigger -/

namespace Graph

/-- The second graph has no more nodes and edges than the first, and can be laid over it so that
every edge comes to lie on a path. -/
structure Shrinks (g h : Graph) : Prop where
  nodes_le : h.nodes.toList.length ≤ g.nodes.toList.length
  edges_le : h.edges.length ≤ g.edges.length
  laid : ∃ f : String → String, ∀ u v, h.Feeds u v → Relation.TransGen g.Feeds (f u) (f v)

/-- `Shrinks` is transitive: one laying is put on top of the other. -/
theorem Shrinks.trans {g k h : Graph} (hgk : g.Shrinks k) (hkh : k.Shrinks h) : g.Shrinks h where
  nodes_le := Nat.le_trans hkh.nodes_le hgk.nodes_le
  edges_le := Nat.le_trans hkh.edges_le hgk.edges_le
  laid := by
    obtain ⟨f, hf⟩ := hgk.laid
    obtain ⟨f', hf'⟩ := hkh.laid
    exact ⟨fun id => f (f' id), fun u v hfeeds => Relation.TransGen.lift' f hf _ _ (hf' u v hfeeds)⟩

/-- A graph `Shrinks` when nodes and edges go. -/
private theorem Shrinks.of_sublist {g h : Graph} (hnodes : h.nodes.toList.Sublist g.nodes.toList)
    (hedges : h.edges.Sublist g.edges) : g.Shrinks h where
  nodes_le := hnodes.length_le
  edges_le := hedges.length_le
  laid := by
    refine ⟨fun id => id, fun u v hfeeds => ?_⟩
    obtain ⟨e, he, hsource, htarget⟩ := hfeeds
    exact .single ⟨e, hedges.subset he, hsource, htarget⟩

/-- A graph `Shrinks` whose nodes and edges are changed in place, if the edges keep their ends. -/
theorem Shrinks.of_map {g h : Graph} {f : Node → Node} {move : Edge → Edge}
    (hnodes : h.nodes.toList = g.nodes.toList.map f) (hedges : h.edges = g.edges.map move)
    (hmove : ∀ e, (move e).source = e.source ∧ (move e).target = e.target) : g.Shrinks h where
  nodes_le := by rw [hnodes, List.length_map]
  edges_le := by rw [hedges, List.length_map]
  laid := by
    refine ⟨fun id => id, fun u v hfeeds => ?_⟩
    obtain ⟨e, he, rfl, rfl⟩ := hfeeds
    rw [hedges, List.mem_map] at he
    obtain ⟨e₀, he₀, rfl⟩ := he
    rw [(hmove e₀).1, (hmove e₀).2]
    exact .single ⟨e₀, he₀, rfl, rfl⟩

/-- `depthOf` a graph that has shrunk is no greater. -/
private theorem Shrinks.depthOf_le {g h : Graph} (hg : g.WellFormed) (hshrinks : g.Shrinks h) :
    Metrics.depthOf h ≤ Metrics.depthOf g := by
  obtain ⟨f, hf⟩ := hshrinks.laid
  obtain ⟨v, hpath⟩ := Metrics.exists_pathTo_depthOf h
  obtain ⟨m, hle, hpath'⟩ := hpath.of_map f hf
  exact Nat.le_trans hle (Metrics.le_depthOf_of_pathTo hg hpath')

/-- A `filter` that drops some node of a list makes room for another one. -/
private theorem length_filter_append_le {nodes : List Node} {keep : Node → Bool} {n : Node}
    (hn : n ∈ nodes) (hgone : keep n = false) (new : Node) :
    (nodes.filter keep ++ [new]).length ≤ nodes.length := by
  have hlt : (nodes.filter keep).length < nodes.length :=
    List.length_filter_lt_length_iff_exists.mpr ⟨n, hn, by simp [hgone]⟩
  simp only [List.length_append, List.length_singleton]
  omega

/-- `foldNode` makes a graph no bigger. -/
private theorem foldNode_shrinks {g : Graph} {n : Node} {ids : IdSource} (hg : g.WellFormed)
    (hfresh : ids.FreshFor g.nodes) (hn : n ∈ g.nodes.toList) : g.Shrinks (g.foldNode n ids).1 := by
  have hnew := hfresh.next_not_mem "const"
  have hreplaced : g.Shrinks (g.replaceByConstant n (ids.next "const").1) := by
    refine ⟨?_, ?_, fun id => if id = (ids.next "const").1 then n.id else id, fun u v hfeeds => ?_⟩
    · rw [toList_replaceByConstant n hnew]
      exact length_filter_append_le hn (by simp) _
    · have hsub := (edgeIds_replaceByConstant g n (ids.next "const").1).length_le
      simpa using hsub
    · -- the constant is laid over the node that it came in for
      exact .single (feeds_of_replaceByConstant hg.closed hnew hfeeds)
  exact hreplaced.trans (.of_sublist List.filter_sublist List.filter_sublist)

/-- A fusion with `Fuses` makes a graph no bigger. -/
private theorem Fuses.shrinks {g h : Graph} {pattern : FusionPattern} {chain : List Node}
    {first last new : Node} (hg : g.WellFormed) (hf : g.Fuses pattern chain first last new h) :
    g.Shrinks h := by
  refine ⟨?_, ?_, fun id => if id = new.id then last.id else id, fun u v hfeeds => ?_⟩
  · rw [hf.nodes_eq]
    refine length_filter_append_le (hf.unbranched.mem_nodes first hf.first_mem) ?_ new
    simpa using ⟨first, hf.first_mem, rfl⟩
  · have hsub := hf.edgeIds.length_le
    simpa using hsub
  · -- the new node is laid over the last node of the chain
    exact transGen_of_contract hg.closed hf.unbranched hf.head_eq hf.last_eq hf.new_id
      hf.contract_eq hfeeds

end Graph

/-- `Pass.apply` makes a graph that it returns no bigger. -/
private theorem Pass.apply_shrinks {p : Pass} {g h : Graph} {ids : IdSource} (hg : g.WellFormed)
    (hfresh : ids.FreshFor g.nodes) (hok : (p.apply g ids).1 = .ok h) : g.Shrinks h := by
  have hrefl : g.Shrinks g := .of_sublist (List.Sublist.refl _) (List.Sublist.refl _)
  cases p with
  | inferTypes =>
    -- types do not change ends of edges
    obtain ⟨types, _, rfl⟩ := (Graph.inferTypes_eq_ok_iff hg).mp hok
    exact .of_map rfl rfl fun _ => ⟨rfl, rfl⟩
  | foldConstants =>
    cases hok
    -- every fold shrinks the graph, and so do all of them
    refine Graph.foldConstants_keeps (P := fun k _ => g.Shrinks k) ?_ hg hfresh hrefl
    intro k ids n hwf hfresh hn hshrinks
    exact hshrinks.trans (Graph.foldNode_shrinks hwf hfresh hn)
  | dropDead =>
    cases hok
    exact .of_sublist List.filter_sublist List.filter_sublist
  | fuse patterns =>
    -- every fusion shrinks the graph, and so do all of them
    refine Graph.fuse_keeps (P := fun k _ => g.Shrinks k) ?_ hg hfresh hrefl hok
    intro k ids pattern chain first last new next hwf _ _ hf hshrinks
    exact hshrinks.trans (hf.shrinks hwf)
  | planMemory alignment reuse =>
    -- the plan is noted at the nodes only
    obtain ⟨plan, _, rfl⟩ := exists_of_map_eq_ok hok
    exact .of_map rfl (List.map_id' _).symm fun _ => ⟨rfl, rfl⟩

/-- `Pass.apply` on a valid graph never makes it bigger or deeper: where `Metrics.compute` can
measure both, the result has no more nodes, no more edges and no greater depth. -/
theorem Pass.apply_never_grows {p : Pass} {g h : Graph} {ids : IdSource} {before after : Metrics}
    (hvalid : g.validate = .ok ()) (hfresh : ids.FreshFor g.nodes) (hok : (p.apply g ids).1 = .ok h)
    (hbefore : Metrics.compute g = .ok before) (hafter : Metrics.compute h = .ok after) :
    after.nodeCount ≤ before.nodeCount ∧ after.edgeCount ≤ before.edgeCount ∧
      after.depth ≤ before.depth := by
  have hg := Graph.validate_eq_ok_iff.mp hvalid
  have hshrinks := Pass.apply_shrinks hg hfresh hok
  have hdepth := hshrinks.depthOf_le hg
  -- the counts are read off the graphs, whatever the costs are
  obtain ⟨_, _, hcosts⟩ := exists_of_bind_eq_ok hbefore
  obtain ⟨_, _, hcosts'⟩ := exists_of_bind_eq_ok hafter
  cases hcosts
  cases hcosts'
  have hnodes := hshrinks.nodes_le
  have hedges := hshrinks.edges_le
  simp only [NodeTable.size]
  omega

/-- A layer in which a matrix product and a sum are fused. -/
theorem Pass.fuse_denseLayer_never_grows :
    (Graph.denseLayer true).validate = .ok () ∧
      IdSource.FreshFor ⟨12⟩ (Graph.denseLayer true).nodes ∧
      (Pass.apply (.fuse FusionPattern.defaults) (Graph.denseLayer true) ⟨12⟩).1 =
        .ok Graph.fusedDenseLayer ∧
      ∃ before after, Metrics.compute (Graph.denseLayer true) = .ok before ∧
        Metrics.compute Graph.fusedDenseLayer = .ok after ∧ after.nodeCount ≤ before.nodeCount ∧
        after.edgeCount ≤ before.edgeCount ∧ after.depth ≤ before.depth := by
  have hvalid := (Graph.conforming_denseLayer true).valid
  have hfresh := Graph.freshFor_denseLayer true
  have hok : (Pass.apply (.fuse FusionPattern.defaults) (Graph.denseLayer true) ⟨12⟩).1 =
      .ok Graph.fusedDenseLayer := congrArg Prod.fst Graph.fuse_denseLayer
  refine ⟨hvalid, hfresh, hok, _, _, rfl, rfl, ?_⟩
  exact Pass.apply_never_grows hvalid hfresh hok rfl rfl

end TensorGraph
