import TensorGraph.Proofs.Depth

/-!
# What metrics measure

Metrics go through the nodes in the order of the table and find the depth in one sweep over the
topological order, so a graph with its nodes and edges in another order is measured along other
lines. None of the figures shows it. Counts and costs are sums over the nodes (`get?_countKinds`,
`Costs.addAll_perm`). The depth is the greatest number of edges of a path
(`isPath_length_le_depthOf`, `exists_isPath_depthOf`), and paths do not depend on any order.
-/

namespace TensorGraph

/-! ### Paths as lists of edges -/

namespace Graph

/-- Edges of a graph of which each leads to the node where the next one starts. -/
structure IsPath (g : Graph) (path : List Edge) : Prop where
  mem_edges : ∀ e ∈ path, e ∈ g.edges
  leads_on : path.IsChain fun e f => e.target.node = f.source.node

/-- The edges of a `PathTo` a node, in a list. -/
private theorem PathTo.exists_isPath {g : Graph} {k : Nat} {v : String} (h : g.PathTo k v) :
    ∃ path, g.IsPath path ∧ path.length = k ∧ ∀ e ∈ path.getLast?, e.target.node = v := by
  induction k generalizing v with
  | zero => exact ⟨[], ⟨List.forall_mem_nil _, List.isChain_nil⟩, rfl, by simp⟩
  | succ k ih =>
    obtain ⟨u, ⟨e, he, hsource, htarget⟩, hprev⟩ := h
    obtain ⟨path, hpath, hlength, hlast⟩ := ih hprev
    refine ⟨path ++ [e], ⟨?_, ?_⟩, by simp [hlength], by simp [htarget]⟩
    · intro f hf
      cases List.mem_append.mp hf with
      | inl hold => exact hpath.mem_edges f hold
      | inr hnew => exact List.mem_singleton.mp hnew ▸ he
    · refine List.isChain_append.mpr
        ⟨hpath.leads_on, List.isChain_singleton e, fun f hf e' he' => ?_⟩
      -- the path so far ends where e starts
      cases he'
      exact (hlast f hf).trans hsource.symm

/-- A list with `IsPath` gives a `PathTo` where its last edge leads to. -/
private theorem IsPath.pathTo {g : Graph} {path : List Edge} (h : g.IsPath path) {v : String}
    (hlast : ∀ e ∈ path.getLast?, e.target.node = v) : g.PathTo path.length v := by
  induction path using List.reverseRecOn generalizing v with
  | nil => trivial
  | append_singleton path e ih =>
    -- the last edge starts where the path before it ends
    obtain ⟨hprev, -, hjoin⟩ := List.isChain_append.mp h.leads_on
    have hpath : g.IsPath path := ⟨fun f hf => h.mem_edges f (List.mem_append_left _ hf), hprev⟩
    have he : e ∈ g.edges := h.mem_edges e (by simp)
    rw [List.length_append, List.length_singleton]
    refine ⟨e.source.node, ⟨e, he, rfl, hlast e (by simp)⟩, ih hpath fun f hf => ?_⟩
    exact hjoin f hf e rfl

end Graph

namespace Metrics

open TensorGraph.Graph

/-- Some path has `depthOf` edges. -/
private theorem exists_isPath_depthOf (g : Graph) :
    ∃ path, g.IsPath path ∧ path.length = depthOf g := by
  obtain ⟨v, hpath⟩ := exists_pathTo_depthOf g
  obtain ⟨path, hpath, hlength, -⟩ := hpath.exists_isPath
  exact ⟨path, hpath, hlength⟩

/-- No path of a well-formed graph has more than `depthOf` edges. -/
private theorem isPath_length_le_depthOf {g : Graph} (hg : g.WellFormed) {path : List Edge}
    (h : g.IsPath path) :
    path.length ≤ depthOf g := by
  cases hlast : path.getLast? with
  | none =>
    -- a path without edges
    rw [List.getLast?_eq_none_iff] at hlast
    rw [hlast]
    exact Nat.zero_le _
  | some e =>
    refine le_depthOf_of_pathTo hg (h.pathTo (v := e.target.node) fun f hf => ?_)
    rw [hlast] at hf
    cases hf
    rfl

/-! ### How many nodes there are of each kind -/

/-- `countKinds` counts a kind as often as there are nodes of it, and leaves out kinds without
nodes. -/
private theorem get?_countKinds (nodes : List Node) (kind : String) :
    (countKinds nodes).get? kind =
      if nodes.countP (fun n => n.op.label = kind) = 0 then none
      else some (nodes.countP fun n => n.op.label = kind : Int) := by
  -- a count goes on from what has been counted before
  suffices hall : ∀ counts : Dict Int,
      (nodes.foldl (fun counts n =>
        counts.set n.op.label ((counts.get? n.op.label).getD 0 + 1)) counts).get? kind =
      if nodes.countP (fun n => n.op.label = kind) = 0 then counts.get? kind
      else some ((counts.get? kind).getD 0 + nodes.countP fun n => n.op.label = kind) by
    have hempty := hall Dict.empty
    rw [Dict.get?_empty, Option.getD_none, Int.zero_add] at hempty
    exact hempty
  induction nodes with
  | nil => exact fun _ => rfl
  | cons n rest ih =>
    intro counts
    rw [List.foldl_cons, ih, Dict.get?_set, List.countP_cons]
    by_cases hkind : kind = n.op.label
    · -- one more node of the kind
      subst hkind
      simp only [if_true, decide_true, Option.getD_some, if_neg (Nat.succ_ne_zero _)]
      split
      · rename_i hnone
        rw [hnone]
        rfl
      · rw [Nat.cast_add, Nat.cast_one, Int.add_assoc, Int.add_comm 1]
    · have hother : ¬ n.op.label = kind := fun heq => hkind heq.symm
      simp only [if_neg hkind, decide_eq_true_eq, if_neg hother, Nat.add_zero]

/-! ### Costs of nodes in turn -/

/-- The cost formulas of a node give numbers. -/
structure Priced (n : Node) : Prop where
  operations : ∃ count, n.operations = .ok count
  parameters : ∃ count, n.parameters = .ok count
  bytes : ∀ t, n.outputType = some t → ∃ count, t.byteCount = .ok count

/-- Costs put together. -/
def Costs.plus (c d : Costs) : Costs :=
  ⟨c.operations + d.operations, c.parameters + d.parameters, c.memoryBytes + d.memoryBytes⟩

private theorem Costs.plus_right_comm (c d e : Costs) : (c.plus d).plus e = (c.plus e).plus d := by
  simp only [plus, Int.add_right_comm]

/-- What `Costs.add` adds for a node does not depend on what it is added to. -/
private theorem Costs.add_eq_map (c : Costs) (n : Node) :
    c.add n = (Costs.add {} n).map c.plus := by
  unfold add
  -- the three costs are looked up in turn, and each may fail
  cases n.operations with
  | error _ => rfl
  | ok operations =>
    cases n.parameters with
    | error _ => rfl
    | ok parameters =>
      cases n.outputType with
      | none => simp [bind, Except.bind, pure, Except.pure, Except.map, plus]
      | some t =>
        cases hbytes : t.byteCount with
        | error _ => simp [bind, Except.bind, Except.map, hbytes]
        | ok bytes => simp [bind, Except.bind, pure, Except.pure, Except.map, plus, hbytes]

/-- `Costs.add` succeeds for a node that is `Priced`. -/
private theorem Priced.exists_add {n : Node} (h : Priced n) (c : Costs) : ∃ d, c.add n = .ok d := by
  obtain ⟨operations, hoperations⟩ := h.operations
  obtain ⟨parameters, hparameters⟩ := h.parameters
  unfold Costs.add
  rw [hoperations, hparameters]
  cases htype : n.outputType with
  | none =>
    -- without a type there are no bytes to count
    exact ⟨_, rfl⟩
  | some t =>
    obtain ⟨bytes, hbytes⟩ := h.bytes t htype
    simp only [hbytes]
    exact ⟨_, rfl⟩

/-- `Costs.addAll` succeeds for nodes that are `Priced`. -/
private theorem exists_addAll {nodes : List Node} (h : ∀ n ∈ nodes, Priced n) (c : Costs) :
    ∃ d, c.addAll nodes = .ok d := by
  induction nodes generalizing c with
  | nil => exact ⟨c, rfl⟩
  | cons n rest ih =>
    rw [List.forall_mem_cons] at h
    -- each node is added to the costs so far
    obtain ⟨next, hnext⟩ := h.1.exists_add c
    obtain ⟨d, hd⟩ := ih h.2 next
    refine ⟨d, ?_⟩
    rw [Costs.addAll, hnext]
    exact hd

/-- `Costs.add` takes two nodes in either order. -/
private theorem Costs.add_add_comm {c next last : Costs} {n m : Node} (hn : c.add n = .ok next)
    (hm : next.add m = .ok last) : ∃ other, c.add m = .ok other ∧ other.add n = .ok last := by
  rw [add_eq_map] at hn hm
  -- the costs of either node do not depend on the other
  obtain ⟨own, hown, rfl⟩ := exists_of_map_eq_ok hn
  obtain ⟨own', hown', rfl⟩ := exists_of_map_eq_ok hm
  refine ⟨c.plus own', ?_, ?_⟩
  · rw [add_eq_map, hown']
    rfl
  · rw [add_eq_map, hown, plus_right_comm]
    rfl

/-- `Costs.addAll` gives the same for nodes in any order. -/
private theorem Costs.addAll_perm {nodes others : List Node} (h : nodes.Perm others)
    {c last : Costs} (hok : c.addAll nodes = .ok last) : c.addAll others = .ok last := by
  induction h generalizing c with
  | nil => exact hok
  | cons n _ ih =>
    obtain ⟨next, hnext, hrest⟩ := exists_of_bind_eq_ok hok
    rw [addAll, hnext]
    exact ih hrest
  | swap n m rest =>
    -- two nodes are swapped at the front, and the rest follows
    obtain ⟨next, hnext, hrest⟩ := exists_of_bind_eq_ok hok
    obtain ⟨after, hafter, hrest⟩ := exists_of_bind_eq_ok hrest
    obtain ⟨other, hother, hsame⟩ := add_add_comm hnext hafter
    rw [addAll, hother]
    show other.addAll (m :: rest) = .ok last
    rw [addAll, hsame]
    exact hrest
  | trans _ _ ih₁ ih₂ => exact ih₂ (ih₁ hok)

end Metrics

/-! ### The same nodes and edges in another order -/

namespace Graph

theorem IsPath.of_perm {g h : Graph} (hedges : h.edges.Perm g.edges) {path : List Edge}
    (hpath : h.IsPath path) : g.IsPath path :=
  ⟨fun e he => hedges.mem_iff.mp (hpath.mem_edges e he), hpath.leads_on⟩

end Graph

namespace Metrics

open TensorGraph.Graph

/-- `depthOf` a well-formed graph does not depend on the order of its nodes and edges. -/
private theorem depthOf_eq_of_perm {g h : Graph} (hg : g.WellFormed)
    (hnodes : h.nodes.toList.Perm g.nodes.toList) (hedges : h.edges.Perm g.edges) :
    depthOf h = depthOf g := by
  obtain ⟨path, hpath, hlength⟩ := exists_isPath_depthOf h
  obtain ⟨path', hpath', hlength'⟩ := exists_isPath_depthOf g
  -- a deepest path of either graph is a path of the other
  have hle := isPath_length_le_depthOf hg (hpath.of_perm hedges)
  have hge := isPath_length_le_depthOf (hg.of_perm hnodes hedges) (hpath'.of_perm hedges.symm)
  omega

/-- A valid graph on which the cost formulas give numbers is measured by `compute`, and so is the
graph with its nodes and edges in any other order. The depth is the greatest number of edges of a
path, which is 0 if there are no edges. All figures are the same in both orders, and so is the count
of every kind. -/
theorem compute_in_any_order {g h : Graph} (hvalid : g.validate = .ok ())
    (hcosts : ∀ n ∈ g.nodes.toList, Priced n) (hnodes : h.nodes.toList.Perm g.nodes.toList)
    (hedges : h.edges.Perm g.edges) :
    ∃ m other, compute g = .ok m ∧ compute h = .ok other ∧
      (∃ path, g.IsPath path ∧ m.depth = path.length) ∧
      (∀ path, g.IsPath path → path.length ≤ m.depth) ∧
      (g.edges = [] → m.depth = 0) ∧
      (∀ kind, other.opCounts.get? kind = m.opCounts.get? kind) ∧
      other = { m with opCounts := other.opCounts } := by
  have hg := validate_eq_ok_iff.mp hvalid
  obtain ⟨costs, hok⟩ := exists_addAll hcosts {}
  have hother := Costs.addAll_perm hnodes.symm hok
  obtain ⟨path, hpath, hlength⟩ := exists_isPath_depthOf g
  refine ⟨_, _, by rw [compute, hok]; rfl, by rw [compute, hother]; rfl, ⟨path, hpath, ?_⟩, ?_, ?_,
    ?_, ?_⟩
  · exact congrArg Int.ofNat hlength.symm
  · exact fun path hpath => Int.ofNat_le.mpr (isPath_length_le_depthOf hg hpath)
  · -- a path without edges has length 0
    intro hnone
    have hnil : path = [] := by
      refine List.eq_nil_iff_forall_not_mem.mpr fun e he => ?_
      have hmem := hpath.mem_edges e he
      rw [hnone] at hmem
      cases hmem
    rw [hnil] at hlength
    exact congrArg Int.ofNat hlength.symm
  · intro kind
    show (countKinds h.nodes.toList).get? kind = (countKinds g.nodes.toList).get? kind
    rw [get?_countKinds, get?_countKinds, hnodes.countP_eq]
  · have hsize : h.nodes.size = g.nodes.size := hnodes.length_eq
    rw [hsize, hedges.length_eq, depthOf_eq_of_perm hg hnodes hedges]

/-- A `layerNode` of any kind is `Priced`. -/
private theorem priced_layerNode (id : String) (op : OpKind) (arity : Nat) :
    Priced (layerNode id op arity) := by
  refine ⟨?_, ?_, ?_⟩
  · cases op <;> exact ⟨_, rfl⟩
  · cases op <;> exact ⟨_, rfl⟩
  · rintro t ⟨⟩
    exact ⟨_, rfl⟩

private theorem priced_scaledLayer : ∀ n ∈ scaledLayer.nodes.toList, Priced n := by
  simp [scaledLayer, priced_layerNode]

/-- Five edges lead from the weights to the output, in either order. -/
theorem compute_scaledLayer_in_any_order :
    ∃ m other, compute scaledLayer = .ok m ∧ compute scaledLayerBackwards = .ok other ∧
      5 ≤ other.depth ∧ ∀ kind, other.opCounts.get? kind = m.opCounts.get? kind := by
  obtain ⟨m, other, hm, hother, -, hle, -, hcounts, hsame⟩ :=
    compute_in_any_order (h := scaledLayerBackwards) validate_scaledLayer priced_scaledLayer
      (List.reverse_perm _) (List.reverse_perm _)
  refine ⟨m, other, hm, hother, ?_, hcounts⟩
  -- the longest path, by way of the weights
  have hpath : scaledLayer.IsPath
      [layerEdge "e_10" "w_3" "k_5" 0, layerEdge "e_13" "k_5" "m_6" 1,
        layerEdge "e_14" "m_6" "a_7" 0, layerEdge "e_16" "a_7" "r_8" 0,
        layerEdge "e_17" "r_8" "y_9" 0] :=
    ⟨by decide, by decide⟩
  rw [hsame]
  exact hle _ hpath

end Metrics

end TensorGraph
