import TensorGraph.Proofs.Validity

/-!
# The verdict of validation

Validation accepts a graph exactly if its edges are sound (their ids are distinct, and each runs
from an output port of a node to an input port of a node) and there is no cycle. Whether an index
names a port is a matter of its value as a number, whatever kind of number it is
(`isPort_iff_within`).

If the edges are sound and there is a cycle, one is reported. The walk behind the report is a simple
cycle in the direction of the edges: it ends where it starts and passes through no other node twice
(`findCycle_simpleCycle`).
-/

namespace TensorGraph

namespace Graph

/-! ### What is accepted -/

/-- Edge ids are distinct, and every edge runs from an output port of a node to an input port of a
node. -/
structure EdgesSound (g : Graph) : Prop where
  ids_nodup : (g.edges.map Edge.id).Nodup
  source : ∀ e ∈ g.edges,
    ∃ n, g.nodes.find? e.source.node = some n ∧ e.source.index.Within n.outputs.length
  target : ∀ e ∈ g.edges,
    ∃ n, g.nodes.find? e.target.node = some n ∧ e.target.index.Within n.inputs.length

/-- If edges are `EdgesSound`, none dangles. -/
theorem EdgesSound.closed {g : Graph} (h : g.EdgesSound) : g.Closed := by
  intro e he
  obtain ⟨n, hn, _⟩ := h.source e he
  obtain ⟨m, hm, _⟩ := h.target e he
  exact ⟨NodeTable.mem_ids_of_find? hn, NodeTable.mem_ids_of_find? hm⟩

/-- Edges are `EdgesSound` exactly if `edgeFaults` finds no fault. -/
private theorem edgesSound_iff {g : Graph} : g.EdgesSound ↔ g.edgeFaults [] g.edges = .ok [] := by
  rw [edgeFaults_eq_ok_nil_iff]
  simp only [sourceFault_eq_ok_nil_iff, targetFault_eq_ok_nil_iff, isPort_iff_within]
  constructor
  · -- no id has been seen before the first edge
    intro h
    exact ⟨h.ids_nodup, by simp, fun e he => ⟨h.source e he, h.target e he⟩⟩
  · intro h
    obtain ⟨hnodup, _, hends⟩ := h
    exact ⟨hnodup, fun e he => (hends e he).1, fun e he => (hends e he).2⟩

/-! ### What is reported -/

/-- A simple cycle: a list of ids that ends where it starts and repeats no other id, in which each
id feeds the next. -/
def SimpleCycle (g : Graph) (ids : List String) : Prop :=
  ∃ first rest, ids = first :: (rest ++ [first]) ∧ (first :: rest).Nodup ∧ ids.IsChain g.Feeds

/-- The cycle that `findCycle` finds is a `SimpleCycle`. -/
private theorem findCycle_simpleCycle {g : Graph} {cycle : List String}
    (h : g.findCycle = some cycle) :
    g.SimpleCycle cycle := by
  obtain ⟨top, below, reached, hcloses, hcycle⟩ := cycleFrom_eq_some h
  obtain ⟨first, rest, hwalk, hchain⟩ := hcloses.closedWalk
  have hnodup := hcloses.nodup_dropLast
  rw [← hcycle] at hwalk hchain hnodup
  refine ⟨first, rest, hwalk, ?_, hchain⟩
  rw [hwalk, ← List.cons_append, List.dropLast_concat] at hnodup
  exact hnodup

/-- All members of a list with `List.IsChain` but the first have one before them. -/
private theorem exists_rel_of_isChain {r : String → String → Prop} {first id : String}
    {rest : List String} (h : (first :: rest).IsChain r) (hid : id ∈ rest) :
    ∃ before, r before id := by
  induction rest generalizing first with
  | nil => cases hid
  | cons next rest ih =>
    rw [List.isChain_cons_cons] at h
    cases List.mem_cons.mp hid with
    | inl heq => exact ⟨first, heq ▸ h.1⟩
    | inr hmem => exact ih h.2 hmem

/-- In a graph without dangling edges a `SimpleCycle` passes through nodes only. -/
private theorem SimpleCycle.mem_ids {g : Graph} (hclosed : g.Closed) {cycle : List String}
    (h : g.SimpleCycle cycle) {id : String} (hid : id ∈ cycle) : id ∈ g.nodes.ids := by
  obtain ⟨first, rest, rfl, _, hchain⟩ := h
  -- the first id comes again at the end, so something feeds every id
  have hlater : id ∈ rest ++ [first] := by simpa [or_comm] using hid
  obtain ⟨_, e, he, _, rfl⟩ := exists_rel_of_isChain hchain hlater
  exact (hclosed e he).2

/-- `reportCycle` gives the names of the nodes on the cycle, if these are texts. -/
private theorem reportCycle_eq {g : Graph} {cycle names : List String}
    (h : cycle.map g.nameOf = names.map .str) : g.reportCycle cycle = .cyclic g.name names := by
  -- the names of the nodes on the cycle are texts
  have hnames : (cycle.mapM fun id => (g.nameOf id).text) = .ok names := by
    induction cycle generalizing names with
    | nil =>
      rw [List.map_nil, eq_comm, List.map_eq_nil_iff] at h
      rw [h]
      rfl
    | cons id rest ih =>
      obtain ⟨name, others, rfl, hname, hothers⟩ := List.map_eq_cons_iff.mp h.symm
      rw [List.mapM_cons, ← hname, ih hothers.symm]
      rfl
  rw [reportCycle, hnames]

/-- `validate` accepts exactly the graphs with sound edges and without a cycle. If the edges are
sound and there is a cycle, then `findCycle` finds one. This very list is a `SimpleCycle` through
nodes of the graph, and it is what is reported, by the names of the nodes where these are texts. -/
theorem validate_verdict (g : Graph) :
    (g.validate = .ok () ↔ g.EdgesSound ∧ g.Acyclic) ∧
      (g.EdgesSound → ¬ g.Acyclic → ∃ cycle, g.findCycle = some cycle ∧ g.SimpleCycle cycle ∧
        (∀ id ∈ cycle, id ∈ g.nodes.ids) ∧
        g.validate = .error (g.reportCycle cycle) ∧
        ∀ names : List String, cycle.map g.nameOf = names.map .str →
          g.validate = .error (.cyclic g.name names)) := by
  constructor
  · rw [validate_eq_ok_iff_search, ← edgesSound_iff]
    exact and_congr_right fun hsound => findCycle_eq_none_iff hsound.closed
  · intro hsound hcyclic
    -- the search finds a cycle, since there is one
    obtain ⟨cycle, hcycle⟩ := Option.ne_none_iff_exists'.mp
      (mt (findCycle_eq_none_iff hsound.closed).mp hcyclic)
    have hsimple := findCycle_simpleCycle hcycle
    have hreport : g.validate = .error (g.reportCycle cycle) := by
      rw [validate, edgesSound_iff.mp hsound, hcycle]
    refine ⟨cycle, hcycle, hsimple, fun id hid => hsimple.mem_ids hsound.closed hid, hreport, ?_⟩
    intro names hnames
    rw [hreport, reportCycle_eq hnames]

/-- A sum that reads an activation of itself. -/
def feedback : Graph where
  id := "g_1"
  nodes :=
    ⟨[layerNode "x_2" .input 0, layerNode "a_3" .add 2, layerNode "r_4" .relu 1], by decide⟩
  edges :=
    [layerEdge "e_5" "x_2" "a_3" 0, layerEdge "e_6" "a_3" "r_4" 0, layerEdge "e_7" "r_4" "a_3" 1]

/-- The edges of `feedback` are sound, so its cycle is reported. -/
theorem validate_verdict_feedback :
    feedback.EdgesSound ∧ ¬ feedback.Acyclic ∧
      ∃ cycle, feedback.findCycle = some cycle ∧ feedback.SimpleCycle cycle ∧
        feedback.validate = .error (feedback.reportCycle cycle) := by
  have hsound : feedback.EdgesSound := edgesSound_iff.mpr rfl
  -- the sum is fed by the activation that it feeds
  have hcyclic : ¬ feedback.Acyclic := by
    intro h
    have hsum : feedback.Feeds "a_3" "r_4" := ⟨layerEdge "e_6" "a_3" "r_4" 0, by decide, rfl, rfl⟩
    have hback : feedback.Feeds "r_4" "a_3" := ⟨layerEdge "e_7" "r_4" "a_3" 1, by decide, rfl, rfl⟩
    exact h "a_3" (.tail (.single hsum) hback)
  obtain ⟨cycle, hfound, hsimple, _, hreport, _⟩ := (validate_verdict feedback).2 hsound hcyclic
  exact ⟨hsound, hcyclic, cycle, hfound, hsimple, hreport⟩

end Graph

end TensorGraph
