import TensorGraph.Proofs.Folding
import TensorGraph.Proofs.Fusion
import TensorGraph.Proofs.Rejection
import TensorGraph.Proofs.TypeAssignment

/-!
# Passes keep graphs valid

Every pass turns a valid graph into a valid one, provided that the ids it makes up are new. Typing
and planning change nodes in place (`WellFormed.update`), dropping dead nodes restricts the graph
(`WellFormed.restrict`), folding and fusing have modules of their own. A pipeline threads the graph
and the id source through its passes, so the same holds of everything it returns.
-/

namespace TensorGraph

/-! ### Typing -/

namespace Typing

/-- `step` replaces a node by one with the same id, the same annotations and as many ports. -/
theorem step_eq_ok {g : Graph} {s next : Typing} {n : Node} (h : step g s n = .ok next) :
    ∃ m : Node, m.id = n.id ∧ m.annotations = n.annotations ∧ n.SamePorts m ∧
      next.nodes = s.nodes.replace m := by
  obtain ⟨_, out, _, rfl⟩ := step_eq_ok_iff.mp h
  refine ⟨written n (reaching g s.types n) out, rfl, rfl, ⟨?_, ?_⟩, rfl⟩
  · simp [written, reaching]
  · simp [written]

/-- The nodes found so far stand where those of the graph stand and have as many ports. -/
structure Covers (g : Graph) (s : Typing) : Prop where
  ids_eq : s.nodes.ids = g.nodes.ids
  samePorts : ∀ id n, g.nodes.find? id = some n → ∃ m, s.nodes.find? id = some m ∧ n.SamePorts m

/-- A `step` at a node of the graph keeps up `Covers`. -/
theorem Covers.step {g : Graph} {s next : Typing} {n : Node} (hs : Covers g s)
    (hn : n ∈ g.nodes.toList) (h : Typing.step g s n = .ok next) : Covers g next := by
  obtain ⟨m, hid, _, hports, hnodes⟩ := step_eq_ok h
  refine ⟨by rw [hnodes, NodeTable.ids_replace, hs.ids_eq], ?_⟩
  intro key k hk
  obtain ⟨old, hold, holdPorts⟩ := hs.samePorts key k hk
  rw [hnodes, NodeTable.find?_replace, hold]
  by_cases hkey : key = m.id
  · -- the node that was typed is the one with this id
    have hkn : k = n := by
      rw [hkey, hid, NodeTable.find?_of_mem hn] at hk
      exact (Option.some.inj hk).symm
    refine ⟨m, by simp [hkey], ?_⟩
    rw [hkn]
    exact hports
  · -- another node is found as it was
    exact ⟨old, by simp [hkey], holdPorts⟩

/-- A `run` over nodes of the graph keeps up `Covers`. -/
theorem Covers.run {g : Graph} {s last : Typing} {order : List Node} (hs : Covers g s)
    (horder : ∀ n ∈ order, n ∈ g.nodes.toList) (h : Typing.run g s order = .ok last) :
    Covers g last := by
  induction order generalizing s with
  | nil =>
    cases h
    exact hs
  | cons n rest ih =>
    -- one step keeps the cover, and so do the rest
    obtain ⟨next, hnext, hrest⟩ := exists_of_bind_eq_ok h
    have hstep := hs.step (horder n List.mem_cons_self) hnext
    exact ih hstep (fun m hm => horder m (List.mem_cons_of_mem _ hm)) hrest

/-- `retypeEdge` gives an edge a type and changes nothing else about it. -/
theorem retypeEdge_ends (types : Dict TensorType) (e : Edge) :
    (retypeEdge types e).id = e.id ∧ (retypeEdge types e).source = e.source ∧
      (retypeEdge types e).target = e.target := by
  unfold retypeEdge
  split <;> exact ⟨rfl, rfl, rfl⟩

end Typing

namespace Graph

/-- `inferTypes` keeps a graph `WellFormed` and its ids as they are. -/
theorem inferTypes_wellFormed {g h : Graph} (hg : g.WellFormed) (hok : g.inferTypes = .ok h) :
    h.WellFormed ∧ h.nodes.ids = g.nodes.ids := by
  obtain ⟨s, hs, hh⟩ := exists_of_bind_eq_ok hok
  cases hh
  have hstart : Typing.Covers g ⟨Dict.empty, g.nodes⟩ :=
    ⟨rfl, fun _ n hn => ⟨n, hn, rfl, rfl⟩⟩
  have hcovers := hstart.run (fun n hn => g.topologicalOrder_perm.mem_iff.mp hn) hs
  exact ⟨hg.update (Typing.retypeEdge s.types) rfl (Typing.retypeEdge_ends s.types)
    hcovers.samePorts, hcovers.ids_eq⟩

/-! ### Dropping dead nodes and planning memory -/

/-- `dropDead` keeps a graph `WellFormed`. -/
theorem dropDead_wellFormed {g : Graph} (hg : g.WellFormed) : g.dropDead.WellFormed := by
  -- an id among the nodes that stay belongs to a live node
  have hkept : ∀ id n, g.nodes.find? id = some n →
      (g.nodes.filter fun n => (g.reachedFrom g.outputIds).contains n.id).contains id = true →
        (g.reachedFrom g.outputIds).contains n.id = true := by
    intro id n hn hcontains
    obtain ⟨m, hm⟩ := NodeTable.mem_ids_iff.mp (NodeTable.contains_eq_true_iff.mp hcontains)
    obtain ⟨hfind, hlive⟩ := NodeTable.find?_filter_eq_some_iff.mp hm
    rw [hn, Option.some.injEq] at hfind
    rw [hfind]
    exact hlive
  refine hg.restrict _ _ ?_ ?_
  · intro e _ hkeep n hn
    simp only [Bool.and_eq_true] at hkeep
    exact hkept _ n hn hkeep.1
  · intro e _ hkeep n hn
    simp only [Bool.and_eq_true] at hkeep
    exact hkept _ n hn hkeep.2

/-- The ids after `dropDead` are old ones. -/
theorem mem_ids_dropDead {g : Graph} {id : String} (h : id ∈ g.dropDead.nodes.ids) :
    id ∈ g.nodes.ids := by
  obtain ⟨n, hn⟩ := NodeTable.mem_ids_iff.mp h
  exact NodeTable.mem_ids_of_find? (NodeTable.find?_filter_eq_some_iff.mp hn).1

/-- `withPlan` keeps a graph `WellFormed` and its ids as they are. -/
private theorem withPlan_wellFormed {g : Graph} (hg : g.WellFormed) (plan : MemoryPlan) :
    (g.withPlan plan).WellFormed ∧ (g.withPlan plan).nodes.ids = g.nodes.ids := by
  refine ⟨hg.update (fun e => e) (List.map_id' _).symm (fun _ => ⟨rfl, rfl, rfl⟩) ?_, ?_⟩
  · intro key n hn
    simp only [withPlan, NodeTable.find?_mapNodes, hn, Option.map_some, Option.some.injEq,
      exists_eq_left']
    split <;> exact ⟨rfl, rfl⟩
  · simp only [withPlan, NodeTable.ids_mapNodes]

end Graph

/-! ### Passes -/

namespace Pass

/-- A pass whose `apply` returns a graph has kept it `WellFormed`, and the id source fresh
for it. -/
theorem apply_wellFormed {p : Pass} {g h : Graph} {ids : IdSource} (hg : g.WellFormed)
    (hfresh : ids.FreshFor g.nodes) (hok : (p.apply g ids).1 = .ok h) :
    h.WellFormed ∧ (p.apply g ids).2.FreshFor h.nodes := by
  cases p with
  | inferTypes =>
    -- the ids of nodes are the same
    obtain ⟨hwf, hids⟩ := Graph.inferTypes_wellFormed hg hok
    exact ⟨hwf, hfresh.mono fun id hid => hids ▸ hid⟩
  | foldConstants =>
    have hfold := Graph.foldConstants_wellFormed hg hfresh
    cases hok
    exact hfold
  | dropDead =>
    cases hok
    exact ⟨Graph.dropDead_wellFormed hg, hfresh.mono fun _ hid => Graph.mem_ids_dropDead hid⟩
  | fuse patterns => exact Graph.fuseWithin_wellFormed hg hfresh hok
  | planMemory alignment reuse =>
    -- without a plan the pass has failed
    simp only [apply] at hok
    cases hplan : MemoryPlan.compute g alignment reuse with
    | error _ =>
      rw [hplan] at hok
      cases hok
    | ok plan =>
      rw [hplan] at hok
      cases hok
      obtain ⟨hwf, hids⟩ := Graph.withPlan_wellFormed hg plan
      exact ⟨hwf, hfresh.mono fun id hid => hids ▸ hid⟩

/-- `recordPass` keeps a graph `WellFormed`. -/
theorem recordPass_wellFormed {g : Graph} (hg : g.WellFormed) (record : PassRecord) :
    (g.recordPass record).WellFormed :=
  hg.update (fun e => e) (List.map_id' _).symm (fun _ => ⟨rfl, rfl, rfl⟩)
    fun _ n hn => ⟨n, hn, rfl, rfl⟩

/-- On a `WellFormed` graph a pass either gives a `WellFormed` graph or fails without rejecting. -/
private theorem run_wellFormed (p : Pass) (timestamp : Datum) {g : Graph} {ids : IdSource}
    (hg : g.WellFormed) (hfresh : ids.FreshFor g.nodes) :
    NeverRejects (p.run g timestamp ids).1 ∧
      ∀ h, (p.run g timestamp ids).1 = .ok h →
        h.WellFormed ∧ (p.run g timestamp ids).2.FreshFor h.nodes := by
  -- the graph is valid, so the pass is applied
  have hvalid := Graph.validate_eq_ok_iff.mpr hg
  simp only [run, hvalid]
  refine ⟨(p.apply_neverRejects g ids).map _, ?_⟩
  intro h hok
  cases happly : (p.apply g ids).1 with
  | error _ =>
    rw [happly] at hok
    cases hok
  | ok next =>
    rw [happly] at hok
    cases hok
    -- the record of the pass is metadata
    obtain ⟨hwf, hnext⟩ := apply_wellFormed hg hfresh happly
    exact ⟨recordPass_wellFormed hwf _, hnext⟩

end Pass

/-! ### Pipelines -/

/-- Every graph that `runPasses` returns is `WellFormed`, and a run that fails has not rejected a
graph. -/
private theorem runPasses_wellFormed (clock : Nat → Datum) (start : Nat) {g : Graph}
    {ids : IdSource} (passes : List Pass) (hg : g.WellFormed) (hfresh : ids.FreshFor g.nodes) :
    NeverRejects (runPasses clock start g ids passes).1 ∧
      ∀ results, (runPasses clock start g ids passes).1 = .ok results →
        ∀ r ∈ results, r.graph.WellFormed := by
  induction passes generalizing start g ids with
  | nil =>
    refine ⟨NeverRejects.ok _, ?_⟩
    intro results hok
    cases hok
    exact List.forall_mem_nil _
  | cons p rest ih =>
    -- the first pass fails, or hands a well-formed graph and a fresh id source to the rest
    obtain ⟨hrejects, hnext⟩ := p.run_wellFormed (clock start) hg hfresh
    cases hrun : p.run g (clock start) ids with
    | mk result ids' =>
      rw [hrun] at hrejects hnext
      cases result with
      | error cause =>
        simp only [runPasses, hrun]
        exact ⟨fun _ hfail => hrejects _ (Except.error.inj hfail ▸ rfl), fun _ hok => nomatch hok⟩
      | ok next =>
        obtain ⟨hwf, hfresh'⟩ := hnext next rfl
        obtain ⟨hrejects', hall⟩ := ih (start + 1) hwf hfresh'
        cases hrest : runPasses clock (start + 1) next ids' rest with
        | mk results ids'' =>
          rw [hrest] at hrejects' hall
          simp only [runPasses, hrun, hrest]
          cases results with
          | error cause =>
            -- a failure of the rest is the failure of the run
            exact ⟨fun _ hfail => hrejects' _ (Except.error.inj hfail ▸ rfl),
              fun _ hok => nomatch hok⟩
          | ok results =>
            refine ⟨NeverRejects.ok _, ?_⟩
            intro _ hok
            cases hok
            exact List.forall_mem_cons.mpr ⟨hwf, hall results rfl⟩

/-- Every pass turns a valid graph into a valid graph, and every graph that `runPipeline` returns is
valid. A pipeline may fail, since typing and planning may, but never because one of its passes was
given a graph that is not valid. -/
theorem passes_keep_valid {g : Graph} {ids : IdSource} (hvalid : g.validate = .ok ())
    (hfresh : ids.FreshFor g.nodes) :
    (∀ (p : Pass) (h : Graph), (p.apply g ids).1 = .ok h → h.validate = .ok ()) ∧
      ∀ (passes : List Pass) (clock : Nat → Datum),
        match (runPipeline passes clock g ids).1 with
        | .ok results => ∀ r ∈ results, r.graph.validate = .ok ()
        | .error cause => cause.isRejection = false := by
  have hg := Graph.validate_eq_ok_iff.mp hvalid
  refine ⟨fun p h hok => ?_, fun passes clock => ?_⟩
  · exact Graph.validate_eq_ok_iff.mpr (Pass.apply_wellFormed hg hfresh hok).1
  · -- passes go one by one, and each leaves a valid graph to the next
    obtain ⟨hrejects, hall⟩ := runPasses_wellFormed clock 0 passes hg hfresh
    rw [runPipeline]
    cases hrun : (runPasses clock 0 g ids passes).1 with
    | error cause => exact hrejects cause hrun
    | ok results =>
      intro r hr
      exact Graph.validate_eq_ok_iff.mpr (hall results hrun r hr)

/-- A layer with constants to fold stays valid when they are folded, and so do the graphs of the
usual pipeline. -/
theorem passes_keep_scaledLayer_valid :
    Graph.scaledLayer.validate = .ok () ∧ IdSource.FreshFor ⟨17⟩ Graph.scaledLayer.nodes ∧
      (Graph.scaledLayer.foldConstants ⟨17⟩).1.validate = .ok () ∧
      match (runPipeline Pass.defaults (fun _ => .null) Graph.scaledLayer ⟨17⟩).1 with
      | .ok results => ∀ r ∈ results, r.graph.validate = .ok ()
      | .error cause => cause.isRejection = false := by
  have hkeep := passes_keep_valid Graph.validate_scaledLayer Graph.freshFor_scaledLayer
  exact ⟨Graph.validate_scaledLayer, Graph.freshFor_scaledLayer, hkeep.1 .foldConstants _ rfl,
    hkeep.2 Pass.defaults fun _ => .null⟩

end TensorGraph
