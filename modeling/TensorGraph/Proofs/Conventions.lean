import TensorGraph.Proofs.FoldingMeaning
import TensorGraph.Proofs.FusionTyping
import TensorGraph.Proofs.Passes

/-!
# Passes keep to the conventions

A graph that keeps to the conventions feeds every input port by one edge, and no node has fewer or
more ports than its kind accepts. Typing and planning change neither nodes nor edges in a way that
matters here; dropping dead nodes and folding leave to each node that stays the edges into it, maybe
with other sources. Only fusion makes a node with ports, and there is room for them
(`Fuses.supplied_new`). So each pass that returns a graph has kept to the conventions
(`passes_keep_conventions`).
-/

namespace TensorGraph

namespace Graph

/-- All nodes are supplied, and integers say which ports edges lead to. -/
structure Tidy (g : Graph) : Prop where
  supplied : ∀ n ∈ g.nodes.toList, g.Supplied n
  indexed : g.Indexed

/-! ### Passes that leave the ports of nodes alone -/

/-- A node stays `Supplied` if the edges into it are those from before, led to the same ports. -/
theorem Supplied.of_map {g h : Graph} {n m : Node} (hs : g.Supplied n) (hop : m.op = n.op)
    (hports : m.inputs.length = n.inputs.length) {f : Edge → Edge}
    (hin : h.inputEdges m.id = (g.inputEdges n.id).map f)
    (htarget : ∀ e, (f e).target = e.target) : h.Supplied m where
  arity := by
    rw [hop, hports]
    exact hs.arity
  fed_once := by
    intro i hi
    -- each edge goes on into the same port
    rw [edgesInto_eq_filter, hin, List.filter_map, List.length_map]
    simp only [Function.comp_def, htarget]
    rw [← edgesInto_eq_filter]
    exact hs.fed_once i (hports ▸ hi)

/-- `inferTypes` writes into ports and edges and moves none, so a graph stays `Tidy`. -/
theorem Tidy.inferTypes {g h : Graph} (hg : g.WellFormed) (htidy : g.Tidy)
    (hok : g.inferTypes = .ok h) : h.Tidy := by
  obtain ⟨types, _, rfl⟩ := (inferTypes_eq_ok_iff hg).mp hok
  constructor
  · intro m hm
    -- a retyped node has as many ports as before, fed by the same edges
    obtain ⟨n, hn, rfl⟩ := mem_retyped_iff.mp hm
    refine (htidy.supplied n hn).of_map rfl ?_ (inputEdges_retyped g types n.id) fun _ => rfl
    exact List.length_mapIdx
  · intro e he
    obtain ⟨old, hold, rfl⟩ := List.mem_map.mp he
    exact htidy.indexed old hold

/-- `withPlan` makes notes at nodes, so a graph stays `Tidy`. -/
theorem Tidy.withPlan {g : Graph} (htidy : g.Tidy) (plan : MemoryPlan) :
    (g.withPlan plan).Tidy := by
  refine ⟨fun m hm => ?_, htidy.indexed⟩
  obtain ⟨n, hn, rfl⟩ := List.mem_map.mp hm
  have hin : (g.withPlan plan).inputEdges n.id = (g.inputEdges n.id).map fun e => e :=
    (List.map_id' _).symm
  split
  · exact (htidy.supplied n hn).of_map rfl rfl hin fun _ => rfl
  · exact (htidy.supplied n hn).of_map rfl rfl hin fun _ => rfl

/-- `dropDead` leaves a live node all edges into it, so a graph stays `Tidy`. -/
theorem Tidy.dropDead {g : Graph} (hg : g.WellFormed) (htidy : g.Tidy) : g.dropDead.Tidy := by
  constructor
  · intro n hn
    obtain ⟨hold, hlive⟩ := mem_dropDead_iff.mp hn
    have hin : g.dropDead.inputEdges n.id = (g.inputEdges n.id).map fun e => e := by
      rw [inputEdges_dropDead hg.closed hlive, List.map_id']
    exact (htidy.supplied n hold).of_map rfl rfl hin fun _ => rfl
  · exact fun e he => htidy.indexed e (List.mem_filter.mp he).1

/-- `foldNode` puts a constant in place of a node, and a constant has no ports; the other nodes keep
the edges into them, of which some now leave the constant. -/
theorem Tidy.foldNode {g : Graph} (htidy : g.Tidy) (n : Node) (ids : IdSource) :
    (g.foldNode n ids).1.Tidy := by
  constructor
  · intro m hm
    obtain rfl | ⟨hold, hne⟩ := mem_foldNode hm
    · -- the constant has no ports to feed
      exact ⟨rfl, fun i hi => absurd hi (Nat.not_lt_zero i)⟩
    · -- another node is fed as before
      exact (htidy.supplied m hold).of_map rfl rfl (inputEdges_foldNode hm hne)
        (redirect_target n _)
  · intro e he
    -- no edge has moved to another port
    obtain ⟨old, hold, htarget⟩ := exists_target_eq_of_foldNode he
    rw [htarget]
    exact htidy.indexed old hold

/-- `foldConstants` keeps a graph `Tidy`. -/
theorem Tidy.foldConstants {g : Graph} {ids : IdSource} (htidy : g.Tidy) :
    (g.foldConstants ids).1.Tidy := by
  fun_induction Graph.foldConstants g ids with
  | case1 g ids _ => exact htidy
  | case2 g ids n _ ih => exact ih (htidy.foldNode n ids)

/-! ### Fusion -/

/-- The kind that replaces a chain of one of `FusionPattern.defaults` accepts the ports of the first
node together with those that the later nodes can add, of each all but one. -/
private theorem defaults_room : ∀ p ∈ FusionPattern.defaults, ∀ kind ∈ p.ops.head?,
    p.fused.signature.leastInputs ≤ kind.signature.leastInputs ∧
      kind.signature.mostInputs + (p.ops.tail.map fun k => k.signature.mostInputs - 1).sum ≤
        p.fused.signature.mostInputs := by
  decide

/-- A fusion by one of `FusionPattern.defaults` keeps a graph `Tidy`. -/
private theorem Fuses.tidy {g h : Graph} {pattern : FusionPattern} {chain : List Node}
    {first last new : Node} (hf : g.Fuses pattern chain first last new h) (hg : g.WellFormed)
    (hpattern : pattern ∈ FusionPattern.defaults) (htidy : g.Tidy) : h.Tidy := by
  refine ⟨fun n hn => ?_, hf.indexed htidy.indexed⟩
  obtain rfl | ⟨hold, hout⟩ := hf.mem_nodes_iff.mp hn
  · -- the new node, for which the catalogue leaves room
    have hhead : first.op ∈ pattern.ops.head? := by
      rw [← hf.kinds, List.head?_map, hf.head_eq]
      rfl
    obtain ⟨hleast, hmost⟩ := defaults_room pattern hpattern first.op hhead
    exact hf.supplied_new hg htidy.indexed
      (fun n hn => htidy.supplied n (hf.unbranched.mem_nodes n hn)) hleast hmost
  · exact hf.supplied_outside hg hold hout (htidy.supplied n hold)

/-- `fuse` with the usual patterns keeps a graph `Tidy`. -/
theorem Tidy.fuse {g h : Graph} {ids : IdSource} (hg : g.WellFormed) (hfresh : ids.FreshFor g.nodes)
    (htidy : g.Tidy) (hok : (fuse FusionPattern.defaults g ids).1 = .ok h) : h.Tidy := by
  refine (fuse_run defaults_long ?_ hg hfresh htidy hok).2.1
  intro k pattern chain first last new k' hk hpattern hf hkeeps
  exact hf.tidy hk hpattern hkeeps

end Graph

/-! ### Passes -/

/-- `Pass.apply` that fuses by no other than the usual patterns keeps a graph `Tidy`. -/
private theorem Pass.apply_tidy {p : Pass} {g h : Graph} {ids : IdSource} (hg : g.WellFormed)
    (hfresh : ids.FreshFor g.nodes) (htidy : g.Tidy)
    (hpatterns : ∀ patterns, p = .fuse patterns → patterns = FusionPattern.defaults)
    (hok : (p.apply g ids).1 = .ok h) : h.Tidy := by
  cases p with
  | inferTypes => exact htidy.inferTypes hg hok
  | foldConstants =>
    -- folding cannot fail
    cases hok
    exact htidy.foldConstants
  | dropDead =>
    cases hok
    exact htidy.dropDead hg
  | fuse patterns =>
    -- the patterns are the usual ones, whose nodes have room for what chains bring in
    rw [hpatterns patterns rfl] at hok
    exact htidy.fuse hg hfresh hok
  | planMemory alignment reuse =>
    -- a plan is noted, or there is none and the pass has failed
    rw [Pass.apply] at hok
    cases hplan : MemoryPlan.compute g alignment reuse with
    | error _ =>
      rw [hplan] at hok
      cases hok
    | ok plan =>
      rw [hplan] at hok
      cases hok
      exact htidy.withPlan plan

/-- Each of `Pass.defaults` that returns a graph has kept to the conventions, if integers say which
ports the edges lead to: the graph is valid, all nodes have as many input ports as their kinds
accept, and one edge leads to each of these. In particular the fused nodes have as many inputs as
their kinds allow. -/
theorem passes_keep_conventions {g : Graph} {ids : IdSource} (hg : g.Conforming)
    (hindexed : g.Indexed) (hfresh : ids.FreshFor g.nodes) :
    ∀ p ∈ Pass.defaults, ∀ h, (p.apply g ids).1 = .ok h →
      h.Conforming ∧ h.Indexed ∧
        ∀ n ∈ h.nodes.toList,
          (n.op = .fusedConvNormRelu → 1 ≤ n.inputs.length ∧ n.inputs.length ≤ 3) ∧
            (n.op = .fusedMatMulAdd → 2 ≤ n.inputs.length ∧ n.inputs.length ≤ 3) := by
  intro p hp h hok
  have htidy : g.Tidy := ⟨hg.supplied, hindexed⟩
  have hwf := (Pass.apply_wellFormed hg.wellFormed hfresh hok).1
  -- the only fusion among the usual passes is that with the usual patterns
  have hpatterns : ∀ patterns, p = .fuse patterns → patterns = FusionPattern.defaults := by
    revert p
    simp [Pass.defaults]
  have hkeeps := Pass.apply_tidy hg.wellFormed hfresh htidy hpatterns hok
  refine ⟨⟨Graph.validate_eq_ok_iff.mpr hwf, hkeeps.supplied⟩, hkeeps.indexed, ?_⟩
  intro n hn
  -- the kinds of fused nodes are held to bounds like any other
  have hbounds := (hkeeps.supplied n hn).arity_bounds
  constructor
  · intro hop
    rw [hop] at hbounds
    exact hbounds
  · intro hop
    rw [hop] at hbounds
    exact hbounds

/-- Fusing `Graph.denseLayer` keeps to the conventions. The new node has three inputs, as many as
its kind accepts. -/
theorem fuse_denseLayer_keeps_conventions :
    (Graph.denseLayer true).Conforming ∧
      (Graph.denseLayer true).Indexed ∧
      IdSource.FreshFor ⟨12⟩ (Graph.denseLayer true).nodes ∧
      (Graph.fuse FusionPattern.defaults (Graph.denseLayer true) ⟨12⟩).1 =
        .ok Graph.fusedDenseLayer ∧ Graph.fusedDenseLayer.Conforming ∧
      ∃ n ∈ Graph.fusedDenseLayer.nodes.toList, n.op = .fusedMatMulAdd ∧ n.inputs.length = 3 := by
  have hindexed := (Graph.plain_denseLayer true).index_int
  have hok := congrArg Prod.fst Graph.fuse_denseLayer
  obtain ⟨hkeeps, _⟩ := passes_keep_conventions (Graph.conforming_denseLayer true) hindexed
    (Graph.freshFor_denseLayer true) (.fuse FusionPattern.defaults) (by decide)
    Graph.fusedDenseLayer hok
  exact ⟨Graph.conforming_denseLayer true, hindexed, Graph.freshFor_denseLayer true, hok, hkeeps,
    by decide⟩

end TensorGraph
