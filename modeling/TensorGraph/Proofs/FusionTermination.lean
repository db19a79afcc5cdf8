import TensorGraph.Proofs.FusionRun

/-!
# Fusing comes to an end

Fusing as a run of single fusions (`FusionRun`), for all graphs: they need not be closed, acyclic or
well formed, ids may be taken, and the kinds that fusions give may occur in patterns. With patterns
of two kinds or more each fusion costs at least one edge, so no run has more fusions than the graph
has edges (`FusionRun.count_le`). Fusing follows such a run to a graph that no pattern matches
anywhere, or to a fusion that fails (`exists_fusionRun`), which in graphs with texts for names and
integers for port indices is one with an edge to a port out of range.
-/

namespace TensorGraph.Graph

variable {patterns : List FusionPattern}

/-! ### Graphs that no pattern matches -/

/-- A pattern that `matchPattern` does not match is found from no id. -/
theorem findChain_eq_none_of_matchPattern {g : Graph} {pattern : FusionPattern}
    (hops : pattern.ops ≠ []) (h : g.matchPattern pattern = .ok none) (id : String) :
    g.findChain id pattern.ops = none := by
  unfold matchPattern at h
  split at h
  · exact absurd ‹_› hops
  · rename_i kind rest hkinds
    have hnone := List.findSome?_eq_none_iff.mp (Except.ok.inj h)
    cases hfind : g.nodes.find? id with
    | none => rw [hkinds, findChain, hfind]
    | some n =>
      by_cases hop : n.op = kind
      · -- the search came to this node and found no chain
        have hn := hnone n (NodeTable.mem_of_find? hfind)
        rwa [if_pos hop, NodeTable.id_eq_of_find? hfind] at hn
      · simp only [hkinds, findChain, hfind, if_pos (show n.op ≠ kind from hop)]

/-- Where `firstMatch` finds nothing, no pattern is found from any id. -/
private theorem findChain_eq_none_of_firstMatch {g : Graph} (hops : ∀ p ∈ patterns, p.ops ≠ [])
    (h : g.firstMatch patterns = .ok none) : ∀ p ∈ patterns, ∀ id, g.findChain id p.ops = none := by
  induction patterns with
  | nil =>
    intro p hp
    cases hp
  | cons p rest ih =>
    obtain ⟨hp, hrest⟩ := List.forall_mem_cons.mp hops
    rw [firstMatch] at h
    -- the first pattern has matched nowhere, or there would be an answer
    obtain ⟨found, hmatch, htail⟩ := exists_of_bind_eq_ok h
    cases found with
    | some chain => cases htail
    | none =>
      rw [List.forall_mem_cons]
      exact ⟨findChain_eq_none_of_matchPattern hp hmatch, ih hrest htail⟩

/-! ### Runs -/

/-- So many fusions one after the other, each of the first chain that a pattern matches. -/
inductive FusionRun (patterns : List FusionPattern) :
    Graph → IdSource → Nat → Graph → IdSource → Prop where
  | nil (g : Graph) (ids : IdSource) : FusionRun patterns g ids 0 g ids
  | cons {g next h : Graph} {ids later : IdSource} {pattern : FusionPattern} {chain : List Node}
      {count : Nat} (hmatch : g.firstMatch patterns = .ok (some (pattern, chain)))
      (hfuse : (g.fuseChain chain pattern ids).1 = .ok next)
      (hrest : FusionRun patterns next (g.fuseChain chain pattern ids).2 count h later) :
      FusionRun patterns g ids (count + 1) h later

namespace FusionRun

variable {g h : Graph} {ids later : IdSource} {count : Nat}

/-- Each fusion of a `FusionRun` costs an edge. -/
private theorem count_le (hlong : ∀ p ∈ patterns, 2 ≤ p.ops.length)
    (hrun : FusionRun patterns g ids count h later) : count + h.edges.length ≤ g.edges.length := by
  induction hrun with
  | nil => omega
  | cons hmatch hfuse _ ih =>
    have hlt := length_edges_lt_of_firstMatch hlong hmatch hfuse
    omega

/-- A `FusionRun` leaves a `Plain` graph plain. -/
theorem plain (hrun : FusionRun patterns g ids count h later) (hplain : g.Plain) : h.Plain := by
  induction hrun with
  | nil => exact hplain
  | cons _ hfuse _ ih => exact ih (hplain.of_fuseChain hfuse)

end FusionRun

/-- `fuseWithin` is a `FusionRun` up to a graph where nothing is matched, or up to a fusion that
fails. -/
private theorem exists_fusionRun (hlong : ∀ p ∈ patterns, 2 ≤ p.ops.length) (g : Graph)
    (ids : IdSource) (budget : Nat) :
    ∃ count h later, FusionRun patterns g ids count h later ∧
      ((fuseWithin patterns g ids budget = (.ok h, later) ∧ h.firstMatch patterns = .ok none) ∨
        ∃ pattern chain cause, h.firstMatch patterns = .ok (some (pattern, chain)) ∧
          (h.fuseChain chain pattern later).1 = .error cause ∧
          (fuseWithin patterns g ids budget).1 = .error cause) := by
  fun_induction fuseWithin patterns g ids budget with
  | case1 g ids budget cause hmatch =>
    obtain ⟨found, hfound⟩ := firstMatch_eq_ok (ops_ne_nil_of_long hlong) g
    rw [hmatch] at hfound
    cases hfound
  | case2 g ids budget hmatch => exact ⟨0, g, ids, .nil g ids, Or.inl ⟨rfl, hmatch⟩⟩
  | case3 g ids budget pattern chain hmatch cause herror =>
    exact ⟨0, g, ids, .nil g ids, Or.inr ⟨pattern, chain, cause, hmatch, herror, rfl⟩⟩
  | case4 g ids budget pattern chain hmatch next hnext hlt ih =>
    obtain ⟨count, h, later, hrun, hend⟩ := ih
    exact ⟨count + 1, h, later, .cons hmatch hnext hrun, hend⟩
  -- no fusion leaves as many edges as there were
  | case5 g ids pattern chain hmatch next hnext hlt =>
    exact absurd (length_edges_lt_of_firstMatch hlong hmatch hnext) hlt
  | case6 g ids pattern chain hmatch next hnext hlt left ih =>
    exact absurd (length_edges_lt_of_firstMatch hlong hmatch hnext) hlt

/-- With patterns of two kinds or more `fuse` ends for every graph: no `FusionRun` has more fusions
than the graph has edges, and `fuse` is a run of fusions up to a graph in which no pattern is found
from any node, or up to a fusion that fails. If names are texts and port indices integers, a fusion
fails only where the port that an edge leads to is out of range. -/
theorem fuse_ends_unmatched (hlong : ∀ p ∈ patterns, 2 ≤ p.ops.length) (g : Graph)
    (ids : IdSource) :
    (∀ count h later, FusionRun patterns g ids count h later →
      count + h.edges.length ≤ g.edges.length) ∧
    ∃ count h later, FusionRun patterns g ids count h later ∧ count ≤ g.edges.length ∧
      ((fuse patterns g ids = (.ok h, later) ∧
          ∀ p ∈ patterns, ∀ id, h.findChain id p.ops = none) ∨
        ∃ pattern chain cause, h.firstMatch patterns = .ok (some (pattern, chain)) ∧
          (h.fuseChain chain pattern later).1 = .error cause ∧
          (fuse patterns g ids).1 = .error cause ∧
          (g.Plain → ∃ e ∈ h.edges, ∃ i, h.MissesPort e i ∧ cause = .noSuchPort i)) := by
  constructor
  · intro count h later hrun
    exact hrun.count_le hlong
  · -- the run that is made ends somewhere, after as many fusions as edges have gone at most
    obtain ⟨count, h, later, hrun, hend⟩ := exists_fusionRun hlong g ids g.relabelLimit
    have hcount := hrun.count_le hlong
    refine ⟨count, h, later, hrun, by omega, ?_⟩
    cases hend with
    | inl hdone =>
      -- nothing matches any more
      exact Or.inl ⟨hdone.1, findChain_eq_none_of_firstMatch (ops_ne_nil_of_long hlong) hdone.2⟩
    | inr hfailed =>
      obtain ⟨pattern, chain, cause, hmatch, hfails, herror⟩ := hfailed
      refine Or.inr ⟨pattern, chain, cause, hmatch, hfails, herror, ?_⟩
      intro hplain
      -- names are texts, so what is missing is a port
      have hchain := firstMatch_unbranched hmatch
      exact missesPort_of_fuseChain (hrun.plain hplain) hchain (ne_nil_of_firstMatch hmatch) hfails

/-- Two activations in a row are one. The kind that this gives can be matched again. -/
def reluPair : FusionPattern := ⟨.str "ReLU + ReLU", [.relu, .relu], .relu⟩

/-- The node that replaces two activations. -/
def fusedRelu (first last : Node) (id name : String) : Node :=
  fusedNode [first, last] first last reluPair id (.str name) first.inputs

/-- Three activations in a ring. -/
def reluRing : Graph where
  id := "g_1"
  nodes :=
    ⟨[layerNode "a_2" .relu 1, layerNode "b_3" .relu 1, layerNode "c_4" .relu 1], by decide⟩
  edges :=
    [layerEdge "e_5" "a_2" "b_3" 0, layerEdge "e_6" "b_3" "c_4" 0, layerEdge "e_7" "c_4" "a_2" 0]

/-- `reluRing` with the first two nodes fused. -/
def pairedRing : Graph where
  id := "g_1"
  nodes :=
    ⟨[layerNode "c_4" .relu 1,
      fusedRelu (layerNode "a_2" .relu 1) (layerNode "b_3" .relu 1) "fused_8" "fused_a_2_b_3"], by
      decide⟩
  edges := [layerEdge "e_6" "fused_8" "c_4" 0, layerEdge "e_7" "c_4" "fused_8" 0]

/-- `pairedRing` with the two nodes that are left fused. -/
def fusedRing : Graph where
  id := "g_1"
  nodes :=
    ⟨[fusedRelu (layerNode "c_4" .relu 1)
      (fusedRelu (layerNode "a_2" .relu 1) (layerNode "b_3" .relu 1) "fused_8" "fused_a_2_b_3")
      "fused_9" "fused_c_4_fused_a_2_b_3"], by decide⟩
  edges := []

/-- `fuse` turns `reluRing` into `fusedRing` in two fusions. -/
private theorem fuse_reluRing : fuse [reluPair] reluRing ⟨7⟩ = (.ok fusedRing, ⟨9⟩) := by
  have hring : reluRing.firstMatch [reluPair] =
      .ok (some (reluPair, [layerNode "a_2" .relu 1, layerNode "b_3" .relu 1])) := by decide
  have hpaired : pairedRing.firstMatch [reluPair] = .ok (some (reluPair, [layerNode "c_4" .relu 1,
      fusedRelu (layerNode "a_2" .relu 1) (layerNode "b_3" .relu 1) "fused_8"
      "fused_a_2_b_3"])) := by
    decide
  -- two pairs are fused in turn, and then nothing matches
  calc fuse [reluPair] reluRing ⟨7⟩ = fuse [reluPair] pairedRing ⟨8⟩ :=
        fuse_eq_of_firstMatch hring rfl (by decide)
    _ = fuse [reluPair] fusedRing ⟨9⟩ := fuse_eq_of_firstMatch hpaired rfl (by decide)
    _ = (.ok fusedRing, ⟨9⟩) := fuse_eq_self (by decide) ⟨9⟩

/-- Fusing `reluRing` ends, although it is a ring and every fusion gives a node that can be fused
again. -/
theorem fuse_reluRing_ends_unmatched :
    (∀ p ∈ [reluPair], 2 ≤ p.ops.length) ∧ ¬ reluRing.Acyclic ∧
      ∃ count, FusionRun [reluPair] reluRing ⟨7⟩ count fusedRing ⟨9⟩ ∧ count ≤ 3 ∧
        fuse [reluPair] reluRing ⟨7⟩ = (.ok fusedRing, ⟨9⟩) ∧
        ∀ p ∈ [reluPair], ∀ id, fusedRing.findChain id p.ops = none := by
  have hlong : ∀ p ∈ [reluPair], 2 ≤ p.ops.length := by decide
  -- the ring can be walked round
  have hring : ¬ reluRing.Acyclic := by
    intro hacyclic
    apply hacyclic "a_2"
    have hab : reluRing.Feeds "a_2" "b_3" := ⟨layerEdge "e_5" "a_2" "b_3" 0, by decide, rfl, rfl⟩
    have hbc : reluRing.Feeds "b_3" "c_4" := ⟨layerEdge "e_6" "b_3" "c_4" 0, by decide, rfl, rfl⟩
    have hca : reluRing.Feeds "c_4" "a_2" := ⟨layerEdge "e_7" "c_4" "a_2" 0, by decide, rfl, rfl⟩
    exact ((Relation.TransGen.single hab).tail hbc).tail hca
  obtain ⟨count, h, later, hrun, hcount, hend⟩ := (fuse_ends_unmatched hlong reluRing ⟨7⟩).2
  refine ⟨hlong, hring, count, ?_⟩
  -- the run is known, so it is the one that has not failed
  rw [fuse_reluRing] at hend
  cases hend with
  | inl hdone =>
    obtain ⟨heq, hnone⟩ := hdone
    cases heq
    exact ⟨hrun, hcount, fuse_reluRing, hnone⟩
  | inr hfailed =>
    obtain ⟨_, _, _, _, _, herror, _⟩ := hfailed
    cases herror

end TensorGraph.Graph
