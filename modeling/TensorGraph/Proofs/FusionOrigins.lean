import TensorGraph.Proofs.FusionRun

/-!
# What the outputs depend on, before and after fusing

A fused node records the operations that it was made of, so it stands for those (`Node.standsFor`).
One fusion trades the nodes of a chain for a node that stands for them. The chain was live as a
whole or dead as a whole, and the new node is live exactly if the chain was; so the operations that
the outputs depend on stay the same, each as often as before (`liveOrigins_perm`), and so they do
over a whole run.
-/

namespace TensorGraph

/-- The operations that a node stands for: those it is recorded to be fused from, or just itself. -/
def Node.standsFor (n : Node) : List Origin :=
  match n.annotations.get? "fused_from" with
  | some (.fusedFrom origins) => origins
  | _ => [n.origin]

private theorem Node.standsFor_of_unmarked {n : Node} (h : n.annotations.get? "fused_from" = none) :
    n.standsFor = [n.origin] := by
  rw [standsFor, h]

namespace Graph

/-- The operations that the outputs of a graph depend on. -/
def liveOrigins (g : Graph) : List Origin := g.dropDead.nodes.toList.flatMap Node.standsFor

/-- No node of the given kinds is recorded to be fused from others. -/
def Unmarked (kinds : List OpKind) (g : Graph) : Prop :=
  ∀ n ∈ g.nodes.toList, n.op ∈ kinds → n.annotations.get? "fused_from" = none

namespace Fuses

variable {g h : Graph} {pattern : FusionPattern} {chain : List Node} {first last new : Node}
variable (hf : g.Fuses pattern chain first last new h)
include hf

/-- The new node `standsFor` the chain. -/
private theorem standsFor_new : new.standsFor = chain.map Node.origin := by
  rw [hf.new_eq]
  simp [Node.standsFor, fusedNode, Dict.get?]

/-- Where a graph `Fuses`, its nodes are those of the chain and those that stay. -/
theorem nodes_perm (hg : g.WellFormed) : g.nodes.toList.Perm
    (chain ++ g.nodes.toList.filter fun n => !(chain.map Node.id).contains n.id) := by
  have hnodes : g.nodes.toList.Nodup := List.Nodup.of_map Node.id g.nodes.ids_nodup
  have hparts : (chain ++
      g.nodes.toList.filter fun n => !(chain.map Node.id).contains n.id).Nodup := by
    refine List.nodup_append.mpr ⟨List.Nodup.of_map Node.id (hf.ids_nodup hg), hnodes.filter _, ?_⟩
    intro n hn m hm heq
    have hout := (List.mem_filter.mp hm).2
    rw [← heq] at hout
    simp [List.mem_map_of_mem hn] at hout
  -- neither list repeats a node, so it is enough to compare their members
  rw [List.perm_ext_iff_of_nodup hnodes hparts]
  intro n
  simp only [List.mem_append, List.mem_filter, Bool.not_eq_true', List.contains_eq_mem,
    decide_eq_false_iff_not]
  constructor
  · intro hn
    by_cases hid : n.id ∈ chain.map Node.id
    · exact Or.inl (hf.mem_chain_of_id_mem hn hid)
    · exact Or.inr ⟨hn, hid⟩
  · intro hn
    exact hn.elim (hf.unbranched.mem_nodes n) fun hn => hn.1

/-- A fusion keeps `liveOrigins`, if no node of the chain stands for others. -/
private theorem liveOrigins_perm (hg : g.WellFormed) (hops : ∀ kind ∈ pattern.ops, kind ≠ .output)
    (hfused : pattern.fused ≠ .output) (hchain : ∀ n ∈ chain, n.standsFor = [n.origin]) :
    h.liveOrigins.Perm g.liveOrigins := by
  have hlive : ∀ n ∈ g.nodes.toList, h.Live (contractId chain new n.id) ↔ g.Live n.id :=
    fun n hn => hf.live_iff hg hops hfused (List.mem_map_of_mem hn)
  -- outside the chain the same nodes are live as before
  have hrest : (g.nodes.toList.filter fun n => !(chain.map Node.id).contains n.id).filter
        (fun n => (h.reachedFrom h.outputIds).contains n.id) =
      (g.nodes.toList.filter fun n => !(chain.map Node.id).contains n.id).filter
        fun n => (g.reachedFrom g.outputIds).contains n.id := by
    apply List.filter_congr
    intro n hn
    obtain ⟨hn, hout⟩ := List.mem_filter.mp hn
    rw [Bool.eq_iff_iff, contains_reachedFrom_iff, contains_reachedFrom_iff, ← hlive n hn,
      contractId_of_not_mem (by simpa using hout)]
  -- the chain as a whole is as live as the new node
  have hnew : ∀ n ∈ chain, h.Live new.id ↔ g.Live n.id := by
    intro n hn
    rw [← hlive n (hf.unbranched.mem_nodes n hn), contractId_of_mem (List.mem_map_of_mem hn)]
  have horigins : new.standsFor = chain.flatMap Node.standsFor := by
    rw [hf.standsFor_new, ← List.flatMap_pure_eq_map]
    exact (List.flatMap_congr hchain).symm
  have hbefore : g.liveOrigins.Perm
      (((chain ++ g.nodes.toList.filter fun n => !(chain.map Node.id).contains n.id).filter
        fun n => (g.reachedFrom g.outputIds).contains n.id).flatMap Node.standsFor) :=
    ((hf.nodes_perm hg).filter _).flatMap_right _
  refine List.Perm.trans ?_ hbefore.symm
  show ((h.nodes.toList.filter fun n => (h.reachedFrom h.outputIds).contains n.id).flatMap
    Node.standsFor).Perm _
  rw [hf.nodes_eq, List.filter_append, List.filter_append, hrest, List.flatMap_append,
    List.flatMap_append]
  by_cases hdead : h.Live new.id
  · -- all of the chain is live, and the new node in its place
    have hall : chain.filter (fun n => (g.reachedFrom g.outputIds).contains n.id) = chain :=
      List.filter_eq_self.mpr fun n hn => contains_reachedFrom_iff.mpr ((hnew n hn).mp hdead)
    have hone : [new].filter (fun n => (h.reachedFrom h.outputIds).contains n.id) = [new] :=
      List.filter_eq_self.mpr fun n hn => by
        rw [List.mem_singleton.mp hn]
        exact contains_reachedFrom_iff.mpr hdead
    rw [hall, hone, List.flatMap_singleton, horigins]
    exact List.perm_append_comm
  · -- nothing of the chain was live, and neither is the new node
    have hnone : chain.filter (fun n => (g.reachedFrom g.outputIds).contains n.id) = [] :=
      List.filter_eq_nil_iff.mpr fun n hn hin =>
        hdead ((hnew n hn).mpr (contains_reachedFrom_iff.mp hin))
    have hone : [new].filter (fun n => (h.reachedFrom h.outputIds).contains n.id) = [] :=
      List.filter_eq_nil_iff.mpr fun n hn hin => by
        rw [List.mem_singleton.mp hn] at hin
        exact hdead (contains_reachedFrom_iff.mp hin)
    rw [hnone, hone, List.flatMap_nil, List.append_nil, List.nil_append]

/-- A graph stays `Unmarked` in a fusion, if the new node has another kind. -/
private theorem unmarked {kinds : List OpKind} (hfused : pattern.fused ∉ kinds)
    (hmarked : g.Unmarked kinds) : h.Unmarked kinds := by
  intro n hn hop
  obtain rfl | hn := hf.mem_nodes_iff.mp hn
  · exact absurd (hf.new_op ▸ hop) hfused
  · exact hmarked n hn.1 hop

end Fuses

/-- `fuse` with the usual patterns keeps what the outputs of a valid graph depend on: the kinds and
names of the operations in `liveOrigins`, which are left when dead nodes are dropped, are the same,
each as often as before, fused nodes counting as the operations that they were made of. And `fuse`
does give a graph, if names are texts and port indices integers. -/
theorem fuse_keeps_live_origins {g : Graph} {ids : IdSource} (hvalid : g.validate = .ok ())
    (hfresh : ids.FreshFor g.nodes) (hmarked : g.Unmarked chainKinds) :
    (∀ h, (fuse FusionPattern.defaults g ids).1 = .ok h → h.liveOrigins.Perm g.liveOrigins) ∧
      (g.Plain → ∃ h, (fuse FusionPattern.defaults g ids).1 = .ok h) := by
  have hg := validate_eq_ok_iff.mp hvalid
  refine ⟨?_, exists_fuse_defaults_eq_ok hg hfresh⟩
  intro h hok
  -- fused nodes are of no kind that chains have, and what is live keeps its origins
  have hrun := fuse_run (P := fun k => k.Unmarked chainKinds ∧ k.liveOrigins.Perm g.liveOrigins)
    defaults_long ?_ hg hfresh ⟨hmarked, List.Perm.refl _⟩ hok
  · exact hrun.2.1.2
  · intro g' pattern chain first last new h hg' hpattern hf hkeeps
    -- a chain consists of computing nodes, none of them a model output
    obtain ⟨hops, hfused⟩ := defaults_kinds pattern hpattern
    obtain ⟨hcomputing, hfused'⟩ := defaults_computing pattern hpattern
    refine ⟨hf.unmarked hfused hkeeps.1, List.Perm.trans ?_ hkeeps.2⟩
    refine hf.liveOrigins_perm hg'
      (fun kind hkind => ne_output_of_isComputing (hcomputing kind hkind))
      (ne_output_of_isComputing hfused') ?_
    intro n hn
    have hkind : n.op ∈ pattern.ops := hf.kinds ▸ List.mem_map_of_mem hn
    exact Node.standsFor_of_unmarked
      (hkeeps.1 n (hf.unbranched.mem_nodes n hn) (hops _ hkind))

/-- In `scaledLayer` a matrix product and a sum are fused, and the operations that its output
depends on stay the same. -/
theorem fuse_scaledLayer_keeps_live_origins :
    scaledLayer.validate = .ok () ∧ IdSource.FreshFor ⟨17⟩ scaledLayer.nodes ∧
      scaledLayer.Unmarked chainKinds ∧ scaledLayer.Plain ∧
      scaledLayer.firstMatch FusionPattern.defaults = .ok (some
        (⟨.str "MatMul + Add", [.matMul, .add], .fusedMatMulAdd⟩,
          [layerNode "m_6" .matMul 2, layerNode "a_7" .add 2])) ∧
      ∃ h, (fuse FusionPattern.defaults scaledLayer ⟨17⟩).1 = .ok h ∧
        h.liveOrigins.Perm scaledLayer.liveOrigins := by
  -- no node of the kinds of chains has been fused before
  have hmarked : scaledLayer.Unmarked chainKinds := by
    unfold Unmarked
    decide
  obtain ⟨hkeeps, hexists⟩ :=
    fuse_keeps_live_origins validate_scaledLayer freshFor_scaledLayer hmarked
  obtain ⟨h, hok⟩ := hexists plain_scaledLayer
  exact ⟨validate_scaledLayer, freshFor_scaledLayer, hmarked, plain_scaledLayer, by decide, h, hok,
    hkeeps h hok⟩

end Graph

end TensorGraph
