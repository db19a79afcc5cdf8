import TensorGraph.Proofs.Conforming
import TensorGraph.Proofs.FoldingMeaning
import TensorGraph.Proofs.FusionRun

/-!
# One round of the structural passes is enough

After folding, every computing node reads something that is not constant (`Driven`), and nothing is
left to fold. Dropping dead nodes keeps that and leaves live nodes only. A fusion keeps both: what
its new node reads, the first node of the chain read before, and the new node is live as the chain
was. So when no chain is left to fuse, there is nothing left to fold or drop either.
-/

namespace TensorGraph.Graph

/-! ### Nothing left to fold -/

/-- Every node that computes reads some node that is not constant. -/
def Driven (g : Graph) : Prop :=
  ∀ n ∈ g.nodes.toList, n.op.isComputing = true →
    ∃ e ∈ g.inputEdges n.id, g.isConstant e.source.node = false

/-- In a `Driven` graph `foldConstants` finds nothing to fold. -/
private theorem Driven.foldConstants_eq {g : Graph} (hg : g.Driven) (ids : IdSource) :
    g.foldConstants ids = (g, ids) := by
  -- every computing node has an input that is no constant
  have hnone : g.nodes.toList.find? g.canFold = none := by
    rw [List.find?_eq_none]
    intro n hn hfold
    simp only [canFold, Bool.and_eq_true, List.all_eq_true] at hfold
    obtain ⟨⟨hop, _⟩, hconstant⟩ := hfold
    obtain ⟨e, he, hsource⟩ := hg n hn hop
    rw [hconstant e he] at hsource
    cases hsource
  rw [foldConstants]
  split
  · rfl
  · rename_i n hfind
    rw [hnone] at hfind
    cases hfind

/-- `foldNode` keeps computing nodes fed. -/
private theorem foldNode_fed {g : Graph} {n : Node} {ids : IdSource}
    (hfed : ∀ m ∈ g.nodes.toList, m.op.isComputing = true → g.inputEdges m.id ≠ []) :
    ∀ m ∈ (g.foldNode n ids).1.nodes.toList, m.op.isComputing = true →
      (g.foldNode n ids).1.inputEdges m.id ≠ [] := by
  intro m hm hop
  obtain rfl | ⟨hold, hne⟩ := mem_foldNode hm
  · -- the new node is a constant
    cases hop
  · rw [inputEdges_foldNode hm hne, ne_eq, List.map_eq_nil_iff]
    exact hfed m hold hop

/-- If computing nodes are fed, `foldConstants` leaves a `Driven` graph. -/
private theorem foldConstants_driven {g : Graph} {ids : IdSource}
    (hfed : ∀ n ∈ g.nodes.toList, n.op.isComputing = true → g.inputEdges n.id ≠ []) :
    (g.foldConstants ids).1.Driven := by
  fun_induction foldConstants g ids with
  | case1 g ids hnone =>
    intro n hn hop
    -- the node is fed and cannot be folded, so not everything that it reads is constant
    have hfold := List.find?_eq_none.mp hnone n hn
    simp only [canFold, hop, Bool.true_and, Bool.and_eq_true, Bool.not_eq_true',
      List.isEmpty_eq_false_iff, List.all_eq_true, not_and, not_forall] at hfold
    obtain ⟨e, he, hconstant⟩ := hfold (hfed n hn hop)
    exact ⟨e, he, by simpa using hconstant⟩
  | case2 g ids n _ ih => exact ih (foldNode_fed hfed)

/-- Live nodes read what they read before, so `dropDead` keeps a graph `Driven`. -/
theorem Driven.dropDead {g : Graph} (hclosed : g.Closed) (hg : g.Driven) : g.dropDead.Driven := by
  intro n hn hop
  obtain ⟨hold, hlive⟩ := mem_dropDead_iff.mp hn
  obtain ⟨e, he, hsource⟩ := hg n hold hop
  refine ⟨e, by rwa [inputEdges_dropDead hclosed hlive], ?_⟩
  -- a constant that is left was a constant before
  unfold isConstant at hsource ⊢
  split
  · rename_i m hm
    rw [(NodeTable.find?_filter_eq_some_iff.mp hm).1] at hsource
    exact hsource
  · rfl

/-! ### What a fusion keeps -/

namespace Fuses

variable {g h : Graph} {pattern : FusionPattern} {chain : List Node} {first last new : Node}
variable (hf : g.Fuses pattern chain first last new h) (hg : g.WellFormed)
include hf

/-- After a fusion `find?` gives the new node under its id, and the nodes outside the chain where
they were. -/
theorem find?_eq_some_iff {id : String} {n : Node} :
    h.nodes.find? id = some n ↔
      (id = new.id ∧ n = new) ∨ (g.nodes.find? id = some n ∧ id ∉ chain.map Node.id) := by
  rw [NodeTable.find?_eq_some_iff, NodeTable.find?_eq_some_iff, hf.mem_nodes_iff]
  constructor
  · intro hn
    obtain ⟨rfl | ⟨hn, hout⟩, rfl⟩ := hn
    · -- the new node
      exact Or.inl ⟨rfl, rfl⟩
    · -- a node off the chain
      exact Or.inr ⟨⟨hn, rfl⟩, hout⟩
  · intro hn
    obtain ⟨rfl, rfl⟩ | ⟨⟨hn, rfl⟩, hout⟩ := hn
    · exact ⟨Or.inl rfl, rfl⟩
    · exact ⟨Or.inr ⟨hn, hout⟩, rfl⟩

/-- A fusion makes no node `isConstant`. -/
private theorem isConstant_contractId (hfused : pattern.fused ≠ .constant) {id : String}
    (hid : g.isConstant id = false) : h.isConstant (contractId chain new id) = false := by
  unfold isConstant
  split
  · rename_i n hn
    obtain ⟨_, rfl⟩ | ⟨hold, _⟩ := hf.find?_eq_some_iff.mp hn
    · rw [hf.new_op]
      simpa using hfused
    · -- a node that is found in the old graph too lies outside the chain, where ids stay
      have hsame : contractId chain new id = id := by
        by_cases hin : id ∈ chain.map Node.id
        · rw [contractId_of_mem hin] at hold
          exact absurd (NodeTable.mem_ids_of_find? hold) hf.new_id
        · exact contractId_of_not_mem hin
      rw [hsame] at hold
      simpa [isConstant, hold] using hid
  · rfl

section
include hg

/-- An edge from a node that is not `isConstant` still comes from one, under `contractId`. -/
private theorem exists_driving_edge (hfused : pattern.fused ≠ .constant) {e : Edge}
    (he : e ∈ g.edges) (hsource : g.isConstant e.source.node = false)
    (hlink : ¬ (e.source.node ∈ chain.map Node.id ∧ e.target.node ∈ chain.map Node.id)) :
    ∃ moved ∈ h.inputEdges (contractId chain new e.target.node),
      h.isConstant moved.source.node = false := by
  obtain ⟨moved, hmoved, hlands⟩ := hf.exists_new_edge hg he hlink
  obtain ⟨hs, ht⟩ := hf.ends_of_lands hlands
  refine ⟨moved, mem_inputEdges.mpr ⟨hmoved, ht⟩, ?_⟩
  rw [hs]
  exact hf.isConstant_contractId hfused hsource

/-- A fusion of computing nodes keeps a graph `Driven`. -/
private theorem driven (hops : ∀ kind ∈ pattern.ops, kind.isComputing = true)
    (hfused : pattern.fused ≠ .constant) (hdriven : g.Driven) : h.Driven := by
  intro n hn hop
  obtain rfl | ⟨hold, hout⟩ := hf.mem_nodes_iff.mp hn
  · -- the new node reads what the first node of the chain read
    have hkind : first.op ∈ pattern.ops := hf.kinds ▸ List.mem_map_of_mem hf.first_mem
    have hin : first.id ∈ chain.map Node.id := List.mem_map_of_mem hf.first_mem
    obtain ⟨e, he, hsource⟩ :=
      hdriven first (hf.unbranched.mem_nodes first hf.first_mem) (hops _ hkind)
    obtain ⟨he, htarget⟩ := mem_inputEdges.mp he
    rw [← htarget] at hin
    have hmoved := hf.exists_driving_edge hg hfused he hsource fun hlink => by
      obtain ⟨_, hout⟩ | ⟨_, _, hne⟩ := hf.source_cases hg he hlink.1
      · exact hout hlink.2
      · exact hne htarget
    rwa [contractId_of_mem hin] at hmoved
  · -- a node outside the chain reads the same edge, whose source may have been contracted
    obtain ⟨e, he, hsource⟩ := hdriven n hold hop
    obtain ⟨he, htarget⟩ := mem_inputEdges.mp he
    rw [← htarget] at hout
    have hmoved := hf.exists_driving_edge hg hfused he hsource fun hlink => hout hlink.2
    rwa [contractId_of_not_mem hout, htarget] at hmoved

/-- If all nodes are `Live`, they are after a fusion. -/
private theorem all_live (hops : ∀ kind ∈ pattern.ops, kind ≠ .output)
    (hfused : pattern.fused ≠ .output) (hlive : ∀ n ∈ g.nodes.toList, g.Live n.id) :
    ∀ n ∈ h.nodes.toList, h.Live n.id := by
  intro n hn
  obtain rfl | ⟨hold, hout⟩ := hf.mem_nodes_iff.mp hn
  · -- the new node is as live as the last node of the chain was
    have hlast := hf.unbranched.mem_nodes last hf.last_mem
    have hmoved := (hf.live_iff hg hops hfused (List.mem_map_of_mem hlast)).mpr (hlive last hlast)
    rwa [contractId_of_mem (List.mem_map_of_mem hf.last_mem)] at hmoved
  · have hmoved := (hf.live_iff hg hops hfused (List.mem_map_of_mem hold)).mpr (hlive n hold)
    rwa [contractId_of_not_mem hout] at hmoved

end

end Fuses

/-! ### Names and indices -/

/-- `foldNode` gives its constant a text for a name and leaves the ports that edges lead to
alone. -/
theorem Plain.foldNode {g : Graph} {n : Node} {ids : IdSource} (hg : g.Plain) :
    (g.foldNode n ids).1.Plain where
  name_text := by
    intro m hm
    obtain rfl | ⟨hold, _⟩ := mem_foldNode hm
    · -- the constant is named by a text
      exact ⟨_, rfl⟩
    · exact hg.name_text m hold
  index_int := by
    intro e he
    -- no edge has moved to another port
    obtain ⟨old, hold, htarget⟩ := exists_target_eq_of_foldNode he
    rw [htarget]
    exact hg.index_int old hold

/-- `foldConstants` keeps a graph `Plain`. -/
theorem Plain.foldConstants {g : Graph} {ids : IdSource} (hg : g.Plain) :
    (g.foldConstants ids).1.Plain := by
  fun_induction Graph.foldConstants g ids with
  | case1 g ids _ => exact hg
  | case2 g ids n _ ih => exact ih hg.foldNode

theorem Plain.dropDead {g : Graph} (hg : g.Plain) : g.dropDead.Plain where
  name_text n hn := hg.name_text n (mem_dropDead_iff.mp hn).1
  index_int e he := hg.index_int e (List.mem_filter.mp he).1

/-! ### One round -/

/-- One round of the structural passes is enough: after `foldConstants`, `dropDead` and `fuse` on a
graph that is `Conforming`, `foldConstants`, `dropDead` and `fuse` each leave it as it is. And the
round does give a graph, if names are texts and port indices integers. -/
theorem one_round_is_enough {g : Graph} {ids : IdSource} (hg : g.Conforming)
    (hfresh : ids.FreshFor g.nodes) :
    (∀ h, (fuse FusionPattern.defaults (g.foldConstants ids).1.dropDead (g.foldConstants ids).2).1 =
        .ok h →
      ∀ later, h.foldConstants later = (h, later) ∧ h.dropDead = h ∧
        fuse FusionPattern.defaults h later = (.ok h, later)) ∧
      (g.Plain → ∃ h, (fuse FusionPattern.defaults (g.foldConstants ids).1.dropDead
        (g.foldConstants ids).2).1 = .ok h) := by
  obtain ⟨hfolded, hfresh'⟩ := foldConstants_wellFormed hg.wellFormed hfresh
  have hdropped := dropDead_wellFormed hfolded
  have hfresh'' : (g.foldConstants ids).2.FreshFor (g.foldConstants ids).1.dropDead.nodes :=
    hfresh'.mono fun _ hid => mem_ids_dropDead hid
  refine ⟨?_, fun hplain => exists_fuse_defaults_eq_ok hdropped hfresh''
    hplain.foldConstants.dropDead⟩
  intro h hok later
  -- after folding no node is left to fold, and after dropping all are live
  have hdriven : (g.foldConstants ids).1.dropDead.Driven :=
    (foldConstants_driven fun n hn hop => (hg.supplied n hn).fed hop).dropDead hfolded.closed
  have hlive : ∀ n ∈ (g.foldConstants ids).1.dropDead.nodes.toList,
      (g.foldConstants ids).1.dropDead.Live n.id :=
    fun n hn => (mem_dropDead_iff.mp hn).2.dropDead hfolded.closed
  -- fusions keep both
  have hrun := fuse_run (P := fun k => k.Driven ∧ ∀ n ∈ k.nodes.toList, k.Live n.id)
    defaults_long ?_ hdropped hfresh'' ⟨hdriven, hlive⟩ hok
  · obtain ⟨hwell, ⟨hdriven, hlive⟩, hmatch⟩ := hrun
    exact ⟨hdriven.foldConstants_eq later, dropDead_eq_self hwell.closed hlive,
      fuse_eq_self hmatch later⟩
  · intro k pattern chain first last new h hk hpattern hf hkeeps
    obtain ⟨hops, hfused⟩ := defaults_computing pattern hpattern
    exact ⟨hf.driven hk hops (ne_constant_of_isComputing hfused) hkeeps.1,
      hf.all_live hk (fun kind hkind => ne_output_of_isComputing (hops kind hkind))
        (ne_output_of_isComputing hfused) hkeeps.2⟩

/-- `scaledLayer` has a product of constants to fold and a matrix product and a sum to fuse; after
one round nothing is left to do. -/
theorem one_round_is_enough_for_scaledLayer :
    scaledLayer.Conforming ∧ IdSource.FreshFor ⟨17⟩ scaledLayer.nodes ∧ scaledLayer.Plain ∧
      scaledLayer.canFold (layerNode "k_5" .mul 2) = true ∧
      ∃ h, (fuse FusionPattern.defaults (scaledLayer.foldConstants ⟨17⟩).1.dropDead
          (scaledLayer.foldConstants ⟨17⟩).2).1 = .ok h ∧
        h.foldConstants ⟨19⟩ = (h, ⟨19⟩) ∧ h.dropDead = h ∧
        fuse FusionPattern.defaults h ⟨19⟩ = (.ok h, ⟨19⟩) := by
  obtain ⟨hsettled, hexists⟩ := one_round_is_enough conforming_scaledLayer freshFor_scaledLayer
  obtain ⟨h, hok⟩ := hexists plain_scaledLayer
  exact ⟨conforming_scaledLayer, freshFor_scaledLayer, plain_scaledLayer, by decide, h, hok,
    hsettled h hok ⟨19⟩⟩

end TensorGraph.Graph
