import TensorGraph.Proofs.FusionTermination

/-!
# Longer patterns go first

A pattern is matched only where none of the patterns before it is found anywhere. So if a longer
pattern stands before a shorter one that it starts with, a chain that the shorter one takes could
not have gone on: the node made of it does not link to a node of the next kind
(`Fuses.not_links_new`). Later fusions move the edges out of that node, but each to a node that was
there or to a new one of another kind, and none of them goes; so it does not come to link to such a
node (`Fuses.links_of_links`), and in the end it still does not.
-/

namespace TensorGraph.Graph

variable {patterns : List FusionPattern}

/-! ### Chains that go on -/

/-- `nextInChain` gives the node that is linked to, if it is there. -/
private theorem nextInChain_of_links {g : Graph} {u v : String} (h : g.Links u v)
    (hv : v ∈ g.nodes.ids) : g.nextInChain u = some v := by
  obtain ⟨e, hout, rfl⟩ := h
  -- there is no other edge between the two, as there is no other edge out of the first
  have hlinks : (g.inputEdges e.target.node).filter (fun link => link.source.node = u) = [e] := by
    have hcomm : (g.inputEdges e.target.node).filter (fun link => link.source.node = u) =
        (g.outputEdges u).filter fun link => link.target.node = e.target.node := by
      rw [inputEdges, outputEdges, List.filter_comm]
    rw [hcomm, hout]
    simp
  simp only [nextInChain, hout, hlinks, NodeTable.contains_eq_true_iff.mpr hv,
    List.length_singleton, beq_self_eq_true, Bool.and_self, ↓reduceIte]

/-- A chain from `findChain`, followed by a node that its last node `Links` to, is found too. -/
private theorem findChain_concat {g : Graph} {id : String} {ops : List OpKind} {chain : List Node}
    {last next : Node} (hfind : g.findChain id ops = some chain)
    (hlast : chain.getLast? = some last) (hlinks : g.Links last.id next.id)
    (hnext : next ∈ g.nodes.toList) :
    g.findChain id (ops ++ [next.op]) = some (chain ++ [next]) := by
  have hin := nextInChain_of_links hlinks (List.mem_map_of_mem hnext)
  induction ops generalizing id chain with
  | nil =>
    cases hfind
    cases hlast
  | cons kind rest ih =>
    rw [findChain] at hfind
    rw [List.cons_append, findChain]
    cases hnode : g.nodes.find? id with
    | none => simp [hnode] at hfind
    | some n =>
      simp only [hnode] at hfind ⊢
      split at hfind
      · cases hfind
      · rename_i hkind
        rw [if_neg hkind, if_neg (by simp)]
        split at hfind
        · -- the chain is this node alone, and goes on to the next one
          rename_i hrest
          cases hfind
          cases List.isEmpty_iff.mp hrest
          have hn : n = last := by simpa using hlast
          rw [← NodeTable.id_eq_of_find? hnode, hn, hin]
          simp [findChain, NodeTable.find?_of_mem hnext]
        · rename_i hrest
          cases hafter : g.nextInChain id with
          | none => simp [hafter] at hfind
          | some after =>
            simp only [hafter, Option.map_eq_some_iff] at hfind
            obtain ⟨tail, htail, rfl⟩ := hfind
            have hne : tail ≠ [] := by
              rintro rfl
              exact hrest (by simp [← map_op_of_findChain htail])
            obtain ⟨m, more, rfl⟩ := List.exists_cons_of_ne_nil hne
            rw [List.getLast?_cons_cons] at hlast
            simp [ih htail hlast]

/-- `firstMatch` gives a pattern only if those before it are found from no id. -/
private theorem findChain_eq_none_of_before {g : Graph} {pattern : FusionPattern}
    {chain : List Node} (hops : ∀ p ∈ patterns, p.ops ≠ [])
    (h : g.firstMatch patterns = .ok (some (pattern, chain))) :
    ∀ p ∈ patterns.takeWhile (· ≠ pattern), ∀ id, g.findChain id p.ops = none := by
  induction patterns with
  | nil => cases h
  | cons p rest ih =>
    obtain ⟨hp, hrest⟩ := List.forall_mem_cons.mp hops
    by_cases heq : p = pattern
    · -- nothing comes before the pattern
      simp [heq]
    · rw [List.takeWhile_cons_of_pos (by simpa using heq), List.forall_mem_cons]
      rw [firstMatch] at h
      obtain ⟨found, hmatch, htail⟩ := exists_of_bind_eq_ok h
      cases found with
      | some nodes =>
        -- a match of an earlier pattern would have been the answer
        cases htail
        exact absurd rfl heq
      | none => exact ⟨findChain_eq_none_of_matchPattern hp hmatch, ih hrest htail⟩

/-! ### One fusion -/

namespace Fuses

variable {g h : Graph} {pattern : FusionPattern} {chain : List Node} {first last new : Node}
variable (hf : g.Fuses pattern chain first last new h) (hg : g.WellFormed)
include hf hg

/-- A fusion moves the `outputEdges` of a node outside the chain, or of its last node, and none of
them goes. -/
private theorem outputEdges_land {u : String} (hu : u ∈ g.nodes.ids)
    (hleaves : u = last.id ∨ u ∉ chain.map Node.id) :
    List.Forall₂ (g.MovesTo chain first last new) (g.outputEdges u)
      (h.outputEdges (contractId chain new u)) := by
  have hlast : last.id ∈ chain.map Node.id := List.mem_map_of_mem hf.last_mem
  apply hf.filter_lands hg
  · intro old hold hsource htarget
    rw [decide_eq_false_iff_not]
    rintro rfl
    obtain heq | hout := hleaves
    · -- an edge out of the last node leaves the chain
      obtain ⟨_, hout⟩ | ⟨hne, _⟩ := hf.source_cases hg hold hsource
      · exact hout htarget
      · exact hne heq
    · exact hout hsource
  · intro old hold moved hmoves
    rw [decide_eq_decide]
    obtain ⟨hout, heq⟩ | ⟨hold', heq⟩ := hmoves.1.source_eq
    · have hne := hf.ne_new (hg.closed old hold).1
      rw [heq, contractId]
      split
      · -- the node is the last one of the chain, and the edge comes from outside
        rename_i hin
        obtain rfl | hout' := hleaves
        · exact iff_of_false (fun heq => hout (heq ▸ hlast)) hne
        · exact absurd hin hout'
      · rfl
    · rw [heq, hold', contractId]
      split
      · rename_i hin
        obtain rfl | hout' := hleaves
        · simp
        · exact absurd hin hout'
      · rename_i hout'
        exact iff_of_false (fun heq => hout' (heq ▸ hlast)) (hf.ne_new hu).symm

/-- Where a node `Links` to another one after a fusion, it did so before, unless the other one
is new. -/
private theorem links_of_links {u v : String} (hu : u ∈ g.nodes.ids)
    (hleaves : u = last.id ∨ u ∉ chain.map Node.id) (hv : v ≠ new.id)
    (hlinks : h.Links (contractId chain new u) v) : g.Links u v := by
  obtain ⟨moved, hout, rfl⟩ := hlinks
  have hland := hf.outputEdges_land hg hu hleaves
  rw [hout] at hland
  cases hedges : g.outputEdges u with
  | nil =>
    rw [hedges] at hland
    cases hland
  | cons e rest =>
    rw [hedges] at hland
    obtain ⟨hmoves, hrest⟩ := List.forall₂_cons.mp hland
    cases hrest
    refine ⟨e, hedges, ?_⟩
    -- the edge led where it leads, since it does not lead to the new node
    have htarget := (hf.ends_of_lands hmoves).2
    by_cases hin : e.target.node ∈ chain.map Node.id
    · exact absurd (htarget.trans (contractId_of_mem hin)) hv
    · exact (htarget.trans (contractId_of_not_mem hin)).symm

/-- If `findChain` finds no chain of the kinds of the pattern and one more, the new node does not
link to a node of that kind. -/
private theorem not_links_new {kind : OpKind} (hfused : pattern.fused ≠ kind)
    (hfind : ∃ id, g.findChain id pattern.ops = some chain)
    (hnone : ∀ id, g.findChain id (pattern.ops ++ [kind]) = none) :
    ∀ r ∈ h.nodes.toList, r.op = kind → ¬ h.Links new.id r.id := by
  intro r hr hop hlinks
  obtain rfl | ⟨hold, hout⟩ := hf.mem_nodes_iff.mp hr
  · exact hfused (hf.new_op ▸ hop)
  · have hlast : last.id ∈ chain.map Node.id := List.mem_map_of_mem hf.last_mem
    have hlast' : last.id ∈ g.nodes.ids :=
      List.mem_map_of_mem (hf.unbranched.mem_nodes last hf.last_mem)
    have hnew : contractId chain new last.id = new.id := contractId_of_mem hlast
    rw [← hnew] at hlinks
    have hbefore := hf.links_of_links hg hlast' (Or.inl rfl)
      (hf.ne_new (List.mem_map_of_mem hold)) hlinks
    -- the last node of the chain linked to this one, so the chain could have gone on
    obtain ⟨id, hid⟩ := hfind
    have hmore := findChain_concat hid hf.last_eq hbefore hold
    rw [hop, hnone id] at hmore
    cases hmore

/-- A node that has no `Links` to a node of some kind does not come to have one, if it stays and the
new node has another kind. -/
private theorem not_links_old {kind : OpKind} (hfused : pattern.fused ≠ kind) {n : Node}
    (hn : n ∈ g.nodes.toList) (hout : n.id ∉ chain.map Node.id)
    (hlinks : ∀ r ∈ g.nodes.toList, r.op = kind → ¬ g.Links n.id r.id) :
    ∀ r ∈ h.nodes.toList, r.op = kind → ¬ h.Links n.id r.id := by
  intro r hr hop hafter
  obtain rfl | ⟨hold, _⟩ := hf.mem_nodes_iff.mp hr
  · exact hfused (hf.new_op ▸ hop)
  · have hid : contractId chain new n.id = n.id := contractId_of_not_mem hout
    rw [← hid] at hafter
    exact hlinks r hold hop (hf.links_of_links hg (List.mem_map_of_mem hn) (Or.inr hout)
      (hf.ne_new (List.mem_map_of_mem hold)) hafter)

end Fuses

/-! ### Runs -/

namespace FusionRun

variable {g h : Graph} {ids later : IdSource} {count : Nat}

/-- `fuse` goes on from any graph of its `FusionRun`. -/
private theorem fuse_eq (hlong : ∀ p ∈ patterns, 2 ≤ p.ops.length)
    (hrun : FusionRun patterns g ids count h later) :
    fuse patterns g ids = fuse patterns h later := by
  induction hrun with
  | nil => rfl
  | cons hmatch hfuse _ ih =>
    rw [← ih]
    exact fuse_eq_of_firstMatch hmatch (Prod.ext hfuse rfl)
      (length_edges_lt_of_firstMatch hlong hmatch hfuse)

/-- A `FusionRun` keeps a graph `WellFormed` and the id source fresh for it. -/
theorem wellFormed (hrun : FusionRun patterns g ids count h later) (hg : g.WellFormed)
    (hfresh : ids.FreshFor g.nodes) : h.WellFormed ∧ later.FreshFor h.nodes := by
  induction hrun with
  | nil => exact ⟨hg, hfresh⟩
  | cons hmatch hfuse _ ih =>
    obtain ⟨hnext, hfresh'⟩ := fuseChain_wellFormed hg hfresh (firstMatch_unbranched hmatch) hfuse
    exact ih hnext hfresh'

end FusionRun

/-- A node that is made when a graph is fused, of a chain that a pattern matched. -/
inductive MadeThrough (patterns : List FusionPattern) (g : Graph) (ids : IdSource)
    (pattern : FusionPattern) (n : Node) : Prop where
  | intro {mid next : Graph} {later : IdSource} {count : Nat} {chain : List Node}
      (hrun : FusionRun patterns g ids count mid later)
      (hmatch : mid.firstMatch patterns = .ok (some (pattern, chain)))
      (hfuse : (mid.fuseChain chain pattern later).1 = .ok next)
      (hnew : next.nodes.find? (later.next "fused").1 = some n)

/-- If a pattern with one kind more stands before another one, a node that is `MadeThrough` the
shorter one links to no node of that kind in the end. It is still there then, if its kind is in no
pattern. -/
private theorem MadeThrough.not_links {g h : Graph} {ids : IdSource}
    {longer shorter : FusionPattern} {kind : OpKind} {n : Node}
    (hlong : ∀ p ∈ patterns, 2 ≤ p.ops.length) (hbefore : longer ∈ patterns.takeWhile (· ≠ shorter))
    (hmore : longer.ops = shorter.ops ++ [kind]) (hkind : ∀ p ∈ patterns, p.fused ≠ kind)
    (hstays : ∀ p ∈ patterns, shorter.fused ∉ p.ops) (hg : g.WellFormed)
    (hfresh : ids.FreshFor g.nodes) (hmade : MadeThrough patterns g ids shorter n)
    (hok : (fuse patterns g ids).1 = .ok h) :
    n ∈ h.nodes.toList ∧ ∀ r ∈ h.nodes.toList, r.op = kind → ¬ h.Links n.id r.id := by
  obtain @⟨mid, next, later, count, chain, hrun, hmatch, hfuse, hnew⟩ := hmade
  obtain ⟨hmid, hfresh'⟩ := hrun.wellFormed hg hfresh
  obtain ⟨hmem, _, first, last, new, hid, hf⟩ := exists_fuses hfresh' hmatch hfuse
  obtain ⟨hnext, hfresh''⟩ := fuseChain_wellFormed hmid hfresh' hf.unbranched hfuse
  -- the node that was made is the new one, and the longer pattern was found nowhere
  have hn : n = new := by
    have hnew' : new ∈ next.nodes.toList := hf.mem_nodes_iff.mpr (Or.inl rfl)
    rw [← hid, NodeTable.find?_of_mem hnew', Option.some.injEq] at hnew
    exact hnew.symm
  subst hn
  have hnone : ∀ id, mid.findChain id (shorter.ops ++ [kind]) = none := by
    rw [← hmore]
    exact findChain_eq_none_of_before (ops_ne_nil_of_long hlong) hmatch longer hbefore
  obtain ⟨_, _, start, _, hfind⟩ := findChain_of_firstMatch hmatch
  have hstart := hf.not_links_new hmid (hkind shorter hmem) ⟨start.id, hfind⟩ hnone
  -- from there on the node stays, and each fusion keeps that it does not link
  have hfused : (fuse patterns next (mid.fuseChain chain shorter later).2).1 = .ok h := by
    rw [← hok, hrun.fuse_eq hlong, fuse_eq_of_firstMatch hmatch (Prod.ext hfuse rfl)
      (length_edges_lt_of_firstMatch hlong hmatch hfuse)]
  refine (fuse_run hlong (P := fun k => n ∈ k.nodes.toList ∧ ∀ r ∈ k.nodes.toList, r.op = kind →
    ¬ k.Links n.id r.id) ?_ hnext hfresh'' ⟨hf.mem_nodes_iff.mpr (Or.inl rfl), hstart⟩ hfused).2.1
  intro k pattern nodes front back made after hk hpattern hf' hkeeps
  have hout : n.id ∉ nodes.map Node.id := by
    intro hin
    have hop : n.op ∈ pattern.ops :=
      hf'.kinds ▸ List.mem_map_of_mem (hf'.mem_chain_of_id_mem hkeeps.1 hin)
    exact hstays pattern hpattern (hf.new_op ▸ hop)
  exact ⟨hf'.mem_nodes_iff.mpr (Or.inr ⟨hkeeps.1, hout⟩),
    hf'.not_links_old hk (hkind pattern hpattern) hkeeps.1 hout hkeeps.2⟩

private theorem MadeThrough.pattern_mem {g : Graph} {ids : IdSource} {pattern : FusionPattern}
    {n : Node} (h : MadeThrough patterns g ids pattern n) : pattern ∈ patterns := by
  obtain ⟨_, hmatch, _, _⟩ := h
  exact (findChain_of_firstMatch hmatch).1

/-- With the usual patterns the longest convolution pattern wins: when `fuse` is run on a valid
graph, a node that is `MadeThrough` the pattern of a convolution and a normalisation is there in the
end, and it does not have just one edge out of it that leads to a rectifier. And `fuse` does give a
graph, if names are texts and port indices integers. -/
theorem fuse_prefers_longest_convolution {g : Graph} {ids : IdSource} (hvalid : g.validate = .ok ())
    (hfresh : ids.FreshFor g.nodes) :
    (∀ h pattern n, (fuse FusionPattern.defaults g ids).1 = .ok h →
      pattern.name = .str "Conv2D + BatchNorm" →
      MadeThrough FusionPattern.defaults g ids pattern n →
        n ∈ h.nodes.toList ∧ ¬ ∃ e r, h.outputEdges n.id = [e] ∧
          h.nodes.find? e.target.node = some r ∧ r.op = .relu) ∧
      (g.Plain → ∃ h, (fuse FusionPattern.defaults g ids).1 = .ok h) := by
  have hg := validate_eq_ok_iff.mp hvalid
  refine ⟨?_, exists_fuse_defaults_eq_ok hg hfresh⟩
  intro h pattern n hok hname hmade
  have hnamed : ∀ p ∈ FusionPattern.defaults, p.name = .str "Conv2D + BatchNorm" →
      p = ⟨.str "Conv2D + BatchNorm", [.conv2d, .batchNorm], .fusedConvNormRelu⟩ := by decide
  obtain rfl := hnamed pattern hmade.pattern_mem hname
  -- the pattern with a rectifier at its end stands before it
  have hbefore :
      ⟨.str "Conv2D + BatchNorm + ReLU", [.conv2d, .batchNorm, .relu], .fusedConvNormRelu⟩ ∈
        FusionPattern.defaults.takeWhile
          (· ≠ ⟨.str "Conv2D + BatchNorm", [.conv2d, .batchNorm], .fusedConvNormRelu⟩) := by decide
  have hkind : ∀ p ∈ FusionPattern.defaults, p.fused ≠ .relu := by decide
  have hstays : ∀ p ∈ FusionPattern.defaults, OpKind.fusedConvNormRelu ∉ p.ops := by decide
  obtain ⟨hmem, hlinks⟩ :=
    hmade.not_links defaults_long hbefore rfl hkind hstays hg hfresh hok
  refine ⟨hmem, ?_⟩
  rintro ⟨e, r, hout, hfind, hop⟩
  exact hlinks r (NodeTable.mem_of_find? hfind) hop ⟨e, hout, (NodeTable.id_eq_of_find? hfind).symm⟩

/-- A normalised convolution that goes into a dense layer with a rectifier. -/
def normedLayer : Graph where
  id := "g_1"
  nodes :=
    ⟨[layerNode "x_2" .input 0, layerNode "w_3" .constant 0, layerNode "b_4" .constant 0,
      layerNode "c_5" .conv2d 1, layerNode "n_6" .batchNorm 1, layerNode "m_7" .matMul 2,
      layerNode "a_8" .add 2, layerNode "r_9" .relu 1, layerNode "y_10" .output 1], by decide⟩
  edges :=
    [layerEdge "e_11" "x_2" "c_5" 0, layerEdge "e_12" "c_5" "n_6" 0, layerEdge "e_13" "n_6" "m_7" 0,
     layerEdge "e_14" "w_3" "m_7" 1, layerEdge "e_15" "m_7" "a_8" 0, layerEdge "e_16" "b_4" "a_8" 1,
     layerEdge "e_17" "a_8" "r_9" 0, layerEdge "e_18" "r_9" "y_10" 0]

/-- In `normedLayer` the node that is made of the convolution and the normalisation is read by a
chain that is fused after it, so the edge out of it is moved. -/
theorem fuse_normedLayer_prefers_longest_convolution :
    normedLayer.validate = .ok () ∧ IdSource.FreshFor ⟨18⟩ normedLayer.nodes ∧ normedLayer.Plain ∧
      ∃ h n, (fuse FusionPattern.defaults normedLayer ⟨18⟩).1 = .ok h ∧
        MadeThrough FusionPattern.defaults normedLayer ⟨18⟩
          ⟨.str "Conv2D + BatchNorm", [.conv2d, .batchNorm], .fusedConvNormRelu⟩ n ∧
        n ∈ h.nodes.toList ∧ ¬ ∃ e r, h.outputEdges n.id = [e] ∧
          h.nodes.find? e.target.node = some r ∧ r.op = .relu := by
  have hvalid : normedLayer.validate = .ok () := validate_of_forward rfl (by decide)
  have hids : normedLayer.nodes.ids = [("x", 2), ("w", 3), ("b", 4), ("c", 5), ("n", 6), ("m", 7),
      ("a", 8), ("r", 9), ("y", 10)].map fun entry => IdSource.idOf entry.1 entry.2 := by decide
  have hfresh : IdSource.FreshFor ⟨18⟩ normedLayer.nodes :=
    IdSource.freshFor_of_issued hids (by decide)
  have hplain : normedLayer.Plain :=
    { name_text := by
        intro n hn
        simp only [normedLayer, List.mem_cons, List.not_mem_nil, or_false] at hn
        rcases hn with rfl | rfl | rfl | rfl | rfl | rfl | rfl | rfl | rfl <;> exact ⟨_, rfl⟩
      index_int := by
        intro e he
        simp only [normedLayer, List.mem_cons, List.not_mem_nil, or_false] at he
        rcases he with rfl | rfl | rfl | rfl | rfl | rfl | rfl | rfl <;> exact ⟨_, rfl⟩ }
  obtain ⟨hlinks, hexists⟩ := fuse_prefers_longest_convolution hvalid hfresh
  obtain ⟨h, hok⟩ := hexists hplain
  have hmatch : normedLayer.firstMatch FusionPattern.defaults = .ok (some
      (⟨.str "Conv2D + BatchNorm", [.conv2d, .batchNorm], .fusedConvNormRelu⟩,
        [layerNode "c_5" .conv2d 1, layerNode "n_6" .batchNorm 1])) := by decide
  have hmade := MadeThrough.intro (.nil normedLayer ⟨18⟩) hmatch rfl rfl
  exact ⟨hvalid, hfresh, hplain, h, _, hok, hmade, hlinks h _ _ hok rfl hmade⟩

end TensorGraph.Graph
