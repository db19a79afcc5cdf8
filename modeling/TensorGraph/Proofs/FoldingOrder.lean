import TensorGraph.Proofs.FoldingMeaning

/-!
# Folding in any order

Which nodes are folded does not depend on the order of the folds. The nodes that can be folded
sooner or later are the least set of computing nodes that are fed, and fed by constants and members
of the set only (`Foldable`). One fold takes the node that is folded out of that set and nothing
else (`foldable_foldNode_iff`), and where the set is empty nothing can be folded. So every run of
folds that ends where nothing can be folded has folded exactly the set, each node once
(`FoldRun.foldsTo`), and the folding of `Graph.foldConstants` is one of these runs.

Along a run a node that is not folded keeps its incoming edges, each redirected at most once: from a
node that is folded to the constant that stands in for it.
-/

namespace TensorGraph

private theorem OpKind.isComputing_iff {kind : OpKind} :
    kind.isComputing = true ↔ kind ≠ .input ∧ kind ≠ .output ∧ kind ≠ .constant := by
  cases kind <;> simp [OpKind.isComputing]

/-- A constant that has the output ports of a node and says that the node was folded to it. -/
structure Node.StandsInFor (c n : Node) : Prop where
  op_eq : c.op = .constant
  outputs_eq : c.outputs = n.outputs
  folded_from : c.annotations.get? "folded_from" = some (.foldedFrom ⟨n.op, n.name⟩)

namespace Graph

private theorem foldedConstant_standsInFor (n : Node) (id : String) :
    (foldedConstant n id).StandsInFor n := ⟨rfl, rfl, rfl⟩

/-! ### Nodes that can be folded sooner or later -/

/-- The ids of the nodes that can be folded sooner or later: the least set of nodes, neither inputs
nor outputs nor constants, that have incoming edges all of which come from constants or from the
set. -/
inductive Foldable (g : Graph) : String → Prop
  | intro {n : Node} (hn : n ∈ g.nodes.toList)
      (hop : n.op ≠ .input ∧ n.op ≠ .output ∧ n.op ≠ .constant) (hfed : g.inputEdges n.id ≠ [])
      (hsources : ∀ e ∈ g.inputEdges n.id,
        g.isConstant e.source.node = false → Foldable g e.source.node) : Foldable g n.id

/-- `isConstant` holds of the ids of constants. -/
private theorem isConstant_eq_true_iff {g : Graph} {id : String} :
    g.isConstant id = true ↔ ∃ n ∈ g.nodes.toList, n.id = id ∧ n.op = .constant := by
  unfold isConstant
  cases hfind : g.nodes.find? id with
  | none =>
    -- what is not found is the id of no node
    simp only [Bool.false_eq_true, false_iff]
    intro h
    obtain ⟨n, hn, rfl, _⟩ := h
    rw [NodeTable.find?_of_mem hn] at hfind
    cases hfind
  | some m =>
    obtain ⟨hm, hid⟩ := NodeTable.find?_eq_some_iff.mp hfind
    simp only [beq_iff_eq]
    constructor
    · intro hop
      exact ⟨m, hm, hid, hop⟩
    · intro h
      obtain ⟨n, hn, hnid, hop⟩ := h
      rw [NodeTable.eq_of_id_eq hm hn (hid.trans hnid.symm)]
      exact hop

private theorem canFold_eq_true_iff {g : Graph} {n : Node} :
    g.canFold n = true ↔ n.op.isComputing = true ∧ g.inputEdges n.id ≠ [] ∧
      ∀ e ∈ g.inputEdges n.id, g.isConstant e.source.node = true := by
  simp [canFold, and_assoc]

/-- A node with `canFold` is `Foldable`. -/
private theorem foldable_of_canFold {g : Graph} {n : Node} (hn : n ∈ g.nodes.toList)
    (hfold : g.canFold n = true) : g.Foldable n.id := by
  obtain ⟨hop, hfed, hconstant⟩ := canFold_eq_true_iff.mp hfold
  apply Foldable.intro hn (OpKind.isComputing_iff.mp hop) hfed
  intro e he hnot
  rw [hconstant e he] at hnot
  cases hnot

/-- No node can be folded. -/
def NothingToFold (g : Graph) : Prop := ∀ n ∈ g.nodes.toList, g.canFold n = false

/-- Where there is `NothingToFold` at once, nothing is `Foldable`. -/
private theorem NothingToFold.not_foldable {g : Graph} (hdone : g.NothingToFold) {id : String} :
    ¬ g.Foldable id := by
  intro h
  induction h with
  | @intro n hn hop hfed _ ih =>
    -- some source is no constant, and it is in the set as well
    have hnot : ¬ g.canFold n = true := by simp [hdone n hn]
    apply hnot
    rw [canFold_eq_true_iff]
    refine ⟨OpKind.isComputing_iff.mpr hop, hfed, fun e he => ?_⟩
    cases hconstant : g.isConstant e.source.node with
    | true => rfl
    | false => exact (ih e he hconstant).elim

/-- What is `Foldable` is a node of the graph that computes. -/
private theorem Foldable.exists_node {g : Graph} {id : String} (h : g.Foldable id) :
    ∃ n ∈ g.nodes.toList, n.id = id ∧ n.op.isComputing = true := by
  cases h with
  | @intro n hn hop _ _ => exact ⟨n, hn, rfl, OpKind.isComputing_iff.mpr hop⟩

/-- A node that is `Foldable` computes. -/
theorem Foldable.isComputing {g : Graph} {n : Node} (h : g.Foldable n.id)
    (hn : n ∈ g.nodes.toList) :
    n.op.isComputing = true := by
  obtain ⟨m, hm, hid, hop⟩ := h.exists_node
  rwa [← NodeTable.eq_of_id_eq hm hn hid]

/-! ### One fold -/

section
variable {g : Graph} {n : Node} {ids : IdSource}

/-- The `foldedConstant` is there after `foldNode`. -/
private theorem foldedConstant_mem_foldNode (g : Graph) (n : Node) (ids : IdSource) :
    foldedConstant n (ids.next "const").1 ∈ (g.foldNode n ids).1.nodes.toList := by
  rw [mem_foldNode_iff]
  constructor
  · apply NodeTable.mem_of_find?
    rw [find?_replaceByConstant, if_pos rfl]
  · -- it is the one that is spared
    intro horphan
    obtain ⟨_, _, _, _, hspared, _⟩ := mem_orphanIds.mp horphan
    exact hspared rfl

/-- A node that computes and is there after `foldNode` was there before, and is not the one that was
folded. -/
private theorem mem_of_mem_foldNode {m : Node} (hm : m ∈ (g.foldNode n ids).1.nodes.toList)
    (hop : m.op ≠ .constant) : m ∈ g.nodes.toList ∧ m.id ≠ n.id := by
  cases mem_foldNode hm with
  | inl heq =>
    rw [heq] at hop
    exact absurd rfl hop
  | inr hold => exact hold

variable (hg : g.WellFormed) (hfresh : ids.FreshFor g.nodes)
include hg hfresh

/-- After `foldNode` an edge into a node that stays comes from a constant if it came from a constant
before or from the node that is folded. -/
private theorem isConstant_redirect {e : Edge} (he : e ∈ g.edges) (htarget : e.target.node ≠ n.id) :
    (g.foldNode n ids).1.isConstant (redirect n (ids.next "const").1 e).source.node = true ↔
      e.source.node = n.id ∨ g.isConstant e.source.node = true := by
  rw [redirect_source_node]
  by_cases hsource : e.source.node = n.id
  · -- the edge comes from the new constant
    rw [if_pos hsource, isConstant_eq_true_iff]
    simp only [hsource, true_or, iff_true]
    exact ⟨_, foldedConstant_mem_foldNode g n ids, rfl, rfl⟩
  · rw [if_neg hsource, isConstant_eq_true_iff, isConstant_eq_true_iff]
    simp only [hsource, false_or]
    constructor
    · intro h
      obtain ⟨k, hk, hid, hop⟩ := h
      cases mem_foldNode hk with
      | inl heq =>
        -- the source is an old id
        rw [heq] at hid
        have hsource := (hg.closed e he).1
        rw [← hid] at hsource
        exact absurd hsource (hfresh.next_not_mem "const")
      | inr hold => exact ⟨k, hold.1, hid, hop⟩
    · intro h
      obtain ⟨k, hk, hid, hop⟩ := h
      refine ⟨k, mem_foldNode_iff.mpr ⟨?_, ?_⟩, hid, hop⟩
      · rw [toList_replaceByConstant n (hfresh.next_not_mem "const")]
        simp [hk, hid, hsource]
      · -- the edge keeps the constant from being dropped
        have hkept : redirect n (ids.next "const").1 e ∈
            (g.replaceByConstant n (ids.next "const").1).edges :=
          mem_edges_replaceByConstant.mpr ⟨e, he, htarget, rfl⟩
        have hread := source_not_mem_orphanIds (ids.next "const").1 hkept
        rwa [redirect_source_node, if_neg hsource, ← hid] at hread

omit hg in
/-- `foldNode` leaves the nodes other than constants as they are and in their order, but for the one
that is folded. -/
private theorem filter_nodes_foldNode :
    (g.foldNode n ids).1.nodes.toList.filter (fun m => m.op ≠ .constant) =
      g.nodes.toList.filter fun m => m.op ≠ .constant ∧ m.id ≠ n.id := by
  show (((g.replaceByConstant n (ids.next "const").1).dropOrphans
    (ids.next "const").1).nodes.toList.filter _) = _
  rw [nodes_dropOrphans]
  show ((g.replaceByConstant n (ids.next "const").1).nodes.toList.filter _).filter _ = _
  rw [toList_replaceByConstant n (hfresh.next_not_mem "const"), List.filter_filter,
    List.filter_append, List.filter_filter]
  have hnew : [foldedConstant n (ids.next "const").1].filter (fun m => decide (m.op ≠ .constant) &&
      !((g.replaceByConstant n (ids.next "const").1).orphanIds
        (ids.next "const").1).contains m.id) = [] := by
    simp [foldedConstant]
  rw [hnew, List.append_nil]
  apply List.filter_congr
  intro m hm
  by_cases hop : m.op = .constant
  · simp [hop]
  · by_cases hid : m.id = n.id
    · simp [hid]
    · -- such a node is no orphan
      have hkept := (mem_foldNode_iff.mp (mem_foldNode_of_ne hfresh hm hid hop)).2
      simp [hop, hid, hkept]

variable (hn : n ∈ g.nodes.toList) (hfold : g.canFold n = true)
include hn hfold

/-- After `foldNode` the same nodes are `Foldable`, but for the one that was folded. -/
private theorem foldable_foldNode_iff {id : String} :
    (g.foldNode n ids).1.Foldable id ↔ g.Foldable id ∧ id ≠ n.id := by
  constructor
  · intro h
    induction h with
    | @intro m hm hop hfed _ ih =>
      obtain ⟨hold, hne⟩ := mem_of_mem_foldNode hm hop.2.2
      rw [inputEdges_foldNode hm hne] at hfed ih
      refine ⟨.intro hold hop (fun hnil => hfed (by rw [hnil, List.map_nil])) ?_, hne⟩
      intro e he hconstant
      -- the folded node is foldable itself; any other source was one after the fold
      by_cases hsource : e.source.node = n.id
      · rw [hsource]
        exact foldable_of_canFold hn hfold
      · obtain ⟨hedge, htarget⟩ := mem_inputEdges.mp he
        have hnot := mt (isConstant_redirect hg hfresh hedge (htarget ▸ hne)).mp
          (by simp [hsource, hconstant])
        have hlater := (ih _ (List.mem_map_of_mem he) (by simpa using hnot)).1
        rwa [redirect_source_node, if_neg hsource] at hlater
  · intro h
    obtain ⟨h, hne⟩ := h
    induction h with
    | @intro m hold hop hfed _ ih =>
      have hm := mem_foldNode_of_ne hfresh hold hne hop.2.2
      have hin := inputEdges_foldNode hm hne
      refine .intro hm hop (by simpa [hin] using hfed) ?_
      intro e' he' hconstant
      rw [hin] at he'
      obtain ⟨e, he, rfl⟩ := List.mem_map.mp he'
      obtain ⟨hedge, htarget⟩ := mem_inputEdges.mp he
      -- neither the folded node nor a constant of the old graph is the source
      have hnot := mt (isConstant_redirect hg hfresh hedge (htarget ▸ hne)).mpr
        (by simp [hconstant])
      rw [not_or] at hnot
      rw [redirect_source_node, if_neg hnot.1]
      exact ih e he (by simpa using hnot.2) hnot.1

omit hn hfold in
/-- The constants have no `inputEdges` after `foldNode` if they had none before. -/
private theorem inputEdges_constant_foldNode
    (hunfed : ∀ c ∈ g.nodes.toList, c.op = .constant → g.inputEdges c.id = []) :
    ∀ c ∈ (g.foldNode n ids).1.nodes.toList, c.op = .constant →
      (g.foldNode n ids).1.inputEdges c.id = [] := by
  intro c hc hop
  cases mem_foldNode hc with
  | inl heq =>
    -- no old edge leads to the new id
    rw [heq, List.eq_nil_iff_forall_not_mem]
    intro e he
    obtain ⟨hedge, htarget⟩ := mem_inputEdges.mp he
    obtain ⟨old, hold, hsame⟩ := exists_target_eq_of_foldNode hedge
    have hid := (hg.closed old hold).2
    rw [← hsame, htarget] at hid
    exact hfresh.next_not_mem "const" hid
  | inr hold =>
    rw [inputEdges_foldNode hc hold.2, hunfed c hold.1 hop, List.map_nil]

omit hg hn hfold in
/-- After `foldNode` all constants but the new one are read, if constants have no incoming edges. -/
private theorem exists_edge_of_constant_foldNode
    (hunfed : ∀ c ∈ g.nodes.toList, c.op = .constant → g.inputEdges c.id = []) :
    ∀ c ∈ (g.foldNode n ids).1.nodes.toList, c.op = .constant → c.id ≠ (ids.next "const").1 →
      ∃ e ∈ (g.foldNode n ids).1.edges, e.source.node = c.id := by
  intro c hc hop hne
  obtain ⟨hreplaced, hkept⟩ := mem_foldNode_iff.mp hc
  -- the constant is no orphan, so there is an edge out of it
  obtain ⟨e, he, hsource⟩ : ∃ e ∈ (g.replaceByConstant n (ids.next "const").1).edges,
      e.source.node = c.id := by
    by_contra hnone
    push Not at hnone
    exact hkept (mem_orphanIds.mpr ⟨c, hreplaced, rfl, hop, hne, hnone⟩)
  refine ⟨e, ?_, hsource⟩
  show e ∈ ((g.replaceByConstant n (ids.next "const").1).dropOrphans (ids.next "const").1).edges
  rw [edges_dropOrphans, List.mem_filter]
  refine ⟨he, ?_⟩
  -- and that edge does not lead to an orphan, which would be a constant with an incoming edge
  simp only [Bool.not_eq_true', List.contains_eq_mem, decide_eq_false_iff_not]
  intro horphan
  obtain ⟨k, hk, hid, hkop, hspared, _⟩ := mem_orphanIds.mp horphan
  rw [toList_replaceByConstant n (hfresh.next_not_mem "const"), List.mem_append] at hk
  cases hk with
  | inl hold =>
    obtain ⟨old, hold', _, rfl⟩ := mem_edges_replaceByConstant.mp he
    have hin : old ∈ g.inputEdges k.id := by simp [hold', hid]
    rw [hunfed k (List.mem_filter.mp hold).1 hkop] at hin
    cases hin
  | inr hnew =>
    rw [List.mem_singleton.mp hnew] at hid
    exact hspared hid.symm

end

/-! ### Runs of folds -/

/-- Folds one after the other, of any nodes that can be folded when their turn comes. -/
inductive FoldRun : Graph → IdSource → List Node → Graph → IdSource → Prop
  | done (g : Graph) (ids : IdSource) : FoldRun g ids [] g ids
  | fold {g h : Graph} {ids later : IdSource} {n : Node} {rest : List Node}
      (hn : n ∈ g.nodes.toList) (hfold : g.canFold n = true)
      (hrest : FoldRun (g.foldNode n ids).1 (g.foldNode n ids).2 rest h later) :
      FoldRun g ids (n :: rest) h later

/-- `foldConstants`, which folds the first node that qualifies until none does, is a `FoldRun`. -/
private theorem foldRun_foldConstants (g : Graph) (ids : IdSource) :
    (∃ folded, FoldRun g ids folded (g.foldConstants ids).1 (g.foldConstants ids).2) ∧
      (g.foldConstants ids).1.NothingToFold := by
  fun_induction foldConstants g ids with
  | case1 g ids hnone =>
    -- nothing was left to fold
    constructor
    · exact ⟨[], .done g ids⟩
    · intro n hn
      simpa using List.find?_eq_none.mp hnone n hn
  | case2 g ids n hfind ih =>
    obtain ⟨⟨folded, hrun⟩, hdone⟩ := ih
    -- the first node that can be folded is folded first
    constructor
    · exact ⟨n :: folded, .fold (List.mem_of_find?_eq_some hfind) (List.find?_some hfind) hrun⟩
    · exact hdone

/-- Constants stand in for the nodes that are folded: `standIn` leaves all other ids as they are,
and the nodes other than constants that are left keep their incoming edges, from what stands in for
the sources. -/
structure StandsIn (g : Graph) (folded : List Node) (h : Graph)
    (standIn : String → String) : Prop where
  id_eq : ∀ id, ¬ g.Foldable id → standIn id = id
  inputEdges_eq : ∀ m ∈ h.nodes.toList, m.op ≠ .constant → h.inputEdges m.id =
    (g.inputEdges m.id).map fun e => e.withSource (standIn e.source.node) none
  exists_constant : ∀ m ∈ h.nodes.toList, m.op ≠ .constant → ∀ n ∈ folded, g.Feeds n.id m.id →
    ∃ c ∈ h.nodes.toList, c.id = standIn n.id ∧ c.StandsInFor n

/-- What folding some nodes makes of a graph. -/
structure FoldsTo (g : Graph) (ids : IdSource) (folded : List Node) (h : Graph) (later : IdSource) :
    Prop where
  /-- Each node is folded once, and the nodes that are folded are the least set. -/
  folded_nodup : folded.Nodup
  mem_folded_iff : ∀ n, n ∈ folded ↔ n ∈ g.nodes.toList ∧ g.Foldable n.id
  /-- Each fold issues one id. -/
  issued_eq : later.issued = ids.issued + folded.length
  /-- All other nodes but constants are left, unchanged and in their order. -/
  others_eq : h.nodes.toList.filter (fun n => n.op ≠ .constant) =
    g.nodes.toList.filter fun n => n.op ≠ .constant ∧ n ∉ folded
  /-- They keep their incoming edges, with constants standing in for the nodes that are folded. -/
  exists_standIn : ∃ standIn, g.StandsIn folded h standIn

section
variable {g h : Graph} {ids later : IdSource} {folded : List Node}

/-- A `FoldRun` keeps a graph `WellFormed` and the id source fresh for it. -/
theorem FoldRun.wellFormed (hrun : FoldRun g ids folded h later) (hg : g.WellFormed)
    (hfresh : ids.FreshFor g.nodes) : h.WellFormed ∧ later.FreshFor h.nodes := by
  induction hrun with
  | done g ids => exact ⟨hg, hfresh⟩
  | fold hn _ _ ih =>
    obtain ⟨hg', hfresh'⟩ := foldNode_wellFormed hg hfresh hn
    exact ih hg' hfresh'

/-- What is there after a `FoldRun` was there before or has an id that was issued on the way. -/
private theorem FoldRun.mem_or_canIssue (hrun : FoldRun g ids folded h later) {m : Node}
    (hm : m ∈ h.nodes.toList) : m ∈ g.nodes.toList ∨ ids.CanIssue m.id := by
  induction hrun with
  | done g ids => exact Or.inl hm
  | @fold g h ids later n rest _ _ _ ih =>
    cases ih hm with
    | inl hstep =>
      -- what the first fold leaves is the constant or an old node
      cases mem_foldNode hstep with
      | inl heq =>
        rw [heq]
        exact Or.inr (ids.canIssue_next "const")
      | inr hold => exact Or.inl hold.1
    | inr hissue =>
      -- an id that can be issued later could be issued before
      have hlater : (ids.next "const").2.CanIssue m.id := hissue
      exact Or.inr hlater.of_next

/-- Where there is `NothingToFold`, no folds lead from the graph to itself. -/
private theorem foldsTo_nil (ids : IdSource) (hdone : g.NothingToFold) :
    g.FoldsTo ids [] g ids where
  folded_nodup := List.nodup_nil
  mem_folded_iff := by simp [hdone.not_foldable]
  issued_eq := by simp
  others_eq := by simp
  exists_standIn := ⟨fun id => id, fun _ _ => rfl, fun _ _ _ => (List.map_id _).symm, by simp⟩

/-- To `redirect` an edge and then have something stand in for its source is to have something stand
in for what it is redirected to. -/
private theorem withSource_redirect (standIn : String → String) (n : Node) (id : String)
    (e : Edge) :
    (redirect n id e).withSource (standIn (redirect n id e).source.node) none =
      e.withSource (standIn (if e.source.node = n.id then id else e.source.node)) none := by
  rw [redirect_source_node]
  unfold redirect
  split <;> rfl

section
variable {n : Node} {rest : List Node} (hg : g.WellFormed) (hfresh : ids.FreshFor g.nodes)
  (hn : n ∈ g.nodes.toList) (hfold : g.canFold n = true)
  (hrun : FoldRun (g.foldNode n ids).1 (g.foldNode n ids).2 rest h later)
include hg hfresh hn hfold

/-- The nodes that are folded after `foldNode` are the others that are `Foldable`. -/
private theorem mem_rest_iff
    (hrest : ∀ m, m ∈ rest ↔
      m ∈ (g.foldNode n ids).1.nodes.toList ∧ (g.foldNode n ids).1.Foldable m.id) {m : Node} :
    m ∈ rest ↔ m ∈ g.nodes.toList ∧ g.Foldable m.id ∧ m.id ≠ n.id := by
  have hstep : (g.foldNode n ids).1.Foldable m.id ↔ g.Foldable m.id ∧ m.id ≠ n.id :=
    foldable_foldNode_iff hg hfresh hn hfold
  rw [hrest m, hstep]
  constructor
  · intro h
    obtain ⟨hm, hfoldable⟩ := h
    -- a node that computes is no constant, so it was there before the fold
    have hop := OpKind.isComputing_iff.mp ((hstep.mpr hfoldable).isComputing hm)
    exact ⟨(mem_of_mem_foldNode hm hop.2.2).1, hfoldable⟩
  · intro h
    obtain ⟨hm, hfoldable, hne⟩ := h
    -- folding another node has not removed it
    have hop := OpKind.isComputing_iff.mp (hfoldable.isComputing hm)
    exact ⟨mem_foldNode_of_ne hfresh hm hne hop.2.2, hfoldable, hne⟩

include hrun

/-- What `StandsIn` after a fold and a run: the new constant for the node that is folded, and what
stands in after the run for all others. -/
private theorem StandsIn.fold {standIn : String → String}
    (hothers : ∀ m ∈ h.nodes.toList, m.op ≠ .constant → m ∈ (g.foldNode n ids).1.nodes.toList)
    (hne : ∀ k ∈ rest, k.id ≠ n.id)
    (hrest : (g.foldNode n ids).1.StandsIn rest h standIn) :
    g.StandsIn (n :: rest) h fun id =>
      standIn (if id = n.id then (ids.next "const").1 else id) := by
  have hstep : ∀ {id : String}, (g.foldNode n ids).1.Foldable id ↔ g.Foldable id ∧ id ≠ n.id :=
    foldable_foldNode_iff hg hfresh hn hfold
  -- the edges into a node that is left, as they are between the fold and the run
  have hbetween : ∀ m ∈ h.nodes.toList, m.op ≠ .constant →
      (g.foldNode n ids).1.inputEdges m.id =
        (g.inputEdges m.id).map (redirect n (ids.next "const").1) := by
    intro m hm hop
    have hm' := hothers m hm hop
    exact inputEdges_foldNode hm' (mem_of_mem_foldNode hm' hop).2
  refine ⟨?_, ?_, ?_⟩
  · intro id hid
    have hidn : id ≠ n.id := fun heq => hid (heq ▸ foldable_of_canFold hn hfold)
    rw [if_neg hidn]
    exact hrest.id_eq id fun hfoldable => hid (hstep.mp hfoldable).1
  · intro m hm hop
    rw [hrest.inputEdges_eq m hm hop, hbetween m hm hop, List.map_map]
    exact List.map_congr_left fun e _ => withSource_redirect standIn n _ e
  · intro m hm hop k hk hfeeds
    obtain ⟨e, he, hsource, htarget⟩ := hfeeds
    have hin : redirect n (ids.next "const").1 e ∈ (g.foldNode n ids).1.inputEdges m.id := by
      rw [hbetween m hm hop]
      exact List.mem_map_of_mem (mem_inputEdges.mpr ⟨he, htarget⟩)
    cases List.mem_cons.mp hk with
    | inl heq =>
      -- the node of this fold: its constant is read by an edge that is left, so it is left
      subst heq
      rw [if_pos rfl]
      -- nothing stands in for the new constant
      have hkept : standIn (ids.next "const").1 = (ids.next "const").1 := by
        apply hrest.id_eq
        intro hfoldable
        obtain ⟨old, hold, hid, _⟩ := (hstep.mp hfoldable).1.exists_node
        exact hfresh.next_not_mem "const" (hid ▸ List.mem_map_of_mem hold)
      -- the edge is still there and comes from it, so it is there, too
      have hedge : (redirect k (ids.next "const").1 e).withSource
          (standIn (redirect k (ids.next "const").1 e).source.node) none ∈ h.inputEdges m.id := by
        rw [hrest.inputEdges_eq m hm hop]
        exact List.mem_map_of_mem hin
      rw [redirect_source_node, if_pos hsource, hkept] at hedge
      obtain ⟨hg', hfresh'⟩ := foldNode_wellFormed hg hfresh hn
      have hmem := ((hrun.wellFormed hg' hfresh').1.closed _ (mem_inputEdges.mp hedge).1).1
      obtain ⟨c, hc, hid⟩ := List.mem_map.mp hmem
      have hcid : c.id = (ids.next "const").1 := hid
      refine ⟨c, hc, hcid.trans hkept.symm, ?_⟩
      -- it was made by this fold, since its id is not issued again
      cases hrun.mem_or_canIssue hc with
      | inl hold =>
        rw [NodeTable.eq_of_id_eq hold (foldedConstant_mem_foldNode g k ids) hcid]
        exact foldedConstant_standsInFor k _
      | inr hissue =>
        rw [hcid] at hissue
        exact absurd hissue (IdSource.not_canIssue_next ids "const")
    | inr hlater =>
      -- a node of a later fold: the edge out of it was not redirected by this one
      rw [if_neg (hne k hlater)]
      refine hrest.exists_constant m hm hop k hlater ⟨_, (mem_inputEdges.mp hin).1, ?_, ?_⟩
      · rw [redirect_source_node, hsource, if_neg (hne k hlater)]
      · rw [redirect_target, htarget]

/-- What a fold and then a run make of a graph, told by `FoldsTo`. -/
private theorem FoldsTo.fold
    (hrest : (g.foldNode n ids).1.FoldsTo (g.foldNode n ids).2 rest h later) :
    g.FoldsTo ids (n :: rest) h later := by
  have hmem : ∀ {m}, m ∈ rest ↔ m ∈ g.nodes.toList ∧ g.Foldable m.id ∧ m.id ≠ n.id :=
    mem_rest_iff hg hfresh hn hfold hrest.mem_folded_iff
  -- a node of the graph is the one that is folded if it has its id
  have hsame : ∀ m ∈ g.nodes.toList, m = n ↔ m.id = n.id := fun m hm =>
    ⟨congrArg Node.id, NodeTable.eq_of_id_eq hm hn⟩
  refine ⟨?_, ?_, ?_, ?_, ?_⟩
  · rw [List.nodup_cons]
    exact ⟨fun hin => (hmem.mp hin).2.2 rfl, hrest.folded_nodup⟩
  · intro m
    rw [List.mem_cons, hmem]
    constructor
    · intro h
      obtain rfl | hin := h
      · exact ⟨hn, foldable_of_canFold hn hfold⟩
      · exact ⟨hin.1, hin.2.1⟩
    · intro h
      obtain ⟨hm, hfoldable⟩ := h
      by_cases hid : m.id = n.id
      · exact Or.inl ((hsame m hm).mpr hid)
      · exact Or.inr ⟨hm, hfoldable, hid⟩
  · have hone : (g.foldNode n ids).2.issued = ids.issued + 1 := rfl
    rw [hrest.issued_eq, hone, List.length_cons]
    omega
  · -- first without the constants, then without those that were folded later
    calc h.nodes.toList.filter (fun m => m.op ≠ .constant)
        = (g.foldNode n ids).1.nodes.toList.filter (fun m => m.op ≠ .constant ∧ m ∉ rest) :=
          hrest.others_eq
      _ = ((g.foldNode n ids).1.nodes.toList.filter fun m => m.op ≠ .constant).filter
            fun m => m ∉ rest := by
          rw [List.filter_filter]
          exact List.filter_congr fun m _ => by simp [Bool.and_comm]
      _ = (g.nodes.toList.filter fun m => m.op ≠ .constant ∧ m.id ≠ n.id).filter
            fun m => m ∉ rest := by
          rw [filter_nodes_foldNode hfresh]
      _ = g.nodes.toList.filter fun m => m.op ≠ .constant ∧ m ∉ n :: rest := by
          rw [List.filter_filter]
          refine List.filter_congr fun m hm => ?_
          have hid := hsame m hm
          simp only [List.mem_cons, not_or, hid]
          rw [Bool.eq_iff_iff]
          simp only [Bool.and_eq_true, decide_eq_true_eq]
          exact ⟨fun h => ⟨h.2.1, h.2.2, h.1⟩, fun h => ⟨h.2.2, h.1, h.2.1⟩⟩
  · obtain ⟨standIn, hstands⟩ := hrest.exists_standIn
    refine ⟨_, hstands.fold hg hfresh hn hfold hrun ?_ fun k hk => (hmem.mp hk).2.2⟩
    intro m hm hop
    have hleft : m ∈ h.nodes.toList.filter (fun m => m.op ≠ .constant) := by simp [hm, hop]
    rw [hrest.others_eq] at hleft
    exact (List.mem_filter.mp hleft).1

end

/-- Every `FoldRun` that ends where there is `NothingToFold` has folded what is `Foldable`. -/
private theorem FoldRun.foldsTo (hrun : FoldRun g ids folded h later) (hg : g.WellFormed)
    (hfresh : ids.FreshFor g.nodes) (hdone : h.NothingToFold) :
    g.FoldsTo ids folded h later := by
  induction hrun with
  | done g ids => exact foldsTo_nil ids hdone
  | fold hn hfold hrest ih =>
    obtain ⟨hg', hfresh'⟩ := foldNode_wellFormed hg hfresh hn
    exact .fold hg hfresh hn hfold hrest (ih hg' hfresh' hdone)

/-- After a `FoldRun` of one fold or more all constants but the last one that was made are read, if
constants have no incoming edges. -/
private theorem FoldRun.exists_edge_of_constant (hrun : FoldRun g ids folded h later)
    (hg : g.WellFormed) (hfresh : ids.FreshFor g.nodes) (hfolded : folded ≠ [])
    (hunfed : ∀ c ∈ g.nodes.toList, c.op = .constant → g.inputEdges c.id = []) :
    ∀ c ∈ h.nodes.toList, c.op = .constant → c.id ≠ IdSource.idOf "const" later.issued →
      ∃ e ∈ h.edges, e.source.node = c.id := by
  induction hrun with
  | done g ids => exact absurd rfl hfolded
  | @fold g h ids later n rest hn hfold hrest ih =>
    -- only the last fold of the run matters
    cases hrest with
    | done => exact exists_edge_of_constant_foldNode hfresh hunfed
    | fold hn' hfold' hrest' =>
      obtain ⟨hg', hfresh'⟩ := foldNode_wellFormed hg hfresh hn
      exact ih hg' hfresh' (List.cons_ne_nil _ _) (inputEdges_constant_foldNode hg hfresh hunfed)

end

/-- Folding does not depend on the order of the folds. Take a valid graph and fresh ids.
`foldConstants`, which folds the first node that qualifies until none does, is one of the runs that
end where nothing can be folded. Each of these folds exactly the nodes that are `Foldable`, each of
them once and for one id, leaves all other nodes but constants as they are and in their order, and
leaves to these their incoming edges, with constants standing in for the nodes that were folded. And
if constants have no incoming edges and anything is folded at all, every constant that is left is
read but for the last one that was made. -/
theorem foldConstants_in_any_order {g : Graph} {ids : IdSource} (hvalid : g.validate = .ok ())
    (hfresh : ids.FreshFor g.nodes) :
    (∃ folded, FoldRun g ids folded (g.foldConstants ids).1 (g.foldConstants ids).2) ∧
      (g.foldConstants ids).1.NothingToFold ∧
      ∀ folded h later, FoldRun g ids folded h later → h.NothingToFold →
        g.FoldsTo ids folded h later ∧
          ((∀ c ∈ g.nodes.toList, c.op = .constant → g.inputEdges c.id = []) → folded ≠ [] →
            ∀ c ∈ h.nodes.toList, c.op = .constant →
              c.id ≠ IdSource.idOf "const" later.issued → ∃ e ∈ h.edges, e.source.node = c.id) := by
  have hg := validate_eq_ok_iff.mp hvalid
  obtain ⟨hrun, hdone⟩ := foldRun_foldConstants g ids
  refine ⟨hrun, hdone, fun folded h later hrun hdone => ⟨hrun.foldsTo hg hfresh hdone, ?_⟩⟩
  intro hunfed hfolded
  exact hrun.exists_edge_of_constant hg hfresh hfolded hunfed

/-- A dense layer whose weights are the product of a constant and its activation. -/
def nestedLayer : Graph where
  id := "g_1"
  nodes :=
    ⟨[layerNode "x_2" .input 0, layerNode "w_3" .constant 0, layerNode "k_4" .mul 2,
      layerNode "r_5" .relu 1, layerNode "m_6" .matMul 2, layerNode "y_7" .output 1], by decide⟩
  edges :=
    [layerEdge "e_8" "w_3" "k_4" 0, layerEdge "e_9" "r_5" "k_4" 1, layerEdge "e_10" "w_3" "r_5" 0,
     layerEdge "e_11" "x_2" "m_6" 0, layerEdge "e_12" "k_4" "m_6" 1, layerEdge "e_13" "m_6" "y_7" 0]

/-- In `nestedLayer` the product can be folded only after the activation that it reads. -/
theorem foldConstants_nestedLayer_in_any_order :
    nestedLayer.validate = .ok () ∧ IdSource.FreshFor ⟨13⟩ nestedLayer.nodes ∧
      (∀ c ∈ nestedLayer.nodes.toList, c.op = .constant → nestedLayer.inputEdges c.id = []) ∧
      nestedLayer.canFold (layerNode "k_4" .mul 2) = false ∧
      ∃ folded,
        FoldRun nestedLayer ⟨13⟩ folded (nestedLayer.foldConstants ⟨13⟩).1
          (nestedLayer.foldConstants ⟨13⟩).2 ∧
        nestedLayer.FoldsTo ⟨13⟩ folded (nestedLayer.foldConstants ⟨13⟩).1
          (nestedLayer.foldConstants ⟨13⟩).2 ∧
        layerNode "r_5" .relu 1 ∈ folded ∧ layerNode "k_4" .mul 2 ∈ folded ∧
        ∀ c ∈ (nestedLayer.foldConstants ⟨13⟩).1.nodes.toList, c.op = .constant →
          c.id ≠ IdSource.idOf "const" (nestedLayer.foldConstants ⟨13⟩).2.issued →
            ∃ e ∈ (nestedLayer.foldConstants ⟨13⟩).1.edges, e.source.node = c.id := by
  -- the activation was put in after the product that it feeds
  have hvalid : nestedLayer.validate = .ok () :=
    validate_of_rank (fun id => ["x_2", "w_3", "r_5", "k_4", "m_6", "y_7"].idxOf id) rfl (by decide)
  have hfresh : IdSource.FreshFor ⟨13⟩ nestedLayer.nodes := by
    have hids : nestedLayer.nodes.ids = [("x", 2), ("w", 3), ("k", 4), ("r", 5), ("m", 6),
        ("y", 7)].map fun entry => IdSource.idOf entry.1 entry.2 := by decide
    exact IdSource.freshFor_of_issued hids (by decide)
  have hunfed : ∀ c ∈ nestedLayer.nodes.toList, c.op = .constant →
      nestedLayer.inputEdges c.id = [] := by decide
  have hactivation : nestedLayer.Foldable "r_5" :=
    foldable_of_canFold (n := layerNode "r_5" .relu 1) (by decide) (by decide)
  have hproduct : nestedLayer.Foldable "k_4" := by
    refine .intro (n := layerNode "k_4" .mul 2) (by decide) (by decide) (by decide) ?_
    intro e he hconstant
    -- the other source is a constant
    have hsource : e.source.node = "r_5" := by
      revert e
      decide
    rwa [hsource]
  obtain ⟨⟨folded, hrun⟩, hdone, hany⟩ := foldConstants_in_any_order hvalid hfresh
  obtain ⟨hfolds, hread⟩ := hany folded _ _ hrun hdone
  have hmem : layerNode "r_5" .relu 1 ∈ folded :=
    (hfolds.mem_folded_iff _).mpr ⟨by decide, hactivation⟩
  exact ⟨hvalid, hfresh, hunfed, by decide, folded, hrun, hfolds, hmem,
    (hfolds.mem_folded_iff _).mpr ⟨by decide, hproduct⟩, hread hunfed (List.ne_nil_of_mem hmem)⟩

end Graph

end TensorGraph
