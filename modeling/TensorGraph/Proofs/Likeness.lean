import TensorGraph.Proofs.FusionRun
import TensorGraph.Proofs.Passes
import TensorGraph.Proofs.RecastPasses
import TensorGraph.Proofs.RecastPlan

/-!
# Passes on graphs that are alike

Two graphs are alike if one is the other under other ids and with other remarks, as far as a
likeness allows (`Likeness.Alike`). What a likeness allows has to go together with the remarks that
passes make: constants and fused nodes come in with the same annotations on both sides, and a plan
notes the same placement under the other id.

A pass on two graphs that are alike fails on both or leaves graphs that are alike, provided that the
two id sources issue ids that correspond (`Likeness.Alike.apply`). The transformations that loop are
followed step by step: both sides fold the same node next (`Alike.foldConstants`) and fuse the same
chain next (`Alike.fuseWithin`).
-/

namespace TensorGraph

/-! ### Equations of the loops -/

namespace Graph

/-- `foldConstants` stops where no node can be folded. -/
private theorem foldConstants_of_none {g : Graph} {ids : IdSource}
    (h : g.nodes.toList.find? g.canFold = none) : g.foldConstants ids = (g, ids) := by
  unfold foldConstants
  split
  · rfl
  · rename_i n hn
    rw [h] at hn
    cases hn

/-- `foldConstants` folds the first node that can be folded and goes on. -/
private theorem foldConstants_of_some {g : Graph} {ids : IdSource} {n : Node}
    (h : g.nodes.toList.find? g.canFold = some n) :
    g.foldConstants ids = (g.foldNode n ids).1.foldConstants (g.foldNode n ids).2 := by
  rw [foldConstants]
  split
  · rename_i hnone
    -- there is a node to fold
    rw [h] at hnone
    cases hnone
  · rename_i m hm
    rw [h] at hm
    cases hm
    rfl

/-! ### What becomes of annotations -/

/-- `inferTypes` leaves annotations and metadata alone, whether the graph is well formed or not. -/
private theorem annotations_of_inferTypes {g h : Graph} (hok : g.inferTypes = .ok h) :
    h.metadata = g.metadata ∧
      ∀ m ∈ h.nodes.toList, ∃ n ∈ g.nodes.toList, n.id = m.id ∧ n.annotations = m.annotations := by
  -- nodes are replaced one by one, each by a copy of a node of the graph with other ports
  suffices hall : ∀ (order : List Node) (s last : Typing), (∀ n ∈ order, n ∈ g.nodes.toList) →
      (∀ m ∈ s.nodes.toList, ∃ n ∈ g.nodes.toList, n.id = m.id ∧ n.annotations = m.annotations) →
      Typing.run g s order = .ok last →
      ∀ m ∈ last.nodes.toList, ∃ n ∈ g.nodes.toList, n.id = m.id ∧ n.annotations = m.annotations by
    obtain ⟨last, hrun, hlast⟩ := exists_of_bind_eq_ok hok
    cases hlast
    refine ⟨rfl, hall g.topologicalOrder _ last ?_ (fun m hm => ⟨m, hm, rfl, rfl⟩) hrun⟩
    exact fun n hn => g.topologicalOrder_perm.mem_iff.mp hn
  intro order
  induction order with
  | nil =>
    intro s last _ hs hrun
    cases hrun
    exact hs
  | cons n rest ih =>
    intro s last horder hs hrun
    obtain ⟨hn, hrest⟩ := List.forall_mem_cons.mp horder
    obtain ⟨next, hnext, hrun⟩ := exists_of_bind_eq_ok hrun
    refine ih next last hrest ?_ hrun
    obtain ⟨m, hid, hannotations, _, hnodes⟩ := Typing.step_eq_ok hnext
    intro k hk
    rw [hnodes] at hk
    obtain ⟨k₀, hk₀, rfl⟩ := List.mem_map.mp hk
    split
    · exact ⟨n, hn, hid.symm, hannotations.symm⟩
    · exact hs k₀ hk₀

/-- The nodes after `foldNode` are the constant and old ones with other ids. -/
private theorem mem_of_foldNode {g : Graph} {n m : Node} {ids : IdSource}
    (hm : m ∈ (g.foldNode n ids).1.nodes.toList) :
    m = foldedConstant n (ids.next "const").1 ∨
      m ∈ g.nodes.toList ∧ m.id ≠ (ids.next "const").1 := by
  have hreplaced := (mem_foldNode_iff.mp hm).1
  refine (NodeTable.mem_insert.mp hreplaced).imp_right fun hold => ?_
  exact ⟨(NodeTable.mem_toList_filter.mp hold.1).1, hold.2⟩

/-- The nodes after `fuseChain` are the new one, with its own remarks, and old ones with
other ids. -/
private theorem mem_of_fuseChain {g h : Graph} {chain : List Node} {pattern : FusionPattern}
    {ids : IdSource} (hok : (g.fuseChain chain pattern ids).1 = .ok h) :
    h.metadata = g.metadata ∧ ∀ m ∈ h.nodes.toList,
      (m.id = (ids.next "fused").1 ∧ m.annotations = Recasting.fusedRemarks chain pattern) ∨
        m ∈ g.nodes.toList ∧ m.id ≠ (ids.next "fused").1 := by
  unfold fuseChain at hok
  split at hok
  · -- the fused node comes in for the chain, and the others stay
    obtain ⟨c, name, _, _, rfl⟩ := contract_eq_ok hok
    refine ⟨rfl, fun m hm => ?_⟩
    cases NodeTable.mem_insert.mp hm with
    | inl hnew => exact Or.inl (hnew ▸ ⟨rfl, rfl⟩)
    | inr hold => exact Or.inr ⟨(NodeTable.mem_toList_filter.mp hold.1).1, hold.2⟩
  · cases hok

end Graph

/-- `byNode` finds a placement under its own node. -/
private theorem MemoryPlan.node_eq_of_get?_byNode {plan : MemoryPlan} {id : String} {a : Placement}
    (h : plan.byNode.get? id = some a) : a.node = id := by
  -- every entry is filed under its own node, those from before among them
  suffices hall : ∀ (placements : List Placement) (d : Dict Placement),
      (∀ id a, d.get? id = some a → a.node = id) → ∀ id a,
        (d.setAll (placements.map fun a => (a.node, a))).get? id = some a → a.node = id from
    hall plan.placements Dict.empty (fun _ _ h => nomatch h) id a h
  intro placements
  induction placements with
  | nil => exact fun _ hd => hd
  | cons b rest ih =>
    intro d hd
    refine ih (d.set b.node b) fun id a hget => ?_
    rw [Dict.get?_set] at hget
    split at hget
    · rename_i hid
      cases hget
      exact hid.symm
    · exact hd id a hget

/-! ### Likeness -/

/-- Annotations that say nothing about memory. -/
def Dict.Unplaced (annotations : Dict Annotation) : Prop :=
  ∀ entry ∈ annotations.entries, ∀ a, entry.2 ≠ .memory a

/-- What may differ between two graphs: the ids of nodes, by a renaming, the annotations of a node
with a given id, and the metadata. Whatever passes note on both sides is allowed. -/
structure Likeness where
  ids : String ↪ String
  remarks : String → Dict Annotation → Dict Annotation → Prop
  metadata : Metadata → Metadata → Prop
  remarks_unplaced : ∀ id annotations, annotations.Unplaced → remarks id annotations annotations
  remarks_placed : ∀ id annotations others (a : Placement), remarks id annotations others →
    a.node = id →
    remarks id (annotations.set "memory" (.memory a)) (others.set "memory" (.memory (a.rename ids)))
  metadata_planned : ∀ m other summary, metadata m other →
    metadata { m with memoryPlan := some summary } { other with memoryPlan := some summary }
  metadata_recorded : ∀ m other record, metadata m other →
    metadata { m with history := m.history ++ [record] }
      { other with history := other.history ++ [record] }

namespace Likeness

variable (L : Likeness)

/-- A recasting gives the nodes of a graph the ids of the likeness, and remarks and metadata that it
allows. -/
structure Fits (M : Recasting) (g : Graph) : Prop where
  ids_eq : M.ids = L.ids
  remarks : ∀ n ∈ g.nodes.toList, L.remarks n.id n.annotations (M.remarks n.id)
  metadata : L.metadata g.metadata M.metadata

/-- The second graph is the first one under other ids and with other remarks that are allowed. -/
def Alike (g h : Graph) : Prop := ∃ M, L.Fits M g ∧ h = M.graph g

/-- The ids that two sources have still to issue correspond. -/
def Follows (s t : IdSource) : Prop :=
  ∀ stem k, L.ids (IdSource.idOf stem (s.issued + k + 1)) = IdSource.idOf stem (t.issued + k + 1)

variable {L}

private theorem Follows.next_eq {s t : IdSource} (h : L.Follows s t) (stem : String) :
    (t.next stem).1 = L.ids (s.next stem).1 := (h stem 0).symm

/-- Two sources with `Follows` still correspond when both have issued one more id. -/
theorem Follows.next {s t : IdSource} (h : L.Follows s t) (stem : String) :
    L.Follows (s.next stem).2 (t.next stem).2 := by
  intro other k
  have hlater := h other (k + 1)
  simp only [IdSource.next]
  rw [show s.issued + 1 + k + 1 = s.issued + (k + 1) + 1 by omega,
    show t.issued + 1 + k + 1 = t.issued + (k + 1) + 1 by omega]
  exact hlater

/-- A recasting `Fits` a graph whose nodes have the ids and annotations of nodes that it fits. -/
private theorem Fits.of_nodes {M : Recasting} {g k : Graph} (h : L.Fits M g)
    (hnodes : ∀ m ∈ k.nodes.toList, ∃ n ∈ g.nodes.toList, n.id = m.id ∧
      n.annotations = m.annotations)
    (hmetadata : k.metadata = g.metadata) : L.Fits M k where
  ids_eq := h.ids_eq
  remarks := by
    intro m hm
    obtain ⟨n, hn, hid, hannotations⟩ := hnodes m hm
    rw [← hid, ← hannotations]
    exact h.remarks n hn
  metadata := by
    rw [hmetadata]
    exact h.metadata

/-- A recasting with `noting` the annotations of a node that came in `Fits` the graph with that
node. -/
theorem Fits.noting {M : Recasting} {g k : Graph} (h : L.Fits M g) {id : String}
    {annotations : Dict Annotation} (hunplaced : annotations.Unplaced)
    (hnodes : ∀ m ∈ k.nodes.toList, (m.id = id ∧ m.annotations = annotations) ∨
      m ∈ g.nodes.toList ∧ m.id ≠ id)
    (hmetadata : k.metadata = g.metadata) : L.Fits (M.noting id annotations) k where
  ids_eq := h.ids_eq
  remarks := by
    intro m hm
    simp only [Recasting.noting]
    cases hnodes m hm with
    | inl hnew =>
      -- the newcomer has its own annotations, and no placement among them
      rw [if_pos hnew.1, hnew.2]
      exact L.remarks_unplaced m.id annotations hunplaced
    | inr hold =>
      rw [if_neg hold.2]
      exact h.remarks m hold.1
  metadata := by
    rw [hmetadata]
    exact h.metadata

/-! ### Transformations -/

/-- `inferTypes` fails on two graphs that are `Alike` for the same cause, or leaves them alike. -/
theorem Alike.inferTypes {g h : Graph} (halike : L.Alike g h) :
    Agree L.ids L.Alike g.inferTypes h.inferTypes := by
  obtain ⟨M, hfits, rfl⟩ := halike
  rw [M.inferTypes_graph]
  cases hok : g.inferTypes with
  | error cause => exact .error (.same cause)
  | ok k =>
    obtain ⟨hmetadata, hnodes⟩ := Graph.annotations_of_inferTypes hok
    exact .ok ⟨M, hfits.of_nodes hnodes hmetadata, rfl⟩

theorem Alike.dropDead {g h : Graph} (halike : L.Alike g h) : L.Alike g.dropDead h.dropDead := by
  obtain ⟨M, hfits, rfl⟩ := halike
  refine ⟨M, hfits.of_nodes (fun m hm => ?_) rfl, M.dropDead_graph g⟩
  exact ⟨m, (NodeTable.mem_toList_filter.mp hm).1, rfl, rfl⟩

/-- `foldNode` leaves graphs `Alike`. -/
theorem Alike.foldNode {M : Recasting} {g : Graph} (hfits : L.Fits M g) (n : Node) {s t : IdSource}
    (hids : L.Follows s t) : L.Alike (g.foldNode n s).1 ((M.graph g).foldNode (M.node n) t).1 := by
  -- the constants get ids that correspond
  have hnext : (t.next "const").1 = M.ids (s.next "const").1 := by
    rw [hfits.ids_eq]
    exact hids.next_eq "const"
  refine ⟨_, hfits.noting ?_ ?_ rfl, M.foldNode_graph g n hnext⟩
  · -- what is noted at a constant is no placement
    intro entry hentry a
    rw [List.mem_singleton.mp hentry]
    exact nofun
  · intro m hm
    cases Graph.mem_of_foldNode hm with
    | inl heq =>
      rw [heq]
      exact Or.inl ⟨rfl, rfl⟩
    | inr hold => exact Or.inr hold

/-- `foldConstants` leaves graphs `Alike`: both sides fold the same node next, until there is
none. -/
theorem Alike.foldConstants {g h : Graph} {s t : IdSource} (halike : L.Alike g h)
    (hids : L.Follows s t) :
    L.Alike (g.foldConstants s).1 (h.foldConstants t).1 ∧
      L.Follows (g.foldConstants s).2 (h.foldConstants t).2 := by
  -- the recursion is that of the first side, and the second takes the same turn by its equations
  fun_induction Graph.foldConstants g s generalizing h t with
  | case1 g s hnone =>
    obtain ⟨M, hfits, rfl⟩ := halike
    have hnone' := M.find?_canFold_graph g
    rw [hnone] at hnone'
    rw [Graph.foldConstants_of_none hnone']
    exact ⟨⟨M, hfits, rfl⟩, hids⟩
  | case2 g s n hsome ih =>
    obtain ⟨M, hfits, rfl⟩ := halike
    have hsome' := M.find?_canFold_graph g
    rw [hsome] at hsome'
    rw [Graph.foldConstants_of_some hsome']
    exact ih (Alike.foldNode hfits n hids) (hids.next "const")

private theorem Alike.length_edges {g h : Graph} (halike : L.Alike g h) :
    h.edges.length = g.edges.length := by
  obtain ⟨M, _, rfl⟩ := halike
  exact List.length_map _

theorem Alike.relabelLimit {g h : Graph} (halike : L.Alike g h) :
    h.relabelLimit = g.relabelLimit := by
  obtain ⟨M, _, rfl⟩ := halike
  simp only [Graph.relabelLimit, Recasting.graph, Recasting.size_table]

/-- `fuseChain` fails on two graphs that are `Alike` for the same cause, or leaves them alike. -/
theorem Alike.fuseChain {M : Recasting} {g : Graph} (hfits : L.Fits M g) {chain : List Node}
    (hchain : ∀ n ∈ chain, n ∈ g.nodes.toList) (pattern : FusionPattern) {s t : IdSource}
    (hids : L.Follows s t) :
    Agree L.ids L.Alike (g.fuseChain chain pattern s).1
        ((M.graph g).fuseChain (chain.map M.node) pattern t).1 ∧
      L.Follows (g.fuseChain chain pattern s).2
        ((M.graph g).fuseChain (chain.map M.node) pattern t).2 := by
  constructor
  · have hnext : (t.next "fused").1 = M.ids (s.next "fused").1 := by
      rw [hfits.ids_eq]
      exact hids.next_eq "fused"
    rw [M.fuseChain_graph hchain pattern hnext]
    cases hok : (g.fuseChain chain pattern s).1 with
    | error cause => exact .error (.same cause)
    | ok k =>
      obtain ⟨hmetadata, hnodes⟩ := Graph.mem_of_fuseChain hok
      refine .ok ⟨_, hfits.noting ?_ hnodes hmetadata, rfl⟩
      intro entry hentry a
      simp only [Recasting.fusedRemarks, List.mem_cons, List.not_mem_nil, or_false] at hentry
      rcases hentry with rfl | rfl <;> exact nofun
  · -- an id is issued on both sides or on none
    unfold Graph.fuseChain
    rw [List.head?_map, List.getLast?_map]
    cases chain.head? with
    | none => exact hids
    | some first =>
      cases chain.getLast? with
      | none => exact hids
      | some last => exact hids.next "fused"

/-- On graphs that are `Alike`, where `firstMatch` finds a chain on one side it finds the same chain
on the other. -/
private theorem Alike.fuse_next {patterns : List FusionPattern} {pattern : FusionPattern}
    {chain : List Node} {g h : Graph} {s t : IdSource} (halike : L.Alike g h) (hids : L.Follows s t)
    (hmatch : g.firstMatch patterns = .ok (some (pattern, chain))) :
    ∃ chain', h.firstMatch patterns = .ok (some (pattern, chain')) ∧
      Agree L.ids L.Alike (g.fuseChain chain pattern s).1 (h.fuseChain chain' pattern t).1 ∧
      L.Follows (g.fuseChain chain pattern s).2 (h.fuseChain chain' pattern t).2 := by
  obtain ⟨M, hfits, rfl⟩ := halike
  have hmatch' := M.firstMatch_graph (g := g) patterns
  rw [hmatch] at hmatch'
  exact ⟨_, hmatch', Alike.fuseChain hfits (Graph.firstMatch_unbranched hmatch).mem_nodes
    pattern hids⟩

/-- On graphs that are `Alike`, where `fuseChain` fuses a chain on one side it fuses the same chain
on the other, with the same effect on the number of edges. -/
private theorem Alike.fuse_step {patterns : List FusionPattern} {pattern : FusionPattern}
    {chain : List Node} {g h next : Graph} {s t : IdSource} (halike : L.Alike g h)
    (hids : L.Follows s t) (hmatch : g.firstMatch patterns = .ok (some (pattern, chain)))
    (hfuse : (g.fuseChain chain pattern s).1 = .ok next) :
    ∃ chain' next', h.firstMatch patterns = .ok (some (pattern, chain')) ∧
      (h.fuseChain chain' pattern t).1 = .ok next' ∧ L.Alike next next' ∧
      L.Follows (g.fuseChain chain pattern s).2 (h.fuseChain chain' pattern t).2 ∧
      (next'.edges.length < h.edges.length ↔ next.edges.length < g.edges.length) := by
  obtain ⟨chain', hmatch', hagree, hids'⟩ := halike.fuse_next hids hmatch
  rw [hfuse] at hagree
  obtain ⟨next', hfuse', hnext⟩ := hagree.exists_ok
  have hless : next'.edges.length < h.edges.length ↔ next.edges.length < g.edges.length := by
    rw [hnext.length_edges, halike.length_edges]
  exact ⟨chain', next', hmatch', hfuse', hnext, hids', hless⟩

/-- `fuseWithin` leaves graphs `Alike`: both sides fuse the same chain next, until there is none or
the budget is used up. -/
theorem Alike.fuseWithin (patterns : List FusionPattern) {g h : Graph} {s t : IdSource}
    (budget : Nat) (halike : L.Alike g h) (hids : L.Follows s t) :
    Agree L.ids L.Alike (Graph.fuseWithin patterns g s budget).1
        (Graph.fuseWithin patterns h t budget).1 ∧
      L.Follows (Graph.fuseWithin patterns g s budget).2
        (Graph.fuseWithin patterns h t budget).2 := by
  -- as with folding; that both sides lose edges at the same steps keeps the budgets equal
  fun_induction Graph.fuseWithin patterns g s budget generalizing h t with
  | case1 g s budget cause hmatch =>
    obtain ⟨M, hfits, rfl⟩ := halike
    have hmatch' := M.firstMatch_graph (g := g) patterns
    rw [hmatch] at hmatch'
    rw [Graph.fuseWithin_of_error budget hmatch']
    exact ⟨.error (.same cause), hids⟩
  | case2 g s budget hmatch =>
    obtain ⟨M, hfits, rfl⟩ := halike
    have hmatch' := M.firstMatch_graph (g := g) patterns
    rw [hmatch] at hmatch'
    rw [Graph.fuseWithin_of_none budget hmatch']
    exact ⟨.ok ⟨M, hfits, rfl⟩, hids⟩
  | case3 g s budget pattern chain hmatch cause hfuse =>
    obtain ⟨chain', hmatch', hagree, hids'⟩ := halike.fuse_next hids hmatch
    rw [hfuse] at hagree
    obtain ⟨cause', hfuse', hcause⟩ := hagree.exists_error
    rw [Graph.fuseWithin_of_fails budget hmatch' hfuse']
    exact ⟨.error hcause, hids'⟩
  | case4 g s budget pattern chain hmatch next hfuse hlt ih =>
    obtain ⟨chain', next', hmatch', hfuse', hnext, hids', hless⟩ :=
      halike.fuse_step hids hmatch hfuse
    rw [(Graph.fuseWithin_of_fuses budget hmatch' hfuse').1 (hless.mpr hlt), hnext.relabelLimit]
    exact ih hnext hids'
  | case5 g s pattern chain hmatch next hfuse hlt =>
    obtain ⟨chain', next', hmatch', hfuse', hnext, hids', hless⟩ :=
      halike.fuse_step hids hmatch hfuse
    rw [((Graph.fuseWithin_of_fuses 0 hmatch' hfuse').2 (hless.not.mpr hlt)).1]
    exact ⟨.ok hnext, hids'⟩
  | case6 g s pattern chain hmatch next hfuse hlt left ih =>
    obtain ⟨chain', next', hmatch', hfuse', hnext, hids', hless⟩ :=
      halike.fuse_step hids hmatch hfuse
    rw [((Graph.fuseWithin_of_fuses left hmatch' hfuse').2 (hless.not.mpr hlt)).2]
    exact ih hnext hids'

/-- `withPlan` notes a plan on one of two graphs that are `Alike`, and the plan under other ids on
the other. -/
theorem Alike.withPlan {g h : Graph} (halike : L.Alike g h) {plan plan' : MemoryPlan}
    (hplan : plan' = plan.rename L.ids) : L.Alike (g.withPlan plan) (h.withPlan plan') := by
  obtain ⟨M, hfits, rfl⟩ := halike
  refine ⟨M.planning plan, ⟨hfits.ids_eq, fun m hm => ?_, ?_⟩, ?_⟩
  · obtain ⟨n, hn, rfl⟩ := List.mem_map.mp hm
    have hremarks := hfits.remarks n hn
    simp only [Recasting.planning]
    cases hplaced : plan.byNode.get? n.id with
    | none => simpa [hplaced] using hremarks
    | some a =>
      -- the placement is one of this node, so it names the node by its other id on the other side
      have hnode := MemoryPlan.node_eq_of_get?_byNode hplaced
      have hset := L.remarks_placed n.id _ _ a hremarks hnode
      rw [← hfits.ids_eq] at hset
      simpa [hplaced, Node.annotate, Dict.setAll] using hset
  · exact L.metadata_planned g.metadata M.metadata plan.summary hfits.metadata
  · rw [hplan, ← hfits.ids_eq]
    exact M.withPlan_graph g plan

/-- `MemoryPlan.compute` gives graphs that are `Alike` the same plan, under the other ids. -/
theorem Alike.compute {g h : Graph} (halike : L.Alike g h) (alignment : Alignment) (reuse : Bool) :
    Agree L.ids (fun plan plan' => plan' = plan.rename L.ids) (MemoryPlan.compute g alignment reuse)
      (MemoryPlan.compute h alignment reuse) := by
  obtain ⟨M, hfits, rfl⟩ := halike
  rw [← hfits.ids_eq]
  exact M.compute_graph g alignment reuse

/-! ### Passes -/

/-- `Pass.apply` on two graphs that are `Alike` fails on both for the same cause or leaves graphs
that are alike. -/
theorem Alike.apply {g h : Graph} {s t : IdSource} (halike : L.Alike g h) (hids : L.Follows s t)
    (p : Pass) :
    Agree L.ids L.Alike (p.apply g s).1 (p.apply h t).1 ∧
      L.Follows (p.apply g s).2 (p.apply h t).2 := by
  cases p with
  | inferTypes => exact ⟨halike.inferTypes, hids⟩
  | foldConstants =>
    -- folding cannot fail
    obtain ⟨hfolded, hids'⟩ := halike.foldConstants hids
    exact ⟨.ok hfolded, hids'⟩
  | dropDead => exact ⟨.ok halike.dropDead, hids⟩
  | fuse patterns =>
    have hfuse := halike.fuseWithin patterns g.relabelLimit hids
    -- both have the same limit, as it counts edges and not ids
    show Agree L.ids L.Alike _ (Graph.fuseWithin patterns h t h.relabelLimit).1 ∧
      L.Follows _ (Graph.fuseWithin patterns h t h.relabelLimit).2
    rw [halike.relabelLimit]
    exact hfuse
  | planMemory alignment reuse =>
    exact ⟨(halike.compute alignment reuse).map fun _ _ => halike.withPlan, hids⟩

/-- `recordPass` leaves graphs `Alike`. -/
theorem Alike.recordPass {g h : Graph} (halike : L.Alike g h) (record : PassRecord) :
    L.Alike (g.recordPass record) (h.recordPass record) := by
  obtain ⟨M, hfits, rfl⟩ := halike
  refine ⟨{ M with metadata := { M.metadata with history := M.metadata.history ++ [record] } },
    ⟨hfits.ids_eq, hfits.remarks, ?_⟩, rfl⟩
  exact L.metadata_recorded g.metadata M.metadata record hfits.metadata

end Likeness

/-! ### Pipelines -/

/-- `Pass.run` on a `WellFormed` graph applies the pass and records it. -/
theorem Pass.run_eq (p : Pass) {g : Graph} (hg : g.WellFormed) (timestamp : Datum)
    (ids : IdSource) :
    p.run g timestamp ids =
      ((p.apply g ids).1.map (·.recordPass (p.record timestamp)), (p.apply g ids).2) := by
  simp only [Pass.run, Graph.validate_eq_ok_iff.mpr hg]

/-- On a `WellFormed` graph `runPasses` applies and records the first pass, and goes on from
there. -/
theorem runPasses_cons (clock : Nat → Datum) (start : Nat) (p : Pass) (rest : List Pass) {g : Graph}
    (hg : g.WellFormed) (ids : IdSource) :
    (runPasses clock start g ids (p :: rest)).1 = (p.apply g ids).1 >>= fun next =>
      (runPasses clock (start + 1) (next.recordPass (p.record (clock start)))
        (p.apply g ids).2 rest).1.map
        (⟨p, next.recordPass (p.record (clock start))⟩ :: ·) := by
  simp only [runPasses, p.run_eq hg]
  cases (p.apply g ids).1 with
  | error cause => rfl
  | ok next =>
    -- the results go side by side, or the failures do
    show _ = Except.map _ (runPasses clock (start + 1) (next.recordPass _) (p.apply g ids).2 rest).1
    simp only [Except.map]
    cases runPasses clock (start + 1) (next.recordPass (p.record (clock start)))
      (p.apply g ids).2 rest with
    | mk results later => cases results <;> rfl

/-- `runPasses` leaves the states of two graphs alike, pass by pass, if the graphs are `Alike`. -/
theorem Likeness.Alike.runPasses {L : Likeness} (clock : Nat → Datum) (passes : List Pass)
    (start : Nat) {g h : Graph} {s t : IdSource} (halike : L.Alike g h) (hids : L.Follows s t)
    (hg : g.WellFormed) (hs : s.FreshFor g.nodes) (hh : h.WellFormed) (ht : t.FreshFor h.nodes) :
    Agree L.ids (List.Forall₂ fun r r' => r'.pass = r.pass ∧ L.Alike r.graph r'.graph)
      (TensorGraph.runPasses clock start g s passes).1
      (TensorGraph.runPasses clock start h t passes).1 := by
  induction passes generalizing start g h s t with
  | nil => exact .ok .nil
  | cons p rest ih =>
    obtain ⟨hagree, hids'⟩ := halike.apply hids p
    rw [runPasses_cons clock start p rest hg, runPasses_cons clock start p rest hh]
    cases happly : (p.apply g s).1 with
    | error cause =>
      rw [happly] at hagree
      obtain ⟨cause', hcause', hrenames⟩ := hagree.exists_error
      rw [hcause']
      exact .error hrenames
    | ok k =>
      rw [happly] at hagree
      obtain ⟨k', hk', hnext⟩ := hagree.exists_ok
      rw [hk']
      -- both sides hand a well-formed graph and a fresh source to the rest
      obtain ⟨hwf, hfresh⟩ := Pass.apply_wellFormed hg hs happly
      obtain ⟨hwf', hfresh'⟩ := Pass.apply_wellFormed hh ht hk'
      have hrecorded := hnext.recordPass (p.record (clock start))
      have hrest := ih (start + 1) hrecorded hids' (Pass.recordPass_wellFormed hwf _) hfresh
        (Pass.recordPass_wellFormed hwf' _) hfresh'
      exact hrest.map fun _ _ hresults => .cons ⟨rfl, hrecorded⟩ hresults

end TensorGraph
