import TensorGraph.Pipeline
import TensorGraph.Proofs.Lists
import TensorGraph.Proofs.Placement
import TensorGraph.Proofs.Recasting

/-!
# Memory plans under other ids and with other remarks

The needs of a recast graph are those of the graph under the other ids
(`Recasting.bufferNeeds_graph`). Buffers are placed in the same order, at the same offsets and under
the same tags, so the plan is the same but for the ids (`Recasting.compute_graph`), and it is noted
at the same nodes (`Recasting.withPlan_graph`). A plan that fails does so in both cases; where the
cause names a node it names the same one under its other id.
-/

namespace TensorGraph

/-! ### Computations that agree -/

/-- The same cause, but for the id of a node that has no buffer. -/
inductive Error.Renames (ids : String ↪ String) : Error → Error → Prop
  | same (cause : Error) : Renames ids cause cause
  | noBuffer (id : String) : Renames ids (.noBuffer id) (.noBuffer (ids id))

/-- Two computations succeed with results that belong together, or fail for the same cause. -/
inductive Agree {α β : Type} (ids : String ↪ String) (r : α → β → Prop) :
    Except Error α → Except Error β → Prop
  | ok {a : α} {b : β} (h : r a b) : Agree ids r (.ok a) (.ok b)
  | error {cause cause' : Error} (h : cause.Renames ids cause') :
    Agree ids r (.error cause) (.error cause')

namespace Agree

variable {α β γ δ : Type} {ids : String ↪ String} {r : α → β → Prop} {q : γ → δ → Prop}

/-- If two computations `Agree` and the first succeeds, so does the second. -/
theorem exists_ok {a : α} {y : Except Error β} (h : Agree ids r (.ok a) y) :
    ∃ b, y = .ok b ∧ r a b := by
  cases h with
  | ok hr => exact ⟨_, rfl, hr⟩

/-- If two computations `Agree` and the first fails, so does the second, for the same cause. -/
theorem exists_error {cause : Error} {y : Except Error β} (h : Agree ids r (.error cause) y) :
    ∃ cause', y = .error cause' ∧ cause.Renames ids cause' := by
  cases h with
  | error hcause => exact ⟨_, rfl, hcause⟩

/-- Computations in turn `Agree` if each does, given results that belong together. -/
theorem bind {x : Except Error α} {y : Except Error β} {f : α → Except Error γ}
    {k : β → Except Error δ} (h : Agree ids r x y)
    (hnext : ∀ a b, r a b → Agree ids q (f a) (k b)) : Agree ids q (x >>= f) (y >>= k) := by
  cases h with
  | ok hr => exact hnext _ _ hr
  | error hcause => exact .error hcause

/-- Computations still `Agree` when their results are mapped to what belongs together. -/
theorem map {x : Except Error α} {y : Except Error β} {f : α → γ} {k : β → δ} (h : Agree ids r x y)
    (hnext : ∀ a b, r a b → q (f a) (k b)) : Agree ids q (x.map f) (y.map k) := by
  cases h with
  | ok hr => exact .ok (hnext _ _ hr)
  | error hcause => exact .error hcause

/-- Computations for members of a list that `Agree` one by one agree together. -/
theorem mapM {f : α → Except Error γ} {k : β → Except Error δ} {image : α → β}
    (hstep : ∀ a, Agree ids q (f a) (k (image a))) (xs : List α) :
    Agree ids (List.Forall₂ q) (xs.mapM f) ((xs.map image).mapM k) := by
  induction xs with
  | nil => exact .ok .nil
  | cons a rest ih =>
    rw [List.map_cons, List.mapM_cons, List.mapM_cons]
    refine (hstep a).bind fun c d hcd => ih.bind fun cs ds hcds => ?_
    exact .ok (.cons hcd hcds)

end Agree

/-! ### Plans under other ids -/

/-- The need under other ids. -/
def BufferNeed.rename (ids : String ↪ String) (b : BufferNeed) : BufferNeed :=
  { b with node := ids b.node, shared := b.shared.map ids }

/-- The placement under another id. -/
def Placement.rename (ids : String ↪ String) (a : Placement) : Placement :=
  { a with node := ids a.node }

/-- The plan under other ids. -/
def MemoryPlan.rename (ids : String ↪ String) (p : MemoryPlan) : MemoryPlan :=
  { p with placements := p.placements.map (Placement.rename ids) }

/-- The state of placing buffers under other ids. -/
def Placing.rename (ids : String ↪ String) (s : Placing) : Placing :=
  { s with
    queue := s.queue.map (Waiting.rename ids)
    offsets := s.offsets.rekey ids fun offset => offset }

private theorem BufferNeed.root_rename (ids : String ↪ String) (b : BufferNeed) :
    (b.rename ids).root = ids b.root := by
  obtain ⟨node, birth, death, size, shared⟩ := b
  cases shared <;> rfl

namespace Recasting

variable (M : Recasting) {g : Graph}

/-! ### Needs -/

/-- A node has the same `rankIn` an order under other ids. -/
private theorem rankIn_map (order : List Node) (id : String) :
    rankIn (order.map M.node) (M.ids id) = rankIn order id := by
  simp only [rankIn, List.findIdx?_map]
  congr 1
  funext n
  simp [node]

/-- The `lastReader` of a buffer has the same rank. -/
private theorem lastReader_graph (order : List Node) (id : String) (birth : Nat) :
    lastReader (M.graph g) (order.map M.node) (M.ids id) birth = lastReader g order id birth := by
  unfold lastReader
  rw [outputEdges_graph, List.foldl_map]
  congr 1
  funext death e
  rw [Edge.target_rename, rankIn_map]

/-- The `sharedRoot` of a node is the same, under its other id. -/
private theorem sharedRoot_graph (needs : List BufferNeed) (n : Node) :
    sharedRoot (M.graph g) (needs.map (BufferNeed.rename M.ids)) (M.node n) =
      (sharedRoot g needs n).map M.ids := by
  -- the need of a node is found under its other id
  have hfind : ∀ id, (needs.map (BufferNeed.rename M.ids)).find? (·.node = M.ids id) =
      (needs.find? (·.node = id)).map (BufferNeed.rename M.ids) := by
    intro id
    rw [List.find?_map]
    congr 2
    funext b
    simp [BufferNeed.rename]
  unfold sharedRoot
  rw [id_node, inputEdges_graph]
  cases g.inputEdges n.id with
  | nil => rfl
  | cons e rest =>
    cases rest with
    | cons _ _ =>
      -- with more than one input nothing is shared
      rfl
    | nil =>
      simp only [List.map_cons, List.map_nil, op_node]
      rw [Edge.source_rename, outputEdges_graph, List.length_map, hfind]
      simp only [EmbeddingLike.apply_eq_iff_eq]
      split
      · -- what feeds the node has a buffer, perhaps one that it shares itself
        cases needs.find? (·.node = e.source.node) with
        | some need => exact congrArg some (need.root_rename M.ids)
        | none =>
          simp only [Option.map_none]
          split <;> rfl
      · rfl

/-- `addNeed` adds the same need, under the other ids. -/
private theorem addNeed_graph (order : List Node) (needs : List BufferNeed) (rank : Nat)
    (n : Node) :
    addNeed (M.graph g) (order.map M.node) (needs.map (BufferNeed.rename M.ids)) rank (M.node n) =
      (addNeed g order needs rank n).map (List.map (BufferNeed.rename M.ids)) := by
  unfold addNeed
  -- the type of the output is not touched
  rw [op_node, show (M.node n).outputType = n.outputType from rfl,
    id_node, lastReader_graph, sharedRoot_graph]
  split
  · rfl
  · rfl
  · rename_i type _ _
    cases sharedRoot g needs n with
    | some root => simp [Except.map, BufferNeed.rename]
    | none =>
      show (type.byteCount >>= _) = Except.map _ (type.byteCount >>= _)
      cases type.byteCount with
      | error cause => rfl
      | ok size => simp [Except.map, bind, Except.bind, pure, Except.pure, BufferNeed.rename]

/-- `needsFrom` finds the same needs, under the other ids. -/
private theorem needsFrom_graph (order : List Node) (needs : List BufferNeed) (rank : Nat)
    (nodes : List Node) :
    needsFrom (M.graph g) (order.map M.node) (needs.map (BufferNeed.rename M.ids)) rank
        (nodes.map M.node) =
      (needsFrom g order needs rank nodes).map (List.map (BufferNeed.rename M.ids)) := by
  induction nodes generalizing needs rank with
  | nil => rfl
  | cons n rest ih =>
    rw [List.map_cons, needsFrom, needsFrom, addNeed_graph]
    cases addNeed g order needs rank n with
    | error cause => rfl
    | ok more => exact ih more (rank + 1)

/-- `bufferNeeds` finds the same needs, under the other ids. -/
private theorem bufferNeeds_graph (g : Graph) :
    bufferNeeds (M.graph g) = (bufferNeeds g).map (List.map (BufferNeed.rename M.ids)) := by
  unfold bufferNeeds
  rw [topologicalOrder_graph]
  exact M.needsFrom_graph g.topologicalOrder [] 0 g.topologicalOrder

/-- The needs of `bufferNeeds` are those of nodes of the graph, whether it is well formed or not. -/
private theorem node_mem_of_bufferNeeds {needs : List BufferNeed} (hok : bufferNeeds g = .ok needs)
    {b : BufferNeed} (hb : b ∈ needs) : b.node ∈ g.nodes.ids := by
  have hnode := List.mem_map_of_mem (f := BufferNeed.node) hb
  rw [map_node_bufferNeeds hok] at hnode
  obtain ⟨n, hn, hid⟩ := List.mem_map.mp hnode
  have hmem := g.topologicalOrder_perm.mem_iff.mp (List.mem_filter.mp hn).1
  exact hid ▸ List.mem_map_of_mem hmem

/-! ### Placing buffers -/

/-- `lastUse` of a buffer comes at the same rank. -/
private theorem lastUse_map (needs : List BufferNeed) (b : BufferNeed) :
    lastUse (needs.map (BufferNeed.rename M.ids)) (b.rename M.ids) = lastUse needs b := by
  unfold lastUse
  rw [List.foldl_map]
  congr 1
  funext last c
  -- the same buffers are shared with b
  have hshared : (c.rename M.ids).shared = some (b.rename M.ids).node ↔ c.shared = some b.node := by
    simp [BufferNeed.rename]
  simp only [hshared]
  rfl

/-- `placeBuffer` chooses the same offset. The order of the queue does not depend on the ids, as no
two buffers wait at one offset. -/
private theorem placeBuffer_graph (needs : List BufferNeed) (reuse : Bool) {state : Placing}
    (hbooks : Books state.arena state.queue) {b : BufferNeed} (hb : b.node ∈ g.nodes.ids) :
    placeBuffer (M.graph g) (needs.map (BufferNeed.rename M.ids)) reuse (state.rename M.ids)
        (b.rename M.ids) =
      (placeBuffer g needs reuse state b).map (Placing.rename M.ids) := by
  -- the tag of a buffer is the name of its node
  have htag : ((M.graph g).nodes.find? (b.rename M.ids).node).map Node.name =
      (g.nodes.find? b.node).map Node.name := by
    show ((M.table g.nodes).find? (M.ids b.node)).map Node.name = _
    rw [find?_table, Option.map_map]
    rfl
  have hback :
      (if reuse then giveBackBefore b.birth state.arena (state.rename M.ids).queue
        else .ok (state.arena, (state.rename M.ids).queue) : Except Error (Arena × List Waiting)) =
          (if reuse then giveBackBefore b.birth state.arena state.queue
          else .ok (state.arena, state.queue)).map
            (Prod.map id (List.map (Waiting.rename M.ids))) := by
    cases reuse with
    | false => rfl
    | true => exact giveBackBefore_rename M.ids b.birth state.arena state.queue
  obtain ⟨n, hn⟩ := NodeTable.mem_ids_iff.mp hb
  rw [placeBuffer_eq_bind, placeBuffer_eq_bind, htag, hn, lastUse_map]
  have hbirth : (b.rename M.ids).birth = b.birth := rfl
  have hsize : (b.rename M.ids).size = b.size := rfl
  have harena : (state.rename M.ids).arena = state.arena := rfl
  simp only [hbirth, hsize, harena, hback]
  cases hgiven : (if reuse then giveBackBefore b.birth state.arena state.queue
    else .ok (state.arena, state.queue) : Except Error (Arena × List Waiting)) with
  | error cause => rfl
  | ok back =>
    have hbooks' := hbooks.giveBack reuse b.birth hgiven
    show (back.1.alloc b.size n.name >>= _) = Except.map _ (back.1.alloc b.size n.name >>= _)
    cases halloc : back.1.alloc b.size n.name with
    | error cause => rfl
    | ok got =>
      -- the offset is entered under the other id, and the buffer joins the queue at the same place
      have hset := Dict.rekey_set M.ids (fun offset => offset) state.offsets b.node got.1
      have hqueue :
          (if 0 < b.size then enqueue (Waiting.rename M.ids ⟨lastUse needs b, got.1, b.node⟩)
              (back.2.map (Waiting.rename M.ids))
            else back.2.map (Waiting.rename M.ids)) =
          (if 0 < b.size then enqueue ⟨lastUse needs b, got.1, b.node⟩ back.2
            else back.2).map (Waiting.rename M.ids) := by
        split
        · rename_i hpos
          exact enqueue_rename M.ids (hbooks'.offset_ne_of_alloc hpos halloc)
        · rfl
      exact congrArg₂ (fun queue offsets => Except.ok (Placing.mk got.2 queue offsets))
        hqueue hset.symm

/-- `placeAll` goes through the buffers in the same order and chooses the same offsets. -/
private theorem placeAll_graph (needs : List BufferNeed) (reuse : Bool) {state : Placing}
    (hbooks : Books state.arena state.queue) (roots : List BufferNeed)
    (hroots : ∀ b ∈ roots, b.node ∈ g.nodes.ids) :
    placeAll (M.graph g) (needs.map (BufferNeed.rename M.ids)) reuse (state.rename M.ids)
        (roots.map (BufferNeed.rename M.ids)) =
      (placeAll g needs reuse state roots).map (Placing.rename M.ids) := by
  induction roots generalizing state with
  | nil => rfl
  | cons b rest ih =>
    -- the books are kept from one buffer to the next
    obtain ⟨hb, hrest⟩ := List.forall_mem_cons.mp hroots
    rw [List.map_cons, placeAll, placeAll, M.placeBuffer_graph needs reuse hbooks hb]
    cases hok : placeBuffer g needs reuse state b with
    | error cause => rfl
    | ok next => exact ih (hbooks.placeBuffer hok) hrest

/-- The `placement` of a need is the same under other ids, and where it fails for want of a buffer
the cause names the same node. -/
private theorem placement_rename (offsets : Dict Nat) (b : BufferNeed) :
    Agree M.ids (fun a a' => a' = a.rename M.ids) (b.placement offsets)
      ((b.rename M.ids).placement (offsets.rekey M.ids fun offset => offset)) := by
  unfold BufferNeed.placement
  rw [BufferNeed.root_rename, Dict.get?_rekey]
  cases offsets.get? b.root with
  | none => exact .error (.noBuffer b.root)
  | some offset =>
    refine .ok ?_
    simp [BufferNeed.rename, Placement.rename]

/-! ### Plans -/

/-- `placedBytes` does not look at ids. -/
private theorem placedBytes_map (placements : List Placement) :
    MemoryPlan.placedBytes (placements.map (Placement.rename M.ids)) =
      MemoryPlan.placedBytes placements := by
  simp only [MemoryPlan.placedBytes, List.foldl_map]
  rfl

/-- `MemoryPlan.compute` finds the same plan, under the other ids. -/
theorem compute_graph (g : Graph) (alignment : Alignment) (reuse : Bool) :
    Agree M.ids (fun plan plan' => plan' = plan.rename M.ids)
      (MemoryPlan.compute g alignment reuse) (MemoryPlan.compute (M.graph g) alignment reuse) := by
  unfold MemoryPlan.compute
  rw [bufferNeeds_graph]
  cases hneeds : bufferNeeds g with
  | error cause => exact .error (.same cause)
  | ok needs =>
    have hnone : (needs.map (BufferNeed.rename M.ids)).filter (·.shared.isNone) =
        (needs.filter (·.shared.isNone)).map (BufferNeed.rename M.ids) := by
      rw [List.filter_map]
      congr 2
      funext b
      simp [BufferNeed.rename]
    have hsome : ((needs.map (BufferNeed.rename M.ids)).filter (·.shared.isSome)).length =
        (needs.filter (·.shared.isSome)).length := by
      rw [List.filter_map, List.length_map]
      congr 2
      funext b
      simp [BufferNeed.rename]
    -- the same needs have a buffer of their own, and as many share one
    have hplace := M.placeAll_graph needs reuse (placed_empty needs alignment).books
      (needs.filter (·.shared.isNone))
      fun b hb => node_mem_of_bufferNeeds hneeds (List.mem_filter.mp hb).1
    rw [← hnone] at hplace
    show Agree M.ids _ (placeAll g needs reuse _ _ >>= _) (placeAll (M.graph g) _ reuse
      (Placing.rename M.ids ⟨Arena.empty alignment, [], Dict.empty⟩) _ >>= _)
    rw [hplace]
    cases placeAll g needs reuse ⟨Arena.empty alignment, [], Dict.empty⟩
        (needs.filter (·.shared.isNone)) with
    | error cause => exact .error (.same cause)
    | ok placed =>
      refine (Agree.mapM (M.placement_rename placed.offsets) needs).bind
        fun placements others hsame => ?_
      obtain rfl := eq_map_of_forall₂ hsame
      refine .ok ?_
      rw [hsome]
      simp only [MemoryPlan.rename, placedBytes_map]
      rfl

/-! ### Noting a plan -/

/-- The placements `byNode`, under other ids. -/
private theorem byNode_rename (plan : MemoryPlan) :
    (plan.rename M.ids).byNode = plan.byNode.rekey M.ids (Placement.rename M.ids) := by
  unfold MemoryPlan.byNode Dict.ofList
  rw [Dict.rekey_setAll, Dict.rekey_empty]
  simp only [MemoryPlan.rename, List.map_map]
  rfl

/-- The recasting that goes on to the graph with a plan: where the plan has a placement it is noted,
under the other id. -/
def planning (plan : MemoryPlan) : Recasting :=
  { M with
    remarks := fun id => (plan.byNode.get? id).elim (M.remarks id) fun a =>
      (M.remarks id).set "memory" (.memory (a.rename M.ids))
    metadata := { M.metadata with memoryPlan := some plan.summary } }

/-- `withPlan` notes a plan at the same nodes. -/
theorem withPlan_graph (g : Graph) (plan : MemoryPlan) :
    (M.graph g).withPlan (plan.rename M.ids) = (M.planning plan).graph (g.withPlan plan) := by
  have hnodes : ((M.graph g).withPlan (plan.rename M.ids)).nodes =
      ((M.planning plan).graph (g.withPlan plan)).nodes := by
    apply NodeTable.ext
    simp only [graph, toList_table, Graph.withPlan, NodeTable.mapNodes, List.map_map]
    apply List.map_congr_left
    intro n _
    simp only [Function.comp_apply, id_node, byNode_rename, Dict.get?_rekey]
    cases hplaced : plan.byNode.get? n.id with
    | none =>
      -- nothing is noted
      simp [node, planning, hplaced]
    | some a => simp [node, planning, hplaced, Node.annotate, Dict.setAll]
  exact congrArg (fun nodes =>
    ({ (M.planning plan).graph (g.withPlan plan) with nodes := nodes } : Graph)) hnodes

end Recasting

end TensorGraph
