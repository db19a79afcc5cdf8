import TensorGraph.Proofs.Passes

/-!
# Which nodes are live

The search from some roots reaches exactly the ids from which a root can be reached. What one turn
of it keeps up is `Frontier.Valid`: a root can be reached from all that has been reached, and
whatever feeds an id that has left the queue has been reached (`Frontier.Valid.turn`). When the
queue is empty, this is both halves of `mem_reachedFrom_iff`. A node is live if an output node can
be reached from it, so dropping dead nodes keeps the live ones (`mem_dropDead_iff`), each with all
its incoming edges (`inputEdges_dropDead`), and changes nothing where all nodes are live
(`dropDead_eq_self`).
-/

namespace TensorGraph.Graph

/-! ### What a search reaches -/

namespace Frontier

private theorem cross_of_mem {s : Frontier} {e : Edge} (h : e.source.node ∈ s.reached) :
    s.cross e = s := if_pos (List.contains_iff_mem.mpr h)

private theorem cross_of_not_mem {s : Frontier} {e : Edge} (h : e.source.node ∉ s.reached) :
    s.cross e = ⟨s.reached ++ [e.source.node], s.queue ++ [e.source.node]⟩ :=
  if_neg (by simpa using h)

/-- `cross` along several edges adds their sources to what has been reached. -/
private theorem mem_reached_foldl_cross {es : List Edge} {s : Frontier} {id : String} :
    id ∈ (es.foldl cross s).reached ↔ id ∈ s.reached ∨ ∃ e ∈ es, e.source.node = id := by
  induction es generalizing s with
  | nil => simp
  | cons e es ih =>
    -- one edge adds its source, if that has not been reached before
    have hcross : id ∈ (s.cross e).reached ↔ id ∈ s.reached ∨ e.source.node = id := by
      by_cases hseen : e.source.node ∈ s.reached
      · rw [cross_of_mem hseen]
        exact ⟨Or.inl, fun h => h.elim (fun hold => hold) fun heq => heq ▸ hseen⟩
      · simp [cross_of_not_mem hseen, eq_comm]
    rw [List.foldl_cons, ih, hcross, List.exists_mem_cons_iff, or_assoc]

/-- `cross` along several edges adds to the queue what is reached for the first time. -/
private theorem mem_queue_foldl_cross {es : List Edge} {s : Frontier} {id : String} :
    id ∈ (es.foldl cross s).queue ↔
      id ∈ s.queue ∨ id ∈ (es.foldl cross s).reached ∧ id ∉ s.reached := by
  induction es generalizing s with
  | nil => simp
  | cons e es ih =>
    rw [List.foldl_cons, ih]
    by_cases hseen : e.source.node ∈ s.reached
    · rw [cross_of_mem hseen]
    · rw [cross_of_not_mem hseen]
      simp only [List.mem_append, List.mem_singleton]
      by_cases heq : id = e.source.node
      · -- the source of the edge is reached now, and stays so
        have hreached : e.source.node ∈
            (es.foldl cross ⟨s.reached ++ [e.source.node], s.queue ++ [e.source.node]⟩).reached :=
          mem_reached_foldl_cross.mpr (Or.inl (by simp))
        simp [heq, hseen, hreached]
      · simp [heq]

/-- What a search keeps up: the roots are reached, and only what leads to a root; what waits has
been reached, and whatever does not wait any more has had its edges looked at. -/
structure Valid (g : Graph) (roots : List String) (s : Frontier) : Prop where
  roots_reached : ∀ root ∈ roots, root ∈ s.reached
  reaches_root : ∀ id ∈ s.reached, ∃ root ∈ roots, Relation.ReflTransGen g.Feeds id root
  queue_reached : ∀ id ∈ s.queue, id ∈ s.reached
  fed : ∀ id ∈ s.reached, id ∈ s.queue ∨ ∀ e ∈ g.inputEdges id, e.source.node ∈ s.reached

private theorem valid_start (g : Graph) (roots : List String) : Valid g roots (start roots) :=
  ⟨fun _ h => h, fun root h => ⟨root, h, .refl⟩, fun _ h => h, fun _ h => Or.inl h⟩

/-- A `turn` keeps up what is `Valid` of a search. -/
theorem Valid.turn {g : Graph} {roots : List String} {s : Frontier} (h : Valid g roots s) :
    Valid g roots (s.turn g) := by
  obtain ⟨reached, queue⟩ := s
  cases queue with
  | nil => exact h
  | cons front rest =>
    have hfront := h.queue_reached front List.mem_cons_self
    unfold Frontier.turn
    dsimp only
    refine ⟨fun root hroot => ?_, fun id hid => ?_, fun id hid => ?_, fun id hid => ?_⟩
    · exact mem_reached_foldl_cross.mpr (Or.inl (h.roots_reached root hroot))
    · cases mem_reached_foldl_cross.mp hid with
      | inl hold => exact h.reaches_root id hold
      | inr hnew =>
        -- the source of the edge feeds the id at the front, and this one reaches a root
        obtain ⟨e, he, rfl⟩ := hnew
        obtain ⟨hedge, htarget⟩ := mem_inputEdges.mp he
        obtain ⟨root, hroot, hreach⟩ := h.reaches_root front hfront
        exact ⟨root, hroot, .head ⟨e, hedge, rfl, htarget⟩ hreach⟩
    · cases mem_queue_foldl_cross.mp hid with
      | inl hold =>
        exact mem_reached_foldl_cross.mpr
          (Or.inl (h.queue_reached id (List.mem_cons_of_mem _ hold)))
      | inr hnew => exact hnew.1
    · by_cases hold : id ∈ reached
      · -- an id that was reached before waits still, or is at the front, or is fed by what
        -- was reached
        by_cases heq : id = front
        · rw [heq]
          exact Or.inr fun e he => mem_reached_foldl_cross.mpr (Or.inr ⟨e, he, rfl⟩)
        · cases h.fed id hold with
          | inl hwaits =>
            have hrest := (List.mem_cons.mp hwaits).resolve_left heq
            exact Or.inl (mem_queue_foldl_cross.mpr (Or.inl hrest))
          | inr hfed => exact Or.inr fun e he => mem_reached_foldl_cross.mpr (Or.inl (hfed e he))
      · -- an id that is new has just joined the queue
        exact Or.inl (mem_queue_foldl_cross.mpr (Or.inr ⟨hid, hold⟩))

/-- `run` ends with an empty queue, and keeps up to the end what is `Valid` of the search. -/
theorem Valid.run {g : Graph} {roots : List String} {s : Frontier} (h : Valid g roots s) :
    Valid g roots ⟨s.run g, []⟩ := by
  fun_induction Frontier.run g s with
  | case1 s hdone =>
    obtain ⟨reached, queue⟩ := s
    cases hdone
    exact h
  | case2 s _ ih => exact ih h.turn

end Frontier

/-- `reachedFrom` gives exactly the ids from which a root can be reached. -/
private theorem mem_reachedFrom_iff {g : Graph} {roots : List String} {id : String} :
    id ∈ g.reachedFrom roots ↔ ∃ root ∈ roots, Relation.ReflTransGen g.Feeds id root := by
  have hvalid := (Frontier.valid_start g roots).run
  constructor
  · exact hvalid.reaches_root id
  · intro h
    obtain ⟨root, hroot, hreach⟩ := h
    -- go back from the root, one edge at a time
    induction hreach using Relation.ReflTransGen.head_induction_on with
    | refl => exact hvalid.roots_reached root hroot
    | head hstep _ ih =>
      obtain ⟨e, he, rfl, htarget⟩ := hstep
      have hfed := (hvalid.fed _ ih).resolve_left (by simp)
      exact hfed e (mem_inputEdges.mpr ⟨he, htarget⟩)

/-! ### Live nodes -/

/-- An output node can be reached. -/
def Live (g : Graph) (id : String) : Prop :=
  ∃ n ∈ g.nodes.toList, n.op = .output ∧ Relation.ReflTransGen g.Feeds id n.id

/-- An output node is `Live`. -/
private theorem live_of_output {g : Graph} {n : Node} (hn : n ∈ g.nodes.toList)
    (hop : n.op = .output) :
    g.Live n.id := ⟨n, hn, hop, .refl⟩

/-- What feeds a `Live` node is `Live`. -/
private theorem Live.of_feeds {g : Graph} {u v : String} (hv : g.Live v) (h : g.Feeds u v) :
    g.Live u := by
  obtain ⟨n, hn, hop, hreach⟩ := hv
  exact ⟨n, hn, hop, .head h hreach⟩

/-- The `Live` ids are those that `reachedFrom` gives for the output nodes. -/
theorem contains_reachedFrom_iff {g : Graph} {id : String} :
    (g.reachedFrom g.outputIds).contains id = true ↔ g.Live id := by
  rw [List.contains_iff_mem, mem_reachedFrom_iff]
  simp only [outputIds, List.mem_map, List.mem_filter, beq_iff_eq]
  constructor
  · intro h
    obtain ⟨_, ⟨n, ⟨hn, hop⟩, rfl⟩, hreach⟩ := h
    exact ⟨n, hn, hop, hreach⟩
  · intro h
    obtain ⟨n, hn, hop, hreach⟩ := h
    exact ⟨n.id, ⟨n, ⟨hn, hop⟩, rfl⟩, hreach⟩

instance (g : Graph) : DecidablePred g.Live := fun _ => decidable_of_iff _ contains_reachedFrom_iff

/-- `dropDead` keeps exactly the nodes that are `Live`. -/
theorem mem_dropDead_iff {g : Graph} {n : Node} :
    n ∈ g.dropDead.nodes.toList ↔ n ∈ g.nodes.toList ∧ g.Live n.id := by
  simp only [dropDead, NodeTable.mem_toList_filter, contains_reachedFrom_iff]

/-- After `dropDead` the ids that are left are those of nodes that are `Live`. -/
private theorem contains_dropDead_iff {g : Graph} {id : String} :
    g.dropDead.nodes.contains id = true ↔ id ∈ g.nodes.ids ∧ g.Live id := by
  rw [NodeTable.contains_eq_true_iff]
  simp only [NodeTable.ids, List.mem_map, mem_dropDead_iff]
  constructor
  · intro h
    obtain ⟨n, ⟨hn, hlive⟩, rfl⟩ := h
    exact ⟨⟨n, hn, rfl⟩, hlive⟩
  · intro h
    obtain ⟨⟨n, hn, rfl⟩, hlive⟩ := h
    exact ⟨n, ⟨hn, hlive⟩, rfl⟩

/-- `dropDead` keeps the edges between nodes that are `Live`. -/
private theorem mem_edges_dropDead_iff {g : Graph} (hclosed : g.Closed) {e : Edge} :
    e ∈ g.dropDead.edges ↔ e ∈ g.edges ∧ g.Live e.target.node := by
  show e ∈ g.edges.filter (fun e =>
    g.dropDead.nodes.contains e.source.node && g.dropDead.nodes.contains e.target.node) ↔ _
  rw [List.mem_filter, Bool.and_eq_true, contains_dropDead_iff, contains_dropDead_iff]
  refine and_congr_right fun he => ?_
  constructor
  · exact fun h => h.2.2
  · intro hlive
    -- the source of an edge into a live node is live too
    exact ⟨⟨(hclosed e he).1, hlive.of_feeds ⟨e, he, rfl, rfl⟩⟩, (hclosed e he).2, hlive⟩

/-- A `Live` node keeps all its incoming edges under `dropDead`. -/
theorem inputEdges_dropDead {g : Graph} (hclosed : g.Closed) {id : String} (hlive : g.Live id) :
    g.dropDead.inputEdges id = g.inputEdges id := by
  show (g.edges.filter fun e => g.dropDead.nodes.contains e.source.node &&
    g.dropDead.nodes.contains e.target.node).filter _ = g.edges.filter _
  rw [List.filter_filter]
  apply List.filter_congr
  intro e he
  by_cases htarget : e.target.node = id
  · -- an edge into the node is kept with both its ends
    have hkept : e ∈ g.dropDead.edges :=
      (mem_edges_dropDead_iff hclosed).mpr ⟨he, htarget ▸ hlive⟩
    have hends : (g.dropDead.nodes.contains e.source.node &&
        g.dropDead.nodes.contains e.target.node) = true := (List.mem_filter.mp hkept).2
    rw [hends]
    simp [htarget]
  · simp [htarget]

/-- What is `Live` stays so under `dropDead`. -/
theorem Live.dropDead {g : Graph} (hclosed : g.Closed) {id : String} (h : g.Live id) :
    g.dropDead.Live id := by
  obtain ⟨n, hn, hop, hreach⟩ := h
  have hout := live_of_output hn hop
  refine ⟨n, mem_dropDead_iff.mpr ⟨hn, hout⟩, hop, ?_⟩
  -- go back from the output node; every node on the way is live, so every edge stays
  have hboth : g.Live id ∧ Relation.ReflTransGen g.dropDead.Feeds id n.id := by
    induction hreach using Relation.ReflTransGen.head_induction_on with
    | refl => exact ⟨hout, .refl⟩
    | head hstep _ ih =>
      obtain ⟨hlive, hreach⟩ := ih
      obtain ⟨e, he, rfl, rfl⟩ := hstep
      have hkept := (mem_edges_dropDead_iff hclosed).mpr ⟨he, hlive⟩
      exact ⟨hlive.of_feeds ⟨e, he, rfl, rfl⟩, .head ⟨e, hkept, rfl, rfl⟩ hreach⟩
  exact hboth.2

/-- Where all nodes are `Live`, `dropDead` changes nothing. -/
theorem dropDead_eq_self {g : Graph} (hclosed : g.Closed)
    (hlive : ∀ n ∈ g.nodes.toList, g.Live n.id) : g.dropDead = g := by
  -- every end of an edge is live, so no edge goes either
  have hids : ∀ id ∈ g.nodes.ids, g.Live id := by
    intro id hid
    obtain ⟨n, hn, rfl⟩ := List.mem_map.mp hid
    exact hlive n hn
  have hnodes : g.dropDead.nodes.toList = g.nodes.toList :=
    List.filter_eq_self.mpr fun n hn => contains_reachedFrom_iff.mpr (hlive n hn)
  have hedges : g.dropDead.edges = g.edges := by
    refine List.filter_eq_self.mpr fun e he => ?_
    obtain ⟨hsource, htarget⟩ := hclosed e he
    rw [Bool.and_eq_true]
    exact ⟨contains_dropDead_iff.mpr ⟨hsource, hids _ hsource⟩,
      contains_dropDead_iff.mpr ⟨htarget, hids _ htarget⟩⟩
  have htable : g.dropDead.nodes = g.nodes := NodeTable.ext hnodes
  calc g.dropDead = { g with nodes := g.dropDead.nodes, edges := g.dropDead.edges } := rfl
    _ = g := by rw [htable, hedges]

end TensorGraph.Graph
