import TensorGraph.Graph.Validity
import Mathlib.Data.List.Chain
import Mathlib.Data.List.Nodup
import Mathlib.Data.List.TakeWhile
import Mathlib.Logic.Relation

/-!
# Order and cycles found by depth-first search

The search for an order (`Graph.search`) and the search for a cycle (`Graph.searchCycle`) walk a
graph in the same way. Each is described here by what one step keeps:

* every marked id is on the stack or finished, and only once (`search_perm`, `search_nodup`), so the
  topological order holds every node exactly once, on cyclic graphs too (`topologicalOrder_perm`);
* while no cycle has been met, the incoming edges of a node on the stack are still to be looked at,
  or come from a finished node, or from the node just above (`Awaiting`), so a node is finished
  after all nodes that feed it (`settled_of_searchCycle`);
* each node on the stack feeds the one below it and none is there twice, so what is reported as a
  cycle is one (`searchCycle_error`) and passes through no node twice (`Closes.nodup_dropLast`).

Together: the search reports no cycle exactly if the graph has none (`findCycle_eq_none_iff`).
-/

namespace TensorGraph.Graph

/-! ### Feeding -/

/-- One node feeds another if an edge leads from the first to the second. -/
def Feeds (g : Graph) (u v : String) : Prop :=
  ∃ e ∈ g.edges, e.source.node = u ∧ e.target.node = v

/-- No node feeds itself, directly or through others. -/
def Acyclic (g : Graph) : Prop := ∀ id, ¬ Relation.TransGen g.Feeds id id

/-- Both ends of every edge are nodes of the graph. -/
def Closed (g : Graph) : Prop :=
  ∀ e ∈ g.edges, e.source.node ∈ g.nodes.ids ∧ e.target.node ∈ g.nodes.ids

@[simp] theorem mem_inputEdges {g : Graph} {id : String} {e : Edge} :
    e ∈ g.inputEdges id ↔ e ∈ g.edges ∧ e.target.node = id := by
  simp [inputEdges]

@[simp] theorem mem_outputEdges {g : Graph} {id : String} {e : Edge} :
    e ∈ g.outputEdges id ↔ e ∈ g.edges ∧ e.source.node = id := by
  simp [outputEdges]

/-- A graph that `Feeds` only what an `Acyclic` graph feeds is `Acyclic`. -/
theorem Acyclic.mono {g h : Graph} (hg : g.Acyclic) (hfeeds : ∀ u v, h.Feeds u v → g.Feeds u v) :
    h.Acyclic := fun id hid => hg id (Relation.TransGen.mono hfeeds id id hid)

/-- A graph is `Acyclic` if its nodes can be sent to those of an `Acyclic` graph in such a way that
every edge becomes a path. -/
theorem Acyclic.of_map {g h : Graph} (hg : g.Acyclic) (f : String → String)
    (hfeeds : ∀ u v, h.Feeds u v → Relation.TransGen g.Feeds (f u) (f v)) : h.Acyclic :=
  fun id hid => hg (f id) (Relation.TransGen.lift' f hfeeds id id hid)

/-- A graph is `Acyclic` if its nodes can be numbered upwards along every edge. -/
theorem acyclic_of_rank {g : Graph} (rank : String → Nat)
    (h : ∀ e ∈ g.edges, rank e.source.node < rank e.target.node) : g.Acyclic := by
  have hfeeds : ∀ u v, g.Feeds u v → rank u < rank v := by
    intro u v huv
    obtain ⟨e, he, hu, hv⟩ := huv
    rw [← hu, ← hv]
    exact h e he
  -- numbers go up along paths too, so no path leads back to its start
  have hreach : ∀ u v, Relation.TransGen g.Feeds u v → rank u < rank v := by
    intro u v huv
    induction huv with
    | single hstep => exact hfeeds _ _ hstep
    | tail _ hstep ih => exact Nat.lt_trans ih (hfeeds _ _ hstep)
  exact fun id hid => Nat.lt_irrefl _ (hreach id id hid)

/-! ### Marked and finished ids -/

/-- When every marked id is either on the stack or finished, then after `search` all are
finished. -/
private theorem search_perm (g : Graph) (stack : List (Frame g)) (visited finished : List String)
    (h : visited.Perm (stack.map Frame.id ++ finished)) :
    (g.search stack visited finished).1.Perm (g.search stack visited finished).2 := by
  fun_induction search g stack visited finished with
  | case1 visited finished => exact h
  | case2 visited finished id mem rest ih =>
    -- the top node leaves the stack and is finished
    apply ih
    exact h.trans List.perm_middle.symm
  | case3 visited finished id e es mem rest frame hseen ih => exact ih h
  | case4 visited finished id e es mem rest frame hnew ih =>
    -- the source is marked and goes on top of the stack
    apply ih
    exact h.cons e.source.node

/-- `search` marks no id twice. -/
private theorem search_nodup (g : Graph) (stack : List (Frame g)) (visited finished : List String)
    (h : visited.Nodup) : (g.search stack visited finished).1.Nodup := by
  fun_induction search g stack visited finished with
  | case1 visited finished => exact h
  | case2 visited finished id mem rest ih => exact ih h
  | case3 visited finished id e es mem rest frame hseen ih => exact ih h
  | case4 visited finished id e es mem rest frame hnew ih =>
    -- the source of the edge has not been visited
    apply ih
    rw [List.nodup_cons]
    exact ⟨by simpa using hnew, h⟩

/-- `search` leaves marked what is marked. -/
private theorem mem_search_of_mem (g : Graph) (stack : List (Frame g))
    (visited finished : List String) {id : String} (h : id ∈ visited) :
    id ∈ (g.search stack visited finished).1 := by
  fun_induction search g stack visited finished with
  | case1 visited finished => exact h
  | case2 visited finished _ mem rest ih => exact ih h
  | case3 visited finished _ e es mem rest frame hseen ih => exact ih h
  | case4 visited finished _ e es mem rest frame hnew ih => exact ih (List.mem_cons_of_mem _ h)

/-- `explore` from one more root keeps the marked ids distinct and all of them finished. -/
private theorem explore_perm_nodup (g : Graph) (roots : List String)
    (state : List String × List String) (hperm : state.1.Perm state.2) (hnodup : state.1.Nodup) :
    (g.explore roots state).1.Perm (g.explore roots state).2 ∧ (g.explore roots state).1.Nodup := by
  induction roots generalizing state with
  | nil => exact ⟨hperm, hnodup⟩
  | cons root roots ih =>
    obtain ⟨visited, finished⟩ := state
    simp only [explore]
    split
    · -- the root has been visited before
      exact ih _ hperm hnodup
    · rename_i hnew
      -- the search from the root goes on from what has been visited
      apply ih
      · exact search_perm g _ _ _ (hperm.cons root)
      · apply search_nodup
        rw [List.nodup_cons]
        exact ⟨by simpa using hnew, hnodup⟩

/-- `explore` leaves marked what is marked, and marks every root. -/
private theorem mem_explore (g : Graph) (roots : List String) (state : List String × List String)
    {id : String} (h : id ∈ state.1 ∨ id ∈ roots) : id ∈ (g.explore roots state).1 := by
  induction roots generalizing state with
  | nil => simpa [explore] using h
  | cons root roots ih =>
    obtain ⟨visited, finished⟩ := state
    simp only [explore]
    split
    · -- the root has been marked before
      rename_i hseen
      apply ih
      cases h with
      | inl hmarked => exact Or.inl hmarked
      | inr hroots =>
        rw [List.mem_cons] at hroots
        exact hroots.imp_left fun heq => by simpa [heq] using hseen
    · -- the search starts by marking the root
      apply ih
      cases h with
      | inl hmarked => exact Or.inl (mem_search_of_mem g _ _ _ (List.mem_cons_of_mem _ hmarked))
      | inr hroots =>
        rw [List.mem_cons] at hroots
        refine hroots.imp_left fun heq => ?_
        rw [heq]
        exact mem_search_of_mem g _ _ _ List.mem_cons_self

/-- The ids in the order in which the search over all nodes finishes them, the latest first. -/
def finishedIds (g : Graph) : List String := (g.explore g.nodes.ids ([], [])).2

private theorem finishedIds_nodup (g : Graph) : g.finishedIds.Nodup := by
  have h := explore_perm_nodup g g.nodes.ids ([], []) (List.Perm.refl _) List.nodup_nil
  exact h.1.nodup_iff.mp h.2

/-- `finishedIds` holds the ids of all nodes. -/
private theorem mem_finishedIds (g : Graph) {id : String} (h : id ∈ g.nodes.ids) :
    id ∈ g.finishedIds := by
  have hperm :=
    (explore_perm_nodup g g.nodes.ids ([], []) (List.Perm.refl _) List.nodup_nil).1
  exact hperm.mem_iff.mp (mem_explore g g.nodes.ids ([], []) (Or.inr h))

/-- `topologicalOrder` holds every node of the graph exactly once, whether there are cycles
or not. -/
theorem topologicalOrder_perm (g : Graph) : g.topologicalOrder.Perm g.nodes.toList := by
  have hnodes : g.nodes.toList.Nodup := List.Nodup.of_map Node.id g.nodes.ids_nodup
  have horder : g.topologicalOrder.Nodup := by
    unfold topologicalOrder
    refine List.Nodup.filterMap ?_ (List.nodup_reverse.mpr g.finishedIds_nodup)
    intro a b n ha hb
    rw [← NodeTable.id_eq_of_find? ha, ← NodeTable.id_eq_of_find? hb]
  -- neither list repeats a node, so it is enough to compare their members
  rw [List.perm_ext_iff_of_nodup horder hnodes]
  intro n
  simp only [topologicalOrder, List.mem_filterMap, List.mem_reverse]
  constructor
  · intro h
    obtain ⟨id, _, hfind⟩ := h
    exact NodeTable.mem_of_find? hfind
  · intro hn
    exact ⟨n.id, mem_finishedIds g (List.mem_map_of_mem hn), NodeTable.find?_of_mem hn⟩

/-- The ids along `topologicalOrder` are distinct. -/
theorem topologicalOrder_ids_nodup (g : Graph) :
    (g.topologicalOrder.map Node.id).Nodup :=
  (g.topologicalOrder_perm.map Node.id).nodup_iff.mpr g.nodes.ids_nodup

/-! ### The order of finishing -/

/-- A list of ids, the latest first, in which every id comes after the ids that feed it. -/
def Settled (g : Graph) : List String → Prop
  | [] => True
  | id :: rest => (∀ e ∈ g.inputEdges id, e.source.node ∈ rest) ∧ g.Settled rest

/-- What feeds an id of a `Settled` list is found after it. -/
theorem Settled.source_mem {g : Graph} {later earlier : List String} {id : String}
    (h : g.Settled (later ++ id :: earlier)) {e : Edge} (he : e ∈ g.inputEdges id) :
    e.source.node ∈ earlier := by
  induction later with
  | nil => exact h.1 e he
  | cons _ later ih => exact ih h.2

/-- The nodes on a stack wait for what feeds them: each incoming edge of a node is still to be
looked at, or comes from a finished node, or comes from the node above it on the stack. -/
def Awaiting (g : Graph) (finished : List String) : Option String → List (Frame g) → Prop
  | _, [] => True
  | above, f :: rest =>
    (∀ e ∈ g.inputEdges f.id,
      e ∈ f.pending ∨ e.source.node ∈ finished ∨ some e.source.node = above) ∧
    g.Awaiting finished (some f.id) rest

/-- Finishing more nodes leaves a stack `Awaiting` no more than before. -/
theorem Awaiting.mono {g : Graph} {finished more : List String} {above : Option String}
    {stack : List (Frame g)} (h : g.Awaiting finished above stack) (hsub : finished ⊆ more) :
    g.Awaiting more above stack := by
  induction stack generalizing above with
  | nil => trivial
  | cons f rest ih =>
    refine ⟨fun e he => ?_, ih h.2⟩
    -- an edge waits to be followed, or its source is finished or on top
    rcases h.1 e he with hpending | hdone | habove
    · exact Or.inl hpending
    · exact Or.inr (Or.inl (hsub hdone))
    · exact Or.inr (Or.inr habove)

/-- Once the node above is finished, the stack is `Awaiting` it no more. -/
theorem Awaiting.finish {g : Graph} {finished : List String} {id : String} {stack : List (Frame g)}
    (h : g.Awaiting finished (some id) stack) : g.Awaiting (id :: finished) none stack := by
  cases stack with
  | nil => trivial
  | cons f rest =>
    refine ⟨fun e he => ?_, h.2.mono (List.subset_cons_self _ _)⟩
    rcases h.1 e he with hpending | hdone | habove
    · exact Or.inl hpending
    · exact Or.inr (Or.inl (List.mem_cons_of_mem _ hdone))
    · -- the node on top is the one that is finished now
      cases habove
      exact Or.inr (Or.inl List.mem_cons_self)

/-- The next edge of the top node of a stack that is `Awaiting` can be crossed off when its source
is finished or goes on top. -/
theorem Awaiting.skip {g : Graph} {finished : List String} {above : Option String} {id : String}
    {e : Edge} {es : List Edge} {rest : List (Frame g)} {mem : ∀ x ∈ e :: es, x ∈ g.edges}
    (h : g.Awaiting finished none (⟨id, e :: es, mem⟩ :: rest)) (mem' : ∀ x ∈ es, x ∈ g.edges)
    (he : e.source.node ∈ finished ∨ some e.source.node = above) :
    g.Awaiting finished above (⟨id, es, mem'⟩ :: rest) := by
  refine ⟨fun x hx => ?_, h.2⟩
  rcases h.1 x hx with hpending | hdone | hnone
  · -- the edge that is crossed off, and the edges after it
    rcases List.mem_cons.mp hpending with rfl | hmem
    · exact Or.inr he
    · exact Or.inl hmem
  · exact Or.inr (Or.inl hdone)
  · cases hnone

/-- A node that is just entered is `Awaiting` all its incoming edges. -/
theorem Awaiting.enter {g : Graph} {finished : List String} {id : String} {stack : List (Frame g)}
    (h : g.Awaiting finished (some id) stack) :
    g.Awaiting finished none (Frame.enter g id :: stack) :=
  ⟨fun _ he => Or.inl he, h⟩

/-- While `searchCycle` meets no cycle, `search` marks the same ids, and finishes every id after the
ids that feed it. -/
private theorem settled_of_searchCycle {g : Graph} {stack : List (Frame g)}
    {visited finished marked : List String} (hcycle : g.searchCycle stack visited = .ok marked)
    (hperm : visited.Perm (stack.map Frame.id ++ finished))
    (hawait : g.Awaiting finished none stack) (hsettled : g.Settled finished) :
    (g.search stack visited finished).1 = marked ∧
      g.Settled (g.search stack visited finished).2 := by
  fun_induction search g stack visited finished with
  | case1 visited finished =>
    rw [searchCycle] at hcycle
    exact ⟨Except.ok.inj hcycle, hsettled⟩
  | case2 visited finished id mem rest ih =>
    rw [searchCycle] at hcycle
    apply ih hcycle
    · exact hperm.trans List.perm_middle.symm
    · exact hawait.2.finish
    · -- the top node has no edges left and nothing above it, so all that feeds it is finished
      refine ⟨fun e he => ?_, hsettled⟩
      rcases hawait.1 e he with hpending | hdone | hnone
      · cases hpending
      · exact hdone
      · cases hnone
  | case3 visited finished id e es mem rest frame hseen ih =>
    rw [searchCycle] at hcycle
    split at hcycle
    · cases hcycle
    · rename_i hstack
      -- the source is marked and not on the stack, so it is finished
      have hdone : e.source.node ∈ finished := by
        have hmem := hperm.mem_iff.mp (List.contains_iff_mem.mp hseen)
        cases List.mem_append.mp hmem with
        | inl hon => exact absurd (List.contains_iff_mem.mpr hon) hstack
        | inr hdone => exact hdone
      exact ih hcycle hperm (hawait.skip _ (Or.inl hdone)) hsettled
  | case4 visited finished id e es mem rest frame hnew ih =>
    rw [searchCycle] at hcycle
    split at hcycle
    · cases hcycle
    · -- the edge is crossed off, since its source is now above the node
      exact ih hcycle (hperm.cons _) (hawait.skip _ (Or.inr rfl)).enter hsettled

/-- While `cycleFrom` meets no cycle, `explore` finishes every id after the ids that feed it. -/
private theorem settled_of_cycleFrom {g : Graph} {roots visited finished : List String}
    (hcycle : g.cycleFrom roots visited = none) (hperm : visited.Perm finished)
    (hsettled : g.Settled finished) : g.Settled (g.explore roots (visited, finished)).2 := by
  induction roots generalizing visited finished with
  | nil => exact hsettled
  | cons root roots ih =>
    rw [cycleFrom] at hcycle
    rw [explore]
    split at hcycle
    · rename_i hseen
      rw [if_pos hseen]
      exact ih hcycle hperm hsettled
    · rename_i hnew
      rw [if_neg hnew]
      split at hcycle
      · cases hcycle
      · -- the root is alone on the stack and waits for all its incoming edges
        rename_i marked hok
        have hperm' : (root :: visited).Perm ([Frame.enter g root].map Frame.id ++ finished) :=
          hperm.cons root
        have hawait : g.Awaiting finished none [Frame.enter g root] :=
          ⟨fun _ he => Or.inl he, trivial⟩
        obtain ⟨hmarked, hsettled'⟩ := settled_of_searchCycle hok hperm' hawait hsettled
        subst hmarked
        exact ih hcycle (search_perm g _ _ _ hperm') hsettled'

/-- If `findCycle` finds nothing, `finishedIds` is `Settled`. -/
private theorem finishedIds_settled {g : Graph} (h : g.findCycle = none) :
    g.Settled g.finishedIds :=
  settled_of_cycleFrom h (List.Perm.refl _) trivial

/-- In a `Settled` list that holds the targets of all edges, the source of an edge stands after its
target. -/
private theorem Settled.idxOf_lt {g : Graph} {ids : List String} (hsettled : g.Settled ids)
    (hnodup : ids.Nodup) {e : Edge} (he : e ∈ g.edges) (htarget : e.target.node ∈ ids) :
    ids.idxOf e.target.node < ids.idxOf e.source.node := by
  obtain ⟨later, earlier, hids⟩ := List.append_of_mem htarget
  have hsource : e.source.node ∈ earlier :=
    (hids ▸ hsettled).source_mem (mem_inputEdges.mpr ⟨he, rfl⟩)
  -- neither end stands among the later ids, and the source stands after the target
  rw [hids] at hnodup
  obtain ⟨_, hrest, hdisj⟩ := List.nodup_append.mp hnodup
  have htarget' : e.target.node ∉ later := fun hmem => hdisj _ hmem _ List.mem_cons_self rfl
  have hsource' : e.source.node ∉ later := fun hmem =>
    hdisj _ hmem _ (List.mem_cons_of_mem _ hsource) rfl
  have hne : e.target.node ≠ e.source.node := fun heq =>
    (List.nodup_cons.mp hrest).1 (heq ▸ hsource)
  rw [hids, List.idxOf_append_of_notMem htarget', List.idxOf_append_of_notMem hsource',
    List.idxOf_cons_self, List.idxOf_cons_ne _ hne]
  omega

/-! ### Reported cycles -/

/-- A closed walk: a list of ids that ends where it starts and in which each id feeds the next. -/
def ClosedWalk (g : Graph) (ids : List String) : Prop :=
  ∃ first rest, ids = first :: (rest ++ [first]) ∧ ids.IsChain g.Feeds

/-- Along a list with `List.IsChain` the first id reaches the last. -/
private theorem transGen_of_isChain {r : String → String → Prop} {first last : String}
    {rest : List String} (h : (first :: (rest ++ [last])).IsChain r) :
    Relation.TransGen r first last := by
  induction rest generalizing first with
  | nil => exact .single (List.isChain_pair.mp h)
  | cons next rest ih =>
    rw [List.cons_append, List.isChain_cons_cons] at h
    exact .head h.1 (ih h.2)

/-- A graph with a `ClosedWalk` is not `Acyclic`. -/
private theorem ClosedWalk.not_acyclic {g : Graph} {ids : List String} (h : g.ClosedWalk ids) :
    ¬ g.Acyclic := by
  obtain ⟨first, rest, rfl, hchain⟩ := h
  intro hacyclic
  exact hacyclic first (transGen_of_isChain hchain)

/-- The part of a list with `List.IsChain` up to one of its ids is one too, and goes on to whatever
that id feeds. -/
private theorem isChain_takeWhile_append {r : String → String → Prop} {ids : List String}
    {reached last : String} (hchain : ids.IsChain r) (hmem : reached ∈ ids)
    (hlast : r reached last) : (ids.takeWhile (· != reached) ++ [reached, last]).IsChain r := by
  induction ids with
  | nil => cases hmem
  | cons id ids ih =>
    by_cases hid : id = reached
    · subst hid
      simpa using hlast
    · rw [List.takeWhile_cons_of_pos (by simpa using hid), List.cons_append]
      have hmem' : reached ∈ ids := (List.mem_cons.mp hmem).resolve_left (Ne.symm hid)
      rw [List.isChain_cons] at hchain ⊢
      refine ⟨fun y hy => ?_, ih hchain.2 hmem'⟩
      -- the id after the first one is the same in both lists
      apply hchain.1 y
      cases ids with
      | nil => cases hmem'
      | cons next ids =>
        by_cases hnext : next = reached
        · subst hnext
          simpa using hy
        · rw [List.takeWhile_cons_of_pos (by simpa using hnext)] at hy
          simpa using hy

/-- A path that closes: each id feeds the next, none is repeated, and one of them feeds the
first. -/
structure Closes (g : Graph) (top : String) (below : List String) (reached : String) : Prop where
  chain : (top :: below).IsChain g.Feeds
  nodup : (top :: below).Nodup
  mem : reached ∈ top :: below
  feeds : g.Feeds reached top

/-- `closedPath` of a path that `Closes` is a `ClosedWalk`. -/
theorem Closes.closedWalk {g : Graph} {top reached : String} {below : List String}
    (h : g.Closes top below reached) : g.ClosedWalk (closedPath top below reached) := by
  have hwalk : (closedPath top below reached).IsChain g.Feeds :=
    isChain_takeWhile_append h.chain h.mem h.feeds
  by_cases htop : top = reached
  · -- the walk goes from the node to itself
    subst htop
    exact ⟨top, [], by simp [closedPath], hwalk⟩
  · -- the walk goes from the top down to what has been reached, and back
    refine ⟨top, below.takeWhile (· != reached) ++ [reached], ?_, hwalk⟩
    rw [closedPath, List.takeWhile_cons_of_pos (by simpa using htop)]
    simp

/-- `closedPath` of a path that `Closes` repeats no id up to where it returns to its start. -/
theorem Closes.nodup_dropLast {g : Graph} {top reached : String} {below : List String}
    (h : g.Closes top below reached) : (closedPath top below reached).dropLast.Nodup := by
  -- the walk without its end is the part of the stack above what has been reached
  have hpath : (closedPath top below reached).dropLast =
      (top :: below).takeWhile (· != reached) ++ [reached] := by
    rw [closedPath, List.append_cons, List.dropLast_concat]
  rw [hpath, List.nodup_append]
  refine ⟨h.nodup.sublist (List.takeWhile_sublist _), List.nodup_singleton _, ?_⟩
  intro id hid last hlast
  rw [List.mem_singleton.mp hlast]
  simpa using List.mem_takeWhile_imp hid

/-- What `searchCycle` reports is a path that `Closes`, provided that each node on the stack
feeds the one below it, that none is there twice, and that the edges to be looked at lead to
their node. -/
private theorem searchCycle_error {g : Graph} {stack : List (Frame g)} {visited cycle : List String}
    (h : g.searchCycle stack visited = .error cycle)
    (hchain : (stack.map Frame.id).IsChain g.Feeds) (hnodup : (stack.map Frame.id).Nodup)
    (hpending : ∀ f ∈ stack, ∀ e ∈ f.pending, e.target.node = f.id) :
    ∃ top below reached, g.Closes top below reached ∧ cycle = closedPath top below reached := by
  -- by the recursion of the search; the invariants hold of every stack that it goes on with
  induction stack, visited using searchCycle.induct g with
  | case1 visited =>
    rw [searchCycle] at h
    cases h
  | case2 visited id mem rest ih =>
    rw [searchCycle] at h
    exact ih h hchain.tail (List.nodup_cons.mp hnodup).2
      fun f hf => hpending f (List.mem_cons_of_mem _ hf)
  | case3 visited id e es mem rest below hstack =>
    -- the source is on the stack: the path from it to the top closes
    have htarget : e.target.node = id := hpending _ List.mem_cons_self e List.mem_cons_self
    have hmem : e.source.node ∈ id :: rest.map Frame.id := by simpa [below] using hstack
    rw [searchCycle, if_pos (List.contains_iff_mem.mpr hmem)] at h
    cases h
    exact ⟨_, _, _, ⟨hchain, hnodup, hmem, e, mem e List.mem_cons_self, rfl, htarget⟩, rfl⟩
  | case4 visited id e es mem rest frame below hstack hseen ih =>
    -- the source was finished before: the edge is crossed off, and the stack stays
    have hmem : e.source.node ∉ id :: rest.map Frame.id := by simpa [below] using hstack
    rw [searchCycle, if_neg (by simpa using hmem), dif_pos hseen] at h
    refine ih h hchain hnodup fun f hf x hx => ?_
    cases List.mem_cons.mp hf with
    | inl heq =>
      subst heq
      exact hpending _ List.mem_cons_self x (List.mem_cons_of_mem _ hx)
    | inr hf => exact hpending f (List.mem_cons_of_mem _ hf) x hx
  | case5 visited id e es mem rest frame below hstack hnew ih =>
    have htarget : e.target.node = id := hpending _ List.mem_cons_self e List.mem_cons_self
    have hmem : e.source.node ∉ id :: rest.map Frame.id := by simpa [below] using hstack
    rw [searchCycle, if_neg (by simpa using hmem), dif_neg hnew] at h
    refine ih h ?_ ?_ fun f hf x hx => ?_
    · exact hchain.cons_cons ⟨e, mem e List.mem_cons_self, rfl, htarget⟩
    · -- what goes on top is not on the stack
      exact List.nodup_cons.mpr ⟨hmem, hnodup⟩
    · -- the new top node has all its incoming edges to be looked at
      rw [List.mem_cons, List.mem_cons] at hf
      obtain rfl | rfl | hf := hf
      · exact (mem_inputEdges.mp hx).2
      · exact hpending _ List.mem_cons_self x (List.mem_cons_of_mem _ hx)
      · exact hpending f (List.mem_cons_of_mem _ hf) x hx

/-- What `cycleFrom` finds from any of several roots is a path that `Closes`. -/
theorem cycleFrom_eq_some {g : Graph} {roots visited cycle : List String}
    (h : g.cycleFrom roots visited = some cycle) :
    ∃ top below reached, g.Closes top below reached ∧ cycle = closedPath top below reached := by
  induction roots generalizing visited with
  | nil => cases h
  | cons root roots ih =>
    rw [cycleFrom] at h
    split at h
    · -- the root has been visited before
      exact ih h
    · split at h
      · rename_i cycle' herror
        cases h
        -- the search begins with the root alone on the stack
        refine searchCycle_error herror (List.isChain_singleton _) (List.nodup_singleton _) ?_
        intro f hf e he
        rw [List.mem_singleton.mp hf] at he ⊢
        exact (mem_inputEdges.mp he).2
      · exact ih h

/-- In a graph without dangling edges `findCycle` finds nothing exactly if the graph is
`Acyclic`. -/
theorem findCycle_eq_none_iff {g : Graph} (hclosed : g.Closed) :
    g.findCycle = none ↔ g.Acyclic := by
  constructor
  · intro h
    -- number the nodes from the one that was finished first
    refine acyclic_of_rank (fun id => g.finishedIds.length - g.finishedIds.idxOf id) fun e he => ?_
    have hlt := (finishedIds_settled h).idxOf_lt g.finishedIds_nodup he
      (mem_finishedIds g (hclosed e he).2)
    have hle := List.idxOf_le_length (a := e.source.node) (l := g.finishedIds)
    omega
  · intro hacyclic
    cases h : g.findCycle with
    | none => rfl
    | some cycle =>
      obtain ⟨_, _, _, hcloses, _⟩ := cycleFrom_eq_some h
      exact absurd hacyclic hcloses.closedWalk.not_acyclic

/-! ### The topological order of a graph without cycles -/

/-- `search` marks only what it started with and sources of edges. -/
private theorem forall_mem_search {g : Graph} {p : String → Prop}
    (hsource : ∀ e ∈ g.edges, p e.source.node) (stack : List (Frame g))
    (visited finished : List String) (hvisited : ∀ id ∈ visited, p id) :
    ∀ id ∈ (g.search stack visited finished).1, p id := by
  fun_induction search g stack visited finished with
  | case1 visited finished => exact hvisited
  | case2 visited finished _ mem rest ih => exact ih hvisited
  | case3 visited finished _ e es mem rest frame hseen ih => exact ih hvisited
  | case4 visited finished _ e es mem rest frame hnew ih =>
    -- the node that is visited next is the source of an edge
    apply ih
    rw [List.forall_mem_cons]
    exact ⟨hsource e (mem e List.mem_cons_self), hvisited⟩

/-- `explore` marks only roots, what was marked before, and sources of edges. -/
private theorem forall_mem_explore {g : Graph} {p : String → Prop}
    (hsource : ∀ e ∈ g.edges, p e.source.node) (roots : List String)
    (state : List String × List String) (hroots : ∀ id ∈ roots, p id)
    (hvisited : ∀ id ∈ state.1, p id) : ∀ id ∈ (g.explore roots state).1, p id := by
  induction roots generalizing state with
  | nil => exact hvisited
  | cons root roots ih =>
    obtain ⟨visited, finished⟩ := state
    -- roots have the property, and sources of edges have it
    have hroot : p root := hroots root List.mem_cons_self
    have hroots' : ∀ id ∈ roots, p id := fun id hid => hroots id (List.mem_cons_of_mem _ hid)
    rw [explore]
    split
    · exact ih _ hroots' hvisited
    · apply ih _ hroots'
      apply forall_mem_search hsource
      rw [List.forall_mem_cons]
      exact ⟨hroot, hvisited⟩

/-- Without dangling edges `finishedIds` holds nodes only. -/
private theorem mem_ids_of_mem_finishedIds {g : Graph} (hclosed : g.Closed) {id : String}
    (h : id ∈ g.finishedIds) : id ∈ g.nodes.ids := by
  have hperm := (explore_perm_nodup g g.nodes.ids ([], []) (List.Perm.refl _) List.nodup_nil).1
  refine forall_mem_explore (fun e he => (hclosed e he).1) g.nodes.ids ([], []) (fun _ h => h) ?_ id
    (hperm.mem_iff.mpr h)
  intro _ h
  cases h

/-- To look ids up with `NodeTable.find?` and take the ids again changes nothing, if all are
present. -/
private theorem map_id_filterMap_find? (t : NodeTable) {ids : List String}
    (h : ∀ id ∈ ids, id ∈ t.ids) :
    (ids.filterMap t.find?).map Node.id = ids := by
  induction ids with
  | nil => rfl
  | cons id ids ih =>
    cases hfind : t.find? id with
    | none =>
      -- every id is one of the table
      exact absurd (h id List.mem_cons_self) (NodeTable.find?_eq_none_iff.mp hfind)
    | some n =>
      rw [List.filterMap_cons_some hfind, List.map_cons, NodeTable.id_eq_of_find? hfind,
        ih fun id hid => h id (List.mem_cons_of_mem _ hid)]

/-- The ids of `topologicalOrder` are `finishedIds`, the earliest first. -/
private theorem map_id_topologicalOrder {g : Graph} (hclosed : g.Closed) :
    g.topologicalOrder.map Node.id = g.finishedIds.reverse :=
  map_id_filterMap_find? g.nodes fun _ hid =>
    mem_ids_of_mem_finishedIds hclosed (List.mem_reverse.mp hid)

/-- In the `topologicalOrder` of an `Acyclic` graph, whatever feeds a node stands before it. -/
theorem source_mem_of_topologicalOrder {g : Graph} (hclosed : g.Closed) (hacyclic : g.Acyclic)
    {before after : List Node} {n : Node} (horder : g.topologicalOrder = before ++ n :: after)
    {e : Edge} (he : e ∈ g.inputEdges n.id) : e.source.node ∈ before.map Node.id := by
  -- the order, read backwards, is the order of finishing
  have hids := map_id_topologicalOrder hclosed
  rw [horder, List.map_append, List.map_cons] at hids
  have hfinished : g.finishedIds =
      (after.map Node.id).reverse ++ n.id :: (before.map Node.id).reverse := by
    rw [← List.reverse_reverse g.finishedIds, ← hids]
    simp
  have hsettled := finishedIds_settled ((findCycle_eq_none_iff hclosed).mpr hacyclic)
  rw [hfinished] at hsettled
  exact List.mem_reverse.mp (hsettled.source_mem he)

end TensorGraph.Graph
