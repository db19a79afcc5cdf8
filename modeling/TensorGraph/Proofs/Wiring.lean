import Mathlib.Logic.Embedding.Basic
import TensorGraph.Proofs.NodeTable
import TensorGraph.Proofs.Search
import TensorGraph.Transform.Liveness

/-!
# Graphs that are wired alike

A search looks at the ends of edges and at nothing else that a graph holds. So it marks and finishes
the same ids, in the same order, in a graph that has the edges of another one, each changed in some
way and its ends maybe under other ids (`WiredAs.explore_eq`). If the nodes have the same ids too,
they stand in the same topological order (`WiredAs.topologicalOrder_eq`). A search in breadth
reaches the same ids in the same order (`WiredAs.reachedFrom_eq`).
-/

namespace TensorGraph.Graph

/-! ### One step of a search -/

section
variable {g : Graph} {id : String} {e : Edge} {es : List Edge} {mem : ∀ x ∈ e :: es, x ∈ g.edges}
  {rest : List (Frame g)} {visited finished : List String}

/-- `search` passes over an edge from an id that is marked. -/
private theorem search_of_seen (h : visited.contains e.source.node = true) :
    g.search (⟨id, e :: es, mem⟩ :: rest) visited finished =
      g.search (⟨id, es, fun x hx => mem x (List.mem_cons_of_mem _ hx)⟩ :: rest) visited
        finished := by
  rw [search, dif_pos h]

/-- `search` enters the source of an edge if it is not marked. -/
private theorem search_of_new (h : ¬ visited.contains e.source.node = true) :
    g.search (⟨id, e :: es, mem⟩ :: rest) visited finished =
      g.search (Frame.enter g e.source.node ::
        ⟨id, es, fun x hx => mem x (List.mem_cons_of_mem _ hx)⟩ :: rest) (e.source.node :: visited)
          finished := by
  rw [search, dif_neg h]

end

/-! ### Searching side by side -/

/-- The first graph has the edges of the second one, changed one by one, with their ends under other
ids. -/
structure WiredAs (h g : Graph) (ids : String ↪ String) (change : Edge → Edge) : Prop where
  edges_eq : h.edges = g.edges.map change
  source_eq : ∀ e, (change e).source.node = ids e.source.node
  target_eq : ∀ e, (change e).target.node = ids e.target.node

namespace WiredAs

variable {g h : Graph} {ids : String ↪ String} {change : Edge → Edge} (hw : h.WiredAs g ids change)

section
include hw

/-- In a graph `WiredAs` another one a node has the incoming edges that it has there. -/
theorem inputEdges_eq (id : String) : h.inputEdges (ids id) = (g.inputEdges id).map change := by
  simp only [inputEdges, hw.edges_eq, List.filter_map]
  congr 2
  funext e
  simp [hw.target_eq]

/-- In a graph `WiredAs` another one a node has the outgoing edges that it has there. -/
theorem outputEdges_eq (id : String) : h.outputEdges (ids id) = (g.outputEdges id).map change := by
  simp only [outputEdges, hw.edges_eq, List.filter_map]
  congr 2
  funext e
  simp [hw.source_eq]

end

/-- The frame of a search in the other graph. -/
def frame (f : Frame g) : Frame h where
  id := ids f.id
  pending := f.pending.map change
  pending_mem := by
    intro e he
    obtain ⟨e₀, he₀, rfl⟩ := List.mem_map.mp he
    rw [hw.edges_eq]
    exact List.mem_map_of_mem (f.pending_mem e₀ he₀)

include hw

private theorem frame_enter (id : String) :
    hw.frame (Frame.enter g id) = Frame.enter h (ids id) := by
  simp only [frame, Frame.enter, hw.inputEdges_eq]

private theorem contains_source (visited : List String) (e : Edge) :
    (visited.map ids).contains (change e).source.node = visited.contains e.source.node := by
  simp [hw.source_eq, List.contains_eq_mem]

/-- `search` marks and finishes the same ids in the same order. -/
private theorem search_eq (stack : List (Frame g)) (visited finished : List String) :
    h.search (stack.map hw.frame) (visited.map ids) (finished.map ids) =
      ((g.search stack visited finished).1.map ids,
      (g.search stack visited finished).2.map ids) := by
  -- an edge leads to a marked id on one side if it does on the other
  fun_induction search g stack visited finished with
  | case1 visited finished => simp [search]
  | case2 visited finished id mem rest ih =>
    rw [← ih]
    simp [search, frame]
  | case3 visited finished id e es mem rest next hseen ih =>
    exact (search_of_seen (by rw [hw.contains_source, hseen])).trans ih
  | case4 visited finished id e es mem rest next hnew ih =>
    rw [List.map_cons, frame_enter, List.map_cons, List.map_cons, ← hw.source_eq] at ih
    exact (search_of_new (by rw [hw.contains_source]; exact hnew)).trans ih

/-- `explore` marks and finishes the same ids in the same order. -/
private theorem explore_eq (roots : List String) (state : List String × List String) :
    h.explore (roots.map ids) (state.1.map ids, state.2.map ids) =
      ((g.explore roots state).1.map ids, (g.explore roots state).2.map ids) := by
  induction roots generalizing state with
  | nil => rfl
  | cons root roots ih =>
    obtain ⟨visited, finished⟩ := state
    have hseen : (visited.map ids).contains (ids root) = visited.contains root := by
      simp [List.contains_eq_mem]
    rw [List.map_cons, explore, explore, hseen]
    split
    · exact ih _
    · -- a root that is not marked is searched from on both sides
      have hsearch := hw.search_eq [Frame.enter g root] (root :: visited) finished
      rw [List.map_singleton, frame_enter, List.map_cons] at hsearch
      rw [hsearch]
      exact ih _

/-- `Frontier.cross` reaches the same ids, and queues them in the same order. -/
private theorem foldl_cross_eq (es : List Edge) (s : Frontier) :
    (es.map change).foldl Frontier.cross ⟨s.reached.map ids, s.queue.map ids⟩ =
      ⟨(es.foldl Frontier.cross s).reached.map ids, (es.foldl Frontier.cross s).queue.map ids⟩ := by
  induction es generalizing s with
  | nil => rfl
  | cons e es ih =>
    -- one edge adds the renamed source, if it was to add the source
    have hcross : Frontier.cross ⟨s.reached.map ids, s.queue.map ids⟩ (change e) =
        ⟨(s.cross e).reached.map ids, (s.cross e).queue.map ids⟩ := by
      unfold Frontier.cross
      dsimp only
      rw [hw.contains_source]
      split
      · rfl
      · simp [hw.source_eq]
    rw [List.map_cons, List.foldl_cons, List.foldl_cons, hcross]
    exact ih (s.cross e)

/-- A `Frontier.turn` goes the same way in both graphs. -/
private theorem turn_eq (s : Frontier) :
    Frontier.turn h ⟨s.reached.map ids, s.queue.map ids⟩ =
      ⟨(s.turn g).reached.map ids, (s.turn g).queue.map ids⟩ := by
  obtain ⟨reached, queue⟩ := s
  cases queue with
  | nil => rfl
  | cons id rest =>
    simp only [Frontier.turn, List.map_cons, hw.inputEdges_eq]
    exact hw.foldl_cross_eq (g.inputEdges id) ⟨reached, rest⟩

/-- `Frontier.run` reaches the same ids in the same order. -/
theorem run_eq (s : Frontier) :
    Frontier.run h ⟨s.reached.map ids, s.queue.map ids⟩ = (s.run g).map ids := by
  fun_induction Frontier.run g s with
  | case1 s hdone => rw [Frontier.run, dif_pos (by simp [hdone])]
  | case2 s hmore ih => rw [Frontier.run, dif_neg (by simpa using hmore), hw.turn_eq, ih]

theorem reachedFrom_eq (roots : List String) :
    h.reachedFrom (roots.map ids) = (g.reachedFrom roots).map ids := hw.run_eq (.start roots)

/-- `topologicalOrder` puts the nodes in the same order. -/
theorem topologicalOrder_eq (hids : h.nodes.ids = g.nodes.ids.map ids) :
    h.topologicalOrder = g.topologicalOrder.filterMap fun n => h.nodes.find? (ids n.id) := by
  have hexplore := congrArg Prod.snd (hw.explore_eq g.nodes.ids ([], []))
  simp only [List.map_nil] at hexplore
  unfold topologicalOrder
  rw [hids, hexplore, ← List.map_reverse, List.filterMap_map, List.filterMap_filterMap]
  congr 1
  funext id
  cases hfind : g.nodes.find? id with
  | none =>
    -- what is no node here is no node there
    have hnew : ids id ∉ h.nodes.ids := by
      rw [hids, List.mem_map_of_injective ids.injective]
      exact NodeTable.find?_eq_none_iff.mp hfind
    exact NodeTable.find?_eq_none_iff.mpr hnew
  | some n =>
    show h.nodes.find? (ids id) = h.nodes.find? (ids n.id)
    rw [NodeTable.id_eq_of_find? hfind]

end WiredAs

end TensorGraph.Graph
