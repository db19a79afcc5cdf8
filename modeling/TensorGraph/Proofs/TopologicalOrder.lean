import Mathlib.Logic.Function.Iterate
import TensorGraph.Proofs.Validity

/-!
# The topological order

The topological order is found by a loop with a stack of its own, on which each node keeps the
incoming edges that it has still to look at. Two accounts of that loop are given here, for all
graphs, with cycles and dangling edges or without.

* Turn by turn (`Sorting.turn`): every turn uses up part of a stock of work that a graph with `n`
  nodes and `m` edges starts with `2 * (n + m)` of, so the loop is over after that many turns. The
  order it leaves holds every node once, and in a valid graph the source of every edge before its
  target (`topologicalOrder_sorts`).
* As a recursion (`Graph.visit`): a frame on the stack is a visit that waits for the visits of what
  feeds its node. To take up the waiting visits one after the other, from the top of the stack down,
  is what the loop has still to do (`visitsOf_search`), so it emits what the recursion emits
  (`topologicalOrder_by_recursion`).
-/

namespace TensorGraph.Graph

/-! ### Edges to nodes that have not been entered -/

/-- The number of edges whose target has not been marked. -/
def unentered (g : Graph) (marked : List String) : Nat :=
  g.edges.countP fun e => !marked.contains e.target.node

/-- Marking an id takes its incoming edges off the `unentered` ones. -/
private theorem unentered_cons {g : Graph} {marked : List String} {id : String}
    (hnew : id ∉ marked) :
    g.unentered (id :: marked) + (g.inputEdges id).length = g.unentered marked := by
  unfold unentered inputEdges
  induction g.edges with
  | nil => rfl
  | cons e es ih =>
    by_cases htarget : e.target.node = id
    · -- an edge into the id leaves one count and is in the other
      simp [htarget, hnew] at ih ⊢
      omega
    · simp [List.countP_cons, htarget] at ih ⊢
      omega

/-- The more ids are marked, the fewer edges `List.countP` counts with an end that is not. -/
private theorem countP_unmarked_mono (g : Graph) (key : Edge → String) {marked more : List String}
    (h : marked ⊆ more) :
    (g.edges.countP fun e => !more.contains (key e)) ≤
      g.edges.countP fun e => !marked.contains (key e) := by
  apply List.countP_mono_left
  intro e _ hnew
  simp only [Bool.not_eq_true', List.contains_eq_mem, decide_eq_false_iff_not] at hnew ⊢
  exact fun hmem => hnew (h hmem)

/-! ### The loop, turn by turn -/

/-- The edges that a frame has after the one it looks at are edges of the graph. -/
theorem Frame.mem_of_later {g : Graph} {e : Edge} {es : List Edge}
    (h : ∀ x ∈ e :: es, x ∈ g.edges) : ∀ x ∈ es, x ∈ g.edges :=
  fun x hx => h x (List.mem_cons_of_mem _ hx)

/-- Where the loop stands: the roots that it has not come to, the stack, and the marked and the
finished ids, both with the latest first. -/
structure Sorting (g : Graph) where
  roots : List String
  stack : List (Frame g)
  marked : List String
  finished : List String

namespace Sorting

variable {g : Graph}

/-- Nothing is marked, and every node is a root to come. -/
def start (g : Graph) : Sorting g := ⟨g.nodes.ids, [], [], []⟩

/-- One turn of the loop: take the next root, finish the node on top of the stack, or look at one of
its incoming edges. When nothing is left to do, nothing changes. -/
def turn : Sorting g → Sorting g
  | ⟨[], [], marked, finished⟩ => ⟨[], [], marked, finished⟩
  | ⟨root :: roots, [], marked, finished⟩ =>
    if marked.contains root then ⟨roots, [], marked, finished⟩
    else ⟨roots, [Frame.enter g root], root :: marked, finished⟩
  | ⟨roots, ⟨id, [], _⟩ :: rest, marked, finished⟩ => ⟨roots, rest, marked, id :: finished⟩
  | ⟨roots, ⟨id, e :: es, mem⟩ :: rest, marked, finished⟩ =>
    let frame : Frame g := ⟨id, es, Frame.mem_of_later mem⟩
    if marked.contains e.source.node then ⟨roots, frame :: rest, marked, finished⟩
    else ⟨roots, Frame.enter g e.source.node :: frame :: rest, e.source.node :: marked, finished⟩

/-- Nothing is left to do. -/
def Done (s : Sorting g) : Prop := s.roots = [] ∧ s.stack = []

/-- The nodes in the order in which they have been finished. -/
def order (s : Sorting g) : List Node := s.finished.reverse.filterMap g.nodes.find?

/-- The marked and finished ids that the search ends with from here. -/
def outcome (s : Sorting g) : List String × List String :=
  g.explore s.roots (g.search s.stack s.marked s.finished)

/-- A bound on the turns to come. An id that is marked brings its incoming edges onto the stack, and
these count no more among those to nodes that have not been entered. -/
def remaining (s : Sorting g) : Nat :=
  2 * s.roots.length + stackSize s.stack + g.unvisited s.marked + g.unentered s.marked

/-- A `turn` does not change the `outcome`. -/
private theorem outcome_turn (s : Sorting g) : s.turn.outcome = s.outcome := by
  fun_cases turn s with
  | case1 marked finished =>
    -- all is done
    rfl
  | case2 root roots marked finished hseen =>
    -- the root has been marked before
    simp only [outcome, search, explore, hseen, if_true]
  | case3 root roots marked finished hnew =>
    -- the search begins at the root
    simp only [outcome, search, explore, hnew, Bool.false_eq_true, if_false]
  | case4 roots id mem rest marked finished =>
    -- the node on top is finished
    simp only [outcome, search]
  | case5 roots id e es mem rest marked finished frame hseen =>
    -- the edge leads to a node that has been marked before
    simp only [outcome]
    conv_rhs => rw [search, dif_pos hseen]
  | case6 roots id e es mem rest marked finished frame hnew =>
    -- the edge leads to a new node
    simp only [outcome]
    conv_rhs => rw [search, dif_neg hnew]

/-- A `turn` leaves less work `remaining`, as long as there is something to do. -/
theorem remaining_turn_lt {s : Sorting g} (h : ¬ s.Done) : s.turn.remaining < s.remaining := by
  fun_cases turn s with
  | case1 marked finished => exact absurd ⟨rfl, rfl⟩ h
  | case2 root roots marked finished hseen =>
    simp only [remaining, List.length_cons]
    omega
  | case3 root roots marked finished hnew =>
    -- the incoming edges of the root go from one count to the other
    have hedges : g.unentered (root :: marked) + (g.inputEdges root).length = g.unentered marked :=
      unentered_cons (by simpa using hnew)
    have hsources : g.unvisited (root :: marked) ≤ g.unvisited marked :=
      g.countP_unmarked_mono _ (List.subset_cons_self _ _)
    simp only [remaining, List.length_cons, stackSize, Frame.enter]
    omega
  | case4 roots id mem rest marked finished =>
    simp only [remaining, stackSize]
    omega
  | case5 roots id e es mem rest marked finished frame hseen =>
    simp only [remaining, stackSize, List.length_cons, frame]
    omega
  | case6 roots id e es mem rest marked finished frame hnew =>
    -- the source leaves the one count of edges, and its incoming edges leave the other
    have hedges : g.unentered (e.source.node :: marked) + (g.inputEdges e.source.node).length =
        g.unentered marked := unentered_cons (by simpa using hnew)
    have hsources : g.unvisited (e.source.node :: marked) < g.unvisited marked :=
      unvisited_cons_lt (mem e List.mem_cons_self) (by simpa using hnew)
    simp only [remaining, stackSize, List.length_cons, Frame.enter, frame]
    omega

private theorem turn_of_done {s : Sorting g} (h : s.Done) : s.turn = s := by
  obtain ⟨roots, stack, marked, finished⟩ := s
  obtain ⟨rfl, rfl⟩ := h
  rfl

/-- After as many turns as `remaining` says, the loop is `Done`, and its `outcome` is the same. -/
private theorem turns_done {turns : Nat} {s : Sorting g} (h : s.remaining ≤ turns) :
    (turn^[turns] s).Done ∧ (turn^[turns] s).outcome = s.outcome := by
  induction turns generalizing s with
  | zero =>
    by_cases hdone : s.Done
    · exact ⟨hdone, rfl⟩
    · -- what is left to do gets less, so without turns all is done
      have hlt := remaining_turn_lt hdone
      omega
  | succ turns ih =>
    by_cases hdone : s.Done
    · -- further turns change nothing
      rw [Function.iterate_fixed (turn_of_done hdone)]
      exact ⟨hdone, rfl⟩
    · have hlt := remaining_turn_lt hdone
      rw [Function.iterate_succ_apply, ← outcome_turn s]
      exact ih (by omega)

/-- Where the loop is `Done`, its `outcome` is what there is. -/
private theorem Done.outcome_eq {s : Sorting g} (h : s.Done) :
    s.outcome = (s.marked, s.finished) := by
  rw [outcome, h.1, h.2, search, explore]

/-- At the `start` two turns are to come for each node and each edge, at most. -/
private theorem remaining_start (g : Graph) :
    (start g).remaining = 2 * (g.nodes.size + g.edges.length) := by
  have hroots : g.nodes.ids.length = g.nodes.size := by simp [NodeTable.ids, NodeTable.size]
  have hsources : g.unvisited [] = g.edges.length := by simp [unvisited]
  have htargets : g.unentered [] = g.edges.length := by simp [unentered]
  simp only [remaining, start, stackSize]
  omega

/-- From `start` the loop is `Done` after two turns for each node and each edge, and has found
`topologicalOrder`. -/
theorem turns_start {turns : Nat} (h : 2 * (g.nodes.size + g.edges.length) ≤ turns) :
    (turn^[turns] (start g)).Done ∧ (turn^[turns] (start g)).order = g.topologicalOrder := by
  have hwork : (start g).remaining ≤ turns := (remaining_start g).trans_le h
  obtain ⟨hdone, houtcome⟩ := turns_done hwork
  constructor
  · exact hdone
  · rw [hdone.outcome_eq, outcome, start, search] at houtcome
    rw [topologicalOrder, ← houtcome]
    rfl

end Sorting

/-! ### The order of the ends of an edge -/

/-- In a list of nodes that holds every node once, an edge is respected if its source stands before
its target. -/
def Respects (order : List Node) (e : Edge) : Prop :=
  ∃ before source between target after, order = before ++ source :: (between ++ target :: after) ∧
    source.id = e.source.node ∧ target.id = e.target.node

/-- The `topologicalOrder` of an `Acyclic` graph `Respects` every edge. -/
theorem topologicalOrder_respects {g : Graph} (hclosed : g.Closed) (hacyclic : g.Acyclic) {e : Edge}
    (he : e ∈ g.edges) : Respects g.topologicalOrder e := by
  obtain ⟨target, htarget, htid⟩ := List.mem_map.mp (hclosed e he).2
  obtain ⟨earlier, after, horder⟩ :=
    List.append_of_mem (g.topologicalOrder_perm.mem_iff.mpr htarget)
  -- the source is among the nodes before the target
  have hsource := source_mem_of_topologicalOrder hclosed hacyclic horder
    (mem_inputEdges.mpr ⟨he, htid.symm⟩)
  obtain ⟨source, hsource, hsid⟩ := List.mem_map.mp hsource
  obtain ⟨before, between, hearlier⟩ := List.append_of_mem hsource
  refine ⟨before, source, between, target, after, ?_, hsid, htid⟩
  rw [horder, hearlier, List.append_assoc, List.cons_append]

/-- `topologicalOrder` ends on every graph, within two turns for each node and each edge, and gives
every node exactly once; in a valid graph the source of every edge comes before its target
(`Respects`). -/
theorem topologicalOrder_sorts (g : Graph) :
    (∀ turns, 2 * (g.nodes.size + g.edges.length) ≤ turns →
      (Sorting.turn^[turns] (Sorting.start g)).Done ∧
        (Sorting.turn^[turns] (Sorting.start g)).order = g.topologicalOrder) ∧
      g.topologicalOrder.Perm g.nodes.toList ∧ g.topologicalOrder.Nodup ∧
      (g.validate = .ok () → ∀ e ∈ g.edges, Respects g.topologicalOrder e) := by
  refine ⟨fun _ => Sorting.turns_start, g.topologicalOrder_perm,
    List.Nodup.of_map Node.id g.topologicalOrder_ids_nodup, ?_⟩
  intro hvalid e he
  have hg := validate_eq_ok_iff.mp hvalid
  exact topologicalOrder_respects hg.closed hg.acyclic he

/-- `scaledLayer` has eight nodes and eight edges, so thirty-two turns are enough; the product of
its two constants comes before the matrix product that reads it. -/
theorem topologicalOrder_sorts_scaledLayer :
    scaledLayer.validate = .ok () ∧ layerEdge "e_13" "k_5" "m_6" 1 ∈ scaledLayer.edges ∧
      (Sorting.turn^[32] (Sorting.start scaledLayer)).Done ∧
      Respects scaledLayer.topologicalOrder (layerEdge "e_13" "k_5" "m_6" 1) := by
  have hmem : layerEdge "e_13" "k_5" "m_6" 1 ∈ scaledLayer.edges := by decide
  obtain ⟨hturns, _, _, hrespects⟩ := topologicalOrder_sorts scaledLayer
  exact ⟨validate_scaledLayer, hmem, (hturns 32 (by decide)).1,
    hrespects validate_scaledLayer _ hmem⟩

/-! ### The same order by recursion -/

/-- The ids that have been marked, the latest first, and the nodes that have been emitted, in
order. -/
structure Visits where
  marked : List String := []
  emitted : List Node := []

namespace Visits

/-- Mark an id. -/
def mark (s : Visits) (id : String) : Visits := { s with marked := id :: s.marked }

/-- Emit a node, if there is one. -/
def emit (s : Visits) (node : Option Node) : Visits :=
  { s with emitted := s.emitted ++ node.toList }

/-- What visits can lead to from here: all that is marked stays marked. -/
abbrev Later (s : Visits) : Type := { t : Visits // s.marked ⊆ t.marked }

/-- Marking more leaves no more `unentered` edges, so a second measure decides. -/
private theorem Later.lex_lt {g : Graph} {s : Visits} (t : s.Later) {few many : Nat}
    (h : few < many) :
    Prod.Lex (· < ·) (· < ·) (g.unentered t.1.marked, few) (g.unentered s.marked, many) := by
  have hle : g.unentered t.1.marked ≤ g.unentered s.marked := g.countP_unmarked_mono _ t.2
  rw [Prod.lex_def]
  omega

end Visits

mutual

/-- Visit an id; see `visit`. The recursion ends as the edges into an id that is just being marked
are edges to a node that had not been entered. -/
def visitLater (g : Graph) (id : String) (s : Visits) : s.Later :=
  if _h : id ∈ s.marked then ⟨s, fun _ hx => hx⟩
  else
    let t := visitSources g (g.inputEdges id) (s.mark id)
    ⟨t.1.emit (g.nodes.find? id), fun _ hx => t.2 (List.mem_cons_of_mem _ hx)⟩
termination_by (g.unentered s.marked, 1)
decreasing_by
  have hcount : g.unentered (id :: s.marked) + (g.inputEdges id).length = g.unentered s.marked :=
    unentered_cons _h
  rw [Prod.lex_def]
  simp only [Visits.mark]
  omega

/-- Visit the sources of some edges, one after the other. -/
def visitSources (g : Graph) (edges : List Edge) (s : Visits) : s.Later :=
  match edges with
  | [] => ⟨s, fun _ hx => hx⟩
  | e :: rest =>
    let t := visitLater g e.source.node s
    let u := visitSources g rest t.1
    ⟨u.1, fun _ hx => u.2 (t.2 hx)⟩
termination_by (g.unentered s.marked, 2 * edges.length)
decreasing_by
  · apply Prod.Lex.right
    simp only [List.length_cons]
    omega
  · exact Visits.Later.lex_lt _ (by simp)

end

/-- Visit an id: unless it is marked, mark it, visit the sources of its incoming edges in order, and
emit its node if it has one. -/
def visit (g : Graph) (s : Visits) (id : String) : Visits := (g.visitLater id s).1

/-- `visitSources` is one `visit` after the other. -/
private theorem visitSources_eq_foldl (g : Graph) (edges : List Edge) (s : Visits) :
    (g.visitSources edges s).1 = edges.foldl (fun s e => g.visit s e.source.node) s := by
  induction edges generalizing s with
  | nil => rw [visitSources, List.foldl_nil]
  | cons e rest ih =>
    rw [visitSources, List.foldl_cons, ← ih]
    rfl

private theorem visit_of_mem {g : Graph} {s : Visits} {id : String} (h : id ∈ s.marked) :
    g.visit s id = s := by
  rw [visit, visitLater, dif_pos h]

/-- To `visit` an id that is not marked is to mark it, to visit what feeds it, and to emit it. -/
private theorem visit_of_not_mem {g : Graph} {s : Visits} {id : String} (h : id ∉ s.marked) :
    g.visit s id = ((g.inputEdges id).foldl (fun s e => g.visit s e.source.node) (s.mark id)).emit
      (g.nodes.find? id) := by
  rw [visit, visitLater, dif_neg h]
  show (g.visitSources (g.inputEdges id) (s.mark id)).1.emit _ = _
  rw [visitSources_eq_foldl]

/-- What the marked and finished ids of a search are to the recursion. -/
def visitsOf (g : Graph) (state : List String × List String) : Visits :=
  ⟨state.1, state.2.reverse.filterMap g.nodes.find?⟩

private theorem visitsOf_finish (g : Graph) (visited finished : List String) (id : String) :
    g.visitsOf (visited, id :: finished) =
      (g.visitsOf (visited, finished)).emit (g.nodes.find? id) := by
  cases h : g.nodes.find? id <;> simp [visitsOf, Visits.emit, h]

/-- Take up the visits that wait on a stack, from the top down: each goes on with the edges that it
has still to look at, and then emits its node. -/
def resume (g : Graph) (stack : List (Frame g)) (s : Visits) : Visits :=
  stack.foldl (fun s f =>
    (f.pending.foldl (fun s e => g.visit s e.source.node) s).emit (g.nodes.find? f.id)) s

/-- What `search` has still to do is to `resume` the visits that wait on its stack. -/
private theorem visitsOf_search (g : Graph) (stack : List (Frame g))
    (visited finished : List String) :
    g.visitsOf (g.search stack visited finished) =
      g.resume stack (g.visitsOf (visited, finished)) := by
  fun_induction search g stack visited finished with
  | case1 visited finished => rfl
  | case2 visited finished id mem rest ih =>
    -- the visit on top has no edges left, so it emits its node
    rw [ih, visitsOf_finish]
    rfl
  | case3 visited finished id e es mem rest frame hseen ih =>
    -- to visit a marked source does nothing, be it finished or still on the stack
    have hmarked : e.source.node ∈ (g.visitsOf (visited, finished)).marked :=
      List.contains_iff_mem.mp hseen
    rw [ih]
    simp only [resume, List.foldl_cons, visit_of_mem hmarked, frame]
  | case4 visited finished id e es mem rest frame hnew ih =>
    -- the frame that goes on top is the visit of the source, just begun
    have hmarked : e.source.node ∉ (g.visitsOf (visited, finished)).marked :=
      fun hmem => hnew (List.contains_iff_mem.mpr hmem)
    rw [ih]
    simp only [resume, List.foldl_cons, visit_of_not_mem hmarked, frame]
    rfl

/-- To `explore` from some roots is to `visit` them in turn. -/
private theorem visitsOf_explore (g : Graph) (roots : List String)
    (state : List String × List String) :
    g.visitsOf (g.explore roots state) = roots.foldl g.visit (g.visitsOf state) := by
  induction roots generalizing state with
  | nil => rfl
  | cons root roots ih =>
    obtain ⟨visited, finished⟩ := state
    rw [explore, List.foldl_cons]
    by_cases hseen : root ∈ visited
    · rw [if_pos (List.contains_iff_mem.mpr hseen), ih, visit_of_mem hseen]
    · -- the search from a new root is one more visit
      rw [if_neg (by simpa using hseen), ih, visitsOf_search, visit_of_not_mem hseen]
      rfl

/-- On every graph `topologicalOrder` is what the recursion emits: each node in table order is
visited, where to `visit` an id that is not marked is to mark it, to visit the sources of its
incoming edges in order, and then to emit it if it is a node. -/
theorem topologicalOrder_by_recursion (g : Graph) :
    (∀ s id, g.visit s id =
      if id ∈ s.marked then s
      else ((g.inputEdges id).foldl (fun t e => g.visit t e.source.node) (s.mark id)).emit
        (g.nodes.find? id)) ∧
      g.topologicalOrder = (g.nodes.ids.foldl g.visit {}).emitted := by
  constructor
  · intro s id
    by_cases hid : id ∈ s.marked
    · rw [if_pos hid, visit_of_mem hid]
    · rw [if_neg hid, visit_of_not_mem hid]
  · exact congrArg Visits.emitted (g.visitsOf_explore g.nodes.ids ([], []))

end TensorGraph.Graph
