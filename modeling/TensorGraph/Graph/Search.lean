import TensorGraph.Graph.Basic

/-!
# Depth-first search

`Graph.explore` walks a graph against its edges, from nodes to the nodes they read. It takes the
roots in order, and at each node the incoming edges in order; a node is marked when it is entered
and finished when all its incoming edges have been looked at. The search keeps its own stack, so
depth is no limit, and it ends on every graph: each step marks an id or uses up an edge.

`Graph.topologicalOrder` is the order in which the nodes are finished.
-/

namespace TensorGraph

theorem countP_lt_countP {α : Type} {p q : α → Bool} {l : List α} (hle : ∀ x ∈ l, p x → q x)
    {a : α} (ha : a ∈ l) (hp : p a = false) (hq : q a = true) : l.countP p < l.countP q := by
  induction l with
  | nil => cases ha
  | cons x xs ih =>
    -- the rest counts at least as much for q as for p
    have hrest : xs.countP p ≤ xs.countP q :=
      List.countP_mono_left fun y hy => hle y (List.mem_cons_of_mem _ hy)
    rw [List.countP_cons, List.countP_cons]
    rcases List.mem_cons.mp ha with rfl | hmem
    · -- the first element is the one that counts for q only
      rw [if_pos hq, if_neg (by rw [hp]; decide)]
      omega
    · have hlt := ih (fun y hy => hle y (List.mem_cons_of_mem _ hy)) hmem
      by_cases hx : p x = true
      · rw [if_pos hx, if_pos (hle x List.mem_cons_self hx)]
        omega
      · rw [if_neg hx]
        omega

namespace Graph

/-- A node that has been entered, with the incoming edges that are still to be looked at. -/
structure Frame (g : Graph) where
  id : String
  pending : List Edge
  pending_mem : ∀ e ∈ pending, e ∈ g.edges

/-- The frame of a node that is just being entered. -/
def Frame.enter (g : Graph) (id : String) : Frame g :=
  ⟨id, g.inputEdges id, fun _ h => (List.mem_filter.mp h).1⟩

/-- The number of edges whose source has not been marked. -/
def unvisited (g : Graph) (visited : List String) : Nat :=
  g.edges.countP fun e => !visited.contains e.source.node

/-- The work that is left on a stack: frames and edges to be looked at. -/
def stackSize {g : Graph} : List (Frame g) → Nat
  | [] => 0
  | f :: rest => f.pending.length + 1 + stackSize rest

/-- Marking the source of an edge, and whatever else, leaves fewer edges in `unvisited`. -/
theorem unvisited_lt {g : Graph} {visited more : List String} (hmore : visited ⊆ more) {e : Edge}
    (he : e ∈ g.edges) (hnew : e.source.node ∉ visited) (hmarked : e.source.node ∈ more) :
    g.unvisited more < g.unvisited visited := by
  refine countP_lt_countP ?_ he (by simpa using hmarked) (by simpa using hnew)
  intro x _ hx
  simp only [Bool.not_eq_true', List.contains_eq_mem, decide_eq_false_iff_not] at hx ⊢
  exact fun hmem => hx (hmore hmem)

theorem unvisited_cons_lt {g : Graph} {visited : List String} {e : Edge} (he : e ∈ g.edges)
    (hnew : visited.contains e.source.node = false) :
    g.unvisited (e.source.node :: visited) < g.unvisited visited :=
  unvisited_lt (List.subset_cons_self _ _) he (by simpa using hnew) List.mem_cons_self

/-- Work off a stack of frames. The result holds the marked ids and the finished ids, both with the
latest first. -/
def search (g : Graph) (stack : List (Frame g)) (visited finished : List String) :
    List String × List String :=
  match stack with
  | [] => (visited, finished)
  | ⟨id, [], _⟩ :: rest => search g rest visited (id :: finished)
  | ⟨id, e :: es, mem⟩ :: rest =>
    let frame : Frame g := ⟨id, es, fun x hx => mem x (List.mem_cons_of_mem _ hx)⟩
    if _h : visited.contains e.source.node = true then search g (frame :: rest) visited finished
    else
      search g (Frame.enter g e.source.node :: frame :: rest) (e.source.node :: visited) finished
termination_by (g.unvisited visited, stackSize stack)
decreasing_by
  · apply Prod.Lex.right
    simp only [stackSize]
    omega
  · apply Prod.Lex.right
    simp only [stackSize, List.length_cons]
    omega
  · apply Prod.Lex.left
    exact unvisited_cons_lt (mem e List.mem_cons_self) (by simpa using _h)

/-- Search from each root in turn, skipping those already marked. -/
def explore (g : Graph) : List String → List String × List String → List String × List String
  | [], state => state
  | root :: roots, (visited, finished) =>
    if visited.contains root then g.explore roots (visited, finished)
    else g.explore roots (g.search [Frame.enter g root] (root :: visited) finished)

/-- All nodes, each after the nodes it reads unless it lies on a cycle. -/
def topologicalOrder (g : Graph) : List Node :=
  (g.explore g.nodes.ids ([], [])).2.reverse.filterMap g.nodes.find?

end Graph

end TensorGraph
