import TensorGraph.Graph.Search

/-!
# Removal of dead nodes

A node is live if an output node can be reached from it. The other nodes go, with the edges at them.

The live nodes are found by a search that goes against the edges and keeps a queue (`Frontier`). It
starts with the output nodes. In each turn the id at the front leaves the queue, and whatever feeds
it and has not been reached before joins the queue at its end. So the search goes in breadth, and it
ends on every graph: an id joins the queue once, and only if an edge comes from it.
-/

namespace TensorGraph.Graph

/-- Where a search in breadth stands: the ids that have been reached, and those of them whose
incoming edges have not been looked at. -/
structure Frontier where
  reached : List String
  queue : List String
deriving DecidableEq, Repr

namespace Frontier

/-- The search before its first turn. -/
def start (roots : List String) : Frontier := ⟨roots, roots⟩

/-- Look at an edge: its source joins the queue, unless it has been reached before. -/
def cross (s : Frontier) (e : Edge) : Frontier :=
  if s.reached.contains e.source.node then s
  else ⟨s.reached ++ [e.source.node], s.queue ++ [e.source.node]⟩

/-- One turn: the id at the front leaves the queue, and the edges into it are looked at. Where the
queue is empty, nothing changes. -/
def turn (g : Graph) (s : Frontier) : Frontier :=
  match s.queue with
  | [] => s
  | id :: rest => (g.inputEdges id).foldl cross { s with queue := rest }

/-- A bound on the turns to come: the ids in the queue, and the edges from ids that may join it. -/
def remaining (g : Graph) (s : Frontier) : Nat := s.queue.length + g.unvisited s.reached

/-- An id that joins the queue takes the place of an edge that counted for it. -/
private theorem remaining_cross_le {g : Graph} {e : Edge} (he : e ∈ g.edges) (s : Frontier) :
    (s.cross e).remaining g ≤ s.remaining g := by
  unfold cross
  split
  · exact Nat.le_refl _
  · rename_i hnew
    -- the source is no longer unvisited, which makes up for the longer queue
    have hlt : g.unvisited (s.reached ++ [e.source.node]) < g.unvisited s.reached :=
      unvisited_lt (List.subset_append_left _ _) he (by simpa using hnew) (by simp)
    simp only [remaining, List.length_append, List.length_singleton]
    omega

private theorem remaining_foldl_cross_le {g : Graph} {es : List Edge} (hes : ∀ e ∈ es, e ∈ g.edges)
    (s : Frontier) : (es.foldl cross s).remaining g ≤ s.remaining g := by
  induction es generalizing s with
  | nil => exact Nat.le_refl _
  | cons e es ih =>
    obtain ⟨he, hrest⟩ := List.forall_mem_cons.mp hes
    exact Nat.le_trans (ih hrest (s.cross e)) (remaining_cross_le he s)

/-- A turn leaves less to do, as long as the queue is not empty. -/
theorem remaining_turn_lt {g : Graph} {s : Frontier} (h : s.queue ≠ []) :
    (s.turn g).remaining g < s.remaining g := by
  obtain ⟨reached, queue⟩ := s
  cases queue with
  | nil => exact absurd rfl h
  | cons id rest =>
    -- crossing edges adds nothing, and one id has left the queue
    have hle : (turn g ⟨reached, id :: rest⟩).remaining g ≤ remaining g ⟨reached, rest⟩ :=
      remaining_foldl_cross_le (fun e he => (List.mem_filter.mp he).1) _
    simp only [remaining, List.length_cons] at hle ⊢
    omega

/-- Take turns until the queue is empty. The result is what has been reached then. -/
@[semireducible] def run (g : Graph) (s : Frontier) : List String :=
  if _h : s.queue = [] then s.reached else (s.turn g).run g
termination_by s.remaining g
decreasing_by exact remaining_turn_lt _h

end Frontier

/-- The ids from which one of the given ids can be reached along edges. -/
def reachedFrom (g : Graph) (roots : List String) : List String := (Frontier.start roots).run g

/-- The ids of the output nodes, in table order. -/
def outputIds (g : Graph) : List String := (g.nodes.toList.filter (·.op == .output)).map Node.id

/-- The graph without the nodes from which no output node can be reached. -/
def dropDead (g : Graph) : Graph :=
  let live := g.reachedFrom g.outputIds
  let nodes := g.nodes.filter fun n => live.contains n.id
  { g with
    nodes := nodes
    edges := g.edges.filter fun e =>
      nodes.contains e.source.node && nodes.contains e.target.node }

end TensorGraph.Graph
