import Mathlib.Logic.Function.Iterate
import TensorGraph.Proofs.Liveness

/-!
# What is left when dead nodes are dropped

On every graph, with cycles, dangling edges and shared parts or without, the nodes that are left are
the live ones and the edges that are left are those between them, both in their old order
(`toList_nodes_dropDead`, `edges_dropDead`). The search behind this takes a turn for each id that
joins its queue. These are the output nodes and the sources of some edges, each of them once, so the
search is over after a turn for each output node and each edge (`Frontier.turns_start`).

An id that is no node can be live: a path to an output node may pass through it. The nodes before it
are then kept, but the edges at it go, and dropping again would drop these nodes. So it takes a
graph without dangling edges for dropping twice to be dropping once (`dropDead_keeps_exactly_live`).
-/

namespace TensorGraph.Graph

/-! ### The search, turn by turn -/

namespace Frontier

variable {g : Graph}

/-- After as many turns as `remaining` says, the queue is empty, and what `run` ends with has been
reached. -/
private theorem turns_run {turns : Nat} {s : Frontier} (h : s.remaining g ≤ turns) :
    ((turn g)^[turns] s).queue = [] ∧ ((turn g)^[turns] s).reached = s.run g := by
  induction turns generalizing s with
  | zero =>
    have hdone : s.queue = [] := by
      by_contra hmore
      have hlt := remaining_turn_lt (g := g) hmore
      omega
    rw [run, dif_pos hdone]
    exact ⟨hdone, rfl⟩
  | succ turns ih =>
    by_cases hdone : s.queue = []
    · -- once the queue is empty, turns change nothing
      have hsame : s.turn g = s := by simp only [turn, hdone]
      rw [Function.iterate_fixed hsame, run, dif_pos hdone]
      exact ⟨hdone, rfl⟩
    · have hlt := remaining_turn_lt (g := g) hdone
      rw [Function.iterate_succ_apply, run, dif_neg hdone]
      exact ih (by omega)

/-- The search from `start` is over after a turn for each root and each edge. -/
theorem turns_start (roots : List String) {turns : Nat}
    (h : roots.length + g.edges.length ≤ turns) :
    ((turn g)^[turns] (start roots)).queue = [] ∧
      ((turn g)^[turns] (start roots)).reached = g.reachedFrom roots := by
  refine turns_run (Nat.le_trans ?_ h)
  exact Nat.add_le_add_left List.countP_le_length _

end Frontier

/-! ### What is left -/

/-- `dropDead` leaves the `Live` nodes, in table order. -/
private theorem toList_nodes_dropDead (g : Graph) :
    g.dropDead.nodes.toList = g.nodes.toList.filter fun n => g.Live n.id := by
  show g.nodes.toList.filter (fun n => (g.reachedFrom g.outputIds).contains n.id) = _
  apply List.filter_congr
  intro n _
  rw [Bool.eq_iff_iff, contains_reachedFrom_iff, decide_eq_true_iff]

/-- `dropDead` leaves the edges with both ends left, in their order. -/
private theorem edges_dropDead (g : Graph) :
    g.dropDead.edges = g.edges.filter fun e =>
      e.source.node ∈ g.dropDead.nodes.ids ∧ e.target.node ∈ g.dropDead.nodes.ids := by
  show g.edges.filter (fun e => g.dropDead.nodes.contains e.source.node &&
    g.dropDead.nodes.contains e.target.node) = _
  apply List.filter_congr
  intro e _
  rw [Bool.eq_iff_iff, Bool.and_eq_true, NodeTable.contains_eq_true_iff,
    NodeTable.contains_eq_true_iff, decide_eq_true_iff]

/-- After `dropDead` no edge dangles. -/
private theorem closed_dropDead (g : Graph) : g.dropDead.Closed := by
  intro e he
  rw [edges_dropDead, List.mem_filter, decide_eq_true_iff] at he
  exact he.2

/-- Where no edge dangles, `dropDead` leaves nothing that it would drop. -/
private theorem dropDead_dropDead {g : Graph} (hclosed : g.Closed) :
    g.dropDead.dropDead = g.dropDead := by
  apply dropDead_eq_self
  · exact closed_dropDead g
  · intro n hn
    exact (mem_dropDead_iff.mp hn).2.dropDead hclosed

/-- `dropDead` ends on every graph: its search is over after a turn for each output node and each
edge. It keeps exactly the nodes from which an output node can be reached and exactly the edges
between nodes that it keeps, unchanged and in their order. If no edge dangles, every node that is
left keeps all its incoming edges, and dropping dead nodes again changes nothing. -/
theorem dropDead_keeps_exactly_live (g : Graph) :
    (∀ turns, g.outputIds.length + g.edges.length ≤ turns →
      ((Frontier.turn g)^[turns] (Frontier.start g.outputIds)).queue = [] ∧
        ((Frontier.turn g)^[turns] (Frontier.start g.outputIds)).reached =
          g.reachedFrom g.outputIds) ∧
      g.dropDead.id = g.id ∧ g.dropDead.metadata = g.metadata ∧
      (g.dropDead.nodes.toList = g.nodes.toList.filter fun n => g.Live n.id) ∧
      (g.dropDead.edges = g.edges.filter fun e =>
        e.source.node ∈ g.dropDead.nodes.ids ∧ e.target.node ∈ g.dropDead.nodes.ids) ∧
      (g.Closed →
        (∀ n ∈ g.dropDead.nodes.toList, g.dropDead.inputEdges n.id = g.inputEdges n.id) ∧
          g.dropDead.dropDead = g.dropDead) := by
  refine ⟨fun turns => Frontier.turns_start g.outputIds, rfl, rfl, g.toList_nodes_dropDead,
    g.edges_dropDead, fun hclosed => ⟨fun n hn => ?_, dropDead_dropDead hclosed⟩⟩
  exact inputEdges_dropDead hclosed (mem_dropDead_iff.mp hn).2

/-- A layer whose activation is fed back to its sum, with a branch that leads to no output. -/
def forkedLayer : Graph where
  id := "g_1"
  nodes :=
    ⟨[layerNode "x_2" .input 0, layerNode "d_3" .relu 1, layerNode "a_4" .add 2,
      layerNode "s_5" .sigmoid 1, layerNode "r_6" .relu 1, layerNode "y_7" .output 1], by decide⟩
  edges :=
    [layerEdge "e_8" "x_2" "d_3" 0, layerEdge "e_9" "d_3" "s_5" 0, layerEdge "e_10" "x_2" "a_4" 0,
     layerEdge "e_11" "r_6" "a_4" 1, layerEdge "e_12" "a_4" "r_6" 0, layerEdge "e_13" "r_6" "y_7" 0]

/-- In `forkedLayer` the search is over after seven turns, the cycle is kept and the branch goes. -/
theorem dropDead_forkedLayer :
    forkedLayer.Closed ∧
      ((Frontier.turn forkedLayer)^[7] (Frontier.start forkedLayer.outputIds)).queue = [] ∧
      forkedLayer.dropDead.nodes.ids = ["x_2", "a_4", "r_6", "y_7"] ∧
      forkedLayer.dropDead.inputEdges "a_4" =
        [layerEdge "e_10" "x_2" "a_4" 0, layerEdge "e_11" "r_6" "a_4" 1] ∧
      forkedLayer.dropDead.dropDead = forkedLayer.dropDead := by
  have hclosed : forkedLayer.Closed := by
    unfold Closed
    decide
  have hids : forkedLayer.dropDead.nodes.ids = ["x_2", "a_4", "r_6", "y_7"] := rfl
  obtain ⟨hturns, _, _, _, _, hkeeps⟩ := dropDead_keeps_exactly_live forkedLayer
  obtain ⟨hinputs, htwice⟩ := hkeeps hclosed
  refine ⟨hclosed, (hturns 7 (by decide)).1, hids, ?_, htwice⟩
  -- of the live nodes the theorem says that their edges are kept
  have hmem : "a_4" ∈ forkedLayer.dropDead.nodes.ids := by simp [hids]
  obtain ⟨n, hn, hid⟩ := List.mem_map.mp hmem
  rw [← hid, hinputs n hn, hid]
  rfl

end TensorGraph.Graph
