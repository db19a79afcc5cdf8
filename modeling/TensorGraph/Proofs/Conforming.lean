import TensorGraph.Proofs.Search
import TensorGraph.Proofs.Validity
import TensorGraph.Transform.Folding

/-!
# Graphs that keep to the conventions

Beyond being valid, a graph that a producer makes has for each node as many input ports as the
catalogue allows, and leads one edge to each of them. Nothing checks this; some passes rely on it.
-/

namespace TensorGraph

/-- `accepts` holds of the numbers of inputs in the range of the catalogue. -/
theorem Signature.accepts_iff {s : Signature} {count : Nat} :
    s.accepts count = true ↔ s.leastInputs ≤ count ∧ count ≤ s.mostInputs := by
  simp only [accepts, Bool.and_eq_true, decide_eq_true_eq]
  omega

namespace Graph

/-- The edges into an input port, in order. -/
def edgesInto (g : Graph) (id : String) (index : Nat) : List Edge :=
  g.edges.filter fun e => e.target.node = id ∧ e.target.index.integral? = some (index : Int)

/-- A node has a number of input ports that its kind accepts, and one edge leads to each of them. -/
structure Supplied (g : Graph) (n : Node) : Prop where
  arity : n.op.signature.accepts n.inputs.length = true
  fed_once : ∀ i < n.inputs.length, (g.edgesInto n.id i).length = 1

/-- A valid graph all of whose nodes are supplied. -/
structure Conforming (g : Graph) : Prop where
  valid : g.validate = .ok ()
  supplied : ∀ n ∈ g.nodes.toList, g.Supplied n

theorem Conforming.wellFormed {g : Graph} (hg : g.Conforming) : g.WellFormed :=
  validate_eq_ok_iff.mp hg.valid

theorem mem_edgesInto {g : Graph} {id : String} {i : Nat} {e : Edge} :
    e ∈ g.edgesInto id i ↔
      e ∈ g.edges ∧ e.target.node = id ∧ e.target.index.integral? = some (i : Int) := by
  simp [edgesInto]

/-- `edgesInto` picks its edges from `inputEdges`. -/
theorem edgesInto_eq_filter (g : Graph) (id : String) (index : Nat) :
    g.edgesInto id index =
      (g.inputEdges id).filter fun e => e.target.index.integral? = some (index : Int) := by
  rw [edgesInto, inputEdges, List.filter_filter]
  apply List.filter_congr
  intro e _
  rw [Bool.decide_and, Bool.and_comm]

/-- Whatever `isComputing` takes an input. -/
private theorem leastInputs_pos {kind : OpKind} (h : kind.isComputing = true) :
    0 < kind.signature.leastInputs := by
  cases kind <;> simp_all [OpKind.isComputing, OpKind.signature]

/-- The number of input ports of a `Supplied` node is in the range of its kind. -/
theorem Supplied.arity_bounds {g : Graph} {n : Node} (h : g.Supplied n) :
    n.op.signature.leastInputs ≤ n.inputs.length ∧
      n.inputs.length ≤ n.op.signature.mostInputs :=
  Signature.accepts_iff.mp h.arity

/-- A `Supplied` node that computes has an input port. -/
theorem Supplied.inputs_pos {g : Graph} {n : Node} (h : g.Supplied n)
    (hop : n.op.isComputing = true) :
    0 < n.inputs.length :=
  (leastInputs_pos hop).trans_le h.arity_bounds.1

/-- A `Supplied` node that computes is fed. -/
theorem Supplied.fed {g : Graph} {n : Node} (h : g.Supplied n) (hop : n.op.isComputing = true) :
    g.inputEdges n.id ≠ [] := by
  obtain ⟨e, he⟩ := List.length_eq_one_iff.mp (h.fed_once 0 (h.inputs_pos hop))
  have hmem : e ∈ g.edgesInto n.id 0 := he ▸ List.mem_singleton_self e
  obtain ⟨hin, htarget, _⟩ := mem_edgesInto.mp hmem
  exact List.ne_nil_of_mem (mem_inputEdges.mpr ⟨hin, htarget⟩)

/-- `scaledLayer` is `Conforming`. -/
theorem conforming_scaledLayer : scaledLayer.Conforming where
  valid := validate_scaledLayer
  supplied := by
    intro n hn
    simp only [scaledLayer, List.mem_cons, List.not_mem_nil, or_false] at hn
    rcases hn with rfl | rfl | rfl | rfl | rfl | rfl | rfl | rfl <;>
      exact ⟨by decide, by decide⟩

end Graph

end TensorGraph
