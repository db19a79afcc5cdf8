import TensorGraph.Proofs.CarriedTypes
import TensorGraph.Proofs.Passes
import TensorGraph.Proofs.Wiring

/-!
# Typing twice

Inference leaves alone what it has typed, whatever the graph is like: with cycles, with edges from
nodes that are not there, with types that a node declared and that its formula did not give. Such a
type may be stale, but no other node ever reads it, as types are handed on through what was found so
far and not through ports. So a second run finds the same types as the first, node by node
(`step_again`, `run_again`), in the same order (`WiredAs.topologicalOrder_eq`), and writes them
where they already stand.
-/

namespace TensorGraph

namespace Typing

open TensorGraph.Graph

/-! ### One node -/

private theorem retype_retype (port : Port) (type : Option TensorType) :
    retype (retype port type) type = retype port type := by
  cases type <;> rfl

/-- Types that have been `written` into a node can be written again without a change. -/
private theorem written_written (n : Node) (inputs : InputTypes) (out : Option TensorType) :
    written (written n inputs out) inputs out = written n inputs out := by
  -- a port that has a type is given it again
  have hinputs : List.zipWith retype (List.zipWith retype n.inputs inputs) inputs =
      List.zipWith retype n.inputs inputs := by
    apply List.ext_getElem
    · simp
    · intro i _ _
      simp [retype_retype]
  have houtputs : ((n.outputs.map fun port => retype port out).map fun port => retype port out) =
      n.outputs.map fun port => retype port out := by
    simp [retype_retype]
  simp only [written, hinputs, houtputs]

/-! ### Graphs with the types of edges found -/

section
variable {g h : Graph} {found : Dict TensorType} (hedges : h.edges = g.edges.map (retypeEdge found))
include hedges

/-- A graph whose edges went through `retypeEdge` is wired as before. -/
private theorem wiredAs_of_retypeEdge :
    h.WiredAs g (Function.Embedding.refl String) (retypeEdge found) where
  edges_eq := hedges
  source_eq e := by
    rw [(retypeEdge_ends found e).2.1]
    rfl
  target_eq e := by
    rw [(retypeEdge_ends found e).2.2]
    rfl

/-- After `retypeEdge` the `inputEdges` lead to the same indices, and from the same nodes. -/
private theorem inputEdges_of_retypeEdge (id : String) :
    h.inputEdges id = (g.inputEdges id).map (retypeEdge found) :=
  (wiredAs_of_retypeEdge hedges).inputEdges_eq id

/-- `checkKey` says the same of the edges into a node. -/
private theorem checkKeys_eq (id : String) :
    ((h.inputEdges id).forM fun e => e.target.index.checkKey) =
      (g.inputEdges id).forM fun e => e.target.index.checkKey := by
  rw [inputEdges_of_retypeEdge hedges]
  simp only [List.forM_eq_forM, List.forM_map, retypeEdge_ends]

private theorem feeder_of_retypeEdge (id : String) (index : Nat) :
    feeder h id index = feeder g id index := by
  rw [feeder, feeder, inputEdges_of_retypeEdge hedges, List.find?_map, Option.map_map]
  simp only [Function.comp_def, retypeEdge_ends]

/-- `reaching` gives the same types for a node that has as many ports. -/
private theorem reaching_of_retypeEdge (types : Dict TensorType) {m n : Node} (hid : m.id = n.id)
    (hports : m.inputs.length = n.inputs.length) : reaching h types m = reaching g types n := by
  simp only [reaching, hid, hports, feeder_of_retypeEdge hedges]

/-- `step` leaves alone a node that has been typed if it is typed again on the same types. -/
private theorem step_again {s next : Typing} {n : Node} (hstep : step g s n = .ok next) :
    ∃ m : Node, m.id = n.id ∧ next.nodes = s.nodes.replace m ∧
      ∀ t : NodeTable, m ∈ t.toList → step h ⟨s.types, t⟩ m = .ok ⟨next.types, t⟩ := by
  obtain ⟨hkeys, out, hout, rfl⟩ := step_eq_ok_iff.mp hstep
  refine ⟨written n (reaching g s.types n) out, rfl, rfl, ?_⟩
  intro t hm
  -- what reaches a node depends on the number of its ports, and not on the types there
  have hreaching : reaching h s.types (written n (reaching g s.types n) out) =
      reaching g s.types n :=
    reaching_of_retypeEdge hedges s.types rfl (by simp [written, reaching])
  refine step_eq_ok_iff.mpr ⟨?_, out, ?_, ?_⟩
  · exact (checkKeys_eq hedges n.id).trans hkeys
  · rw [hreaching]
    exact infer_written hout
  · rw [hreaching, written_written, NodeTable.replace_of_mem hm]
    rfl

end

/-! ### Runs -/

/-- `run` leaves alone the nodes that are not typed. -/
private theorem find?_of_run {g : Graph} {s last : Typing} {order : List Node}
    (hrun : run g s order = .ok last) {id : String} (hid : id ∉ order.map Node.id) :
    last.nodes.find? id = s.nodes.find? id := by
  induction order generalizing s with
  | nil =>
    cases hrun
    rfl
  | cons n rest ih =>
    obtain ⟨next, hnext, hrest⟩ := exists_of_bind_eq_ok hrun
    obtain ⟨m, hm, _, _, hnodes⟩ := step_eq_ok hnext
    -- a step only writes to its own node
    rw [List.map_cons, List.mem_cons, not_or] at hid
    rw [ih hrest hid.2, hnodes, NodeTable.find?_replace]
    simp [hm, hid.1]

/-- `run` leaves alone nodes that have been typed in turn if they are typed again, and finds the
same types. -/
private theorem run_again {g h : Graph} {found : Dict TensorType}
    (hedges : h.edges = g.edges.map (retypeEdge found)) {s last : Typing} {order : List Node}
    (hrun : run g s order = .ok last) (hnodup : (order.map Node.id).Nodup)
    (hmem : ∀ n ∈ order, n.id ∈ s.nodes.ids) :
    run h ⟨s.types, last.nodes⟩ (order.filterMap fun n => last.nodes.find? n.id) =
      .ok ⟨last.types, last.nodes⟩ := by
  induction order generalizing s with
  | nil =>
    cases hrun
    rfl
  | cons n rest ih =>
    obtain ⟨next, hnext, hrest⟩ := exists_of_bind_eq_ok hrun
    obtain ⟨m, hid, hnodes, hagain⟩ := step_again hedges hnext
    obtain ⟨hnew, hnodup⟩ := List.nodup_cons.mp hnodup
    obtain ⟨hn, hmem⟩ := List.forall_mem_cons.mp hmem
    -- the node as it is written now is the one that the whole run leaves under its id
    have hlast : last.nodes.find? n.id = some m := by
      obtain ⟨old, hold⟩ := NodeTable.mem_ids_iff.mp hn
      rw [find?_of_run hrest hnew, hnodes, NodeTable.find?_replace, hold]
      simp [hid]
    have hrest' := ih hrest hnodup fun k hk => by
      rw [hnodes, NodeTable.ids_replace]
      exact hmem k hk
    have hcons : (n :: rest).filterMap (fun k => last.nodes.find? k.id) =
        m :: rest.filterMap fun k => last.nodes.find? k.id := List.filterMap_cons_some hlast
    rw [hcons, run, hagain _ (NodeTable.mem_of_find? hlast)]
    exact hrest'

/-- `retypeEdge` twice is once. -/
private theorem retypeEdge_retypeEdge (types : Dict TensorType) (e : Edge) :
    retypeEdge types (retypeEdge types e) = retypeEdge types e := by
  have hsource := (retypeEdge_ends types e).2.1
  cases htype : types.get? e.source.node with
  | none => simp [retypeEdge, htype]
  | some t => simp [retypeEdge, htype, Edge.withType]

end Typing

namespace Graph

/-- `inferTypes` is idempotent: on any graph that it has typed it answers again, and changes
nothing. -/
theorem inferTypes_idempotent {g h : Graph} (hok : g.inferTypes = .ok h) :
    h.inferTypes = .ok h := by
  obtain ⟨last, hrun, hh⟩ := exists_of_bind_eq_ok hok
  have hedges : h.edges = g.edges.map (Typing.retypeEdge last.types) := by
    cases hh
    rfl
  have hnodes : h.nodes = last.nodes := by
    cases hh
    rfl
  have hmem : ∀ n ∈ g.topologicalOrder, n ∈ g.nodes.toList := fun n hn =>
    g.topologicalOrder_perm.mem_iff.mp hn
  have hcovers : Typing.Covers g ⟨Dict.empty, g.nodes⟩ :=
    ⟨rfl, fun _ n hn => ⟨n, hn, rfl, rfl⟩⟩
  have hids : h.nodes.ids = g.nodes.ids.map (Function.Embedding.refl String) := by
    rw [hnodes, (hcovers.run hmem hrun).ids_eq]
    exact (List.map_id _).symm
  -- the second run goes through the same ids, and finds the same types
  have hagain : Typing.run h ⟨Dict.empty, h.nodes⟩ h.topologicalOrder =
      .ok ⟨last.types, h.nodes⟩ := by
    rw [(Typing.wiredAs_of_retypeEdge hedges).topologicalOrder_eq hids, hnodes]
    exact Typing.run_again hedges hrun g.topologicalOrder_ids_nodup fun n hn =>
      List.mem_map_of_mem (hmem n hn)
  have hsame : h.edges.map (Typing.retypeEdge last.types) = h.edges := by
    rw [hedges, List.map_map]
    exact List.map_congr_left fun e _ => Typing.retypeEdge_retypeEdge last.types e
  rw [inferTypes, hagain]
  show Except.ok _ = _
  rw [hsame]

/-- A sum that reads an activation of itself, before an output that reads a node that is not there.
The type is that of the sum. -/
def knot (type : Option TensorType) : Graph where
  id := "g_1"
  nodes :=
    ⟨[{ id := "x_2", op := .input, name := .str "x"
        outputs := [⟨.str "out", some ⟨.float32, [4]⟩⟩] },
      { id := "a_3", op := .add, name := .str "a"
        inputs := [⟨.str "lhs", type⟩, ⟨.str "rhs", none⟩]
        outputs := [⟨.str "out", type⟩] },
      { id := "r_4", op := .relu, name := .str "r", inputs := [⟨.str "in", none⟩]
        outputs := [⟨.str "out", some ⟨.int8, [9]⟩⟩] },
      { id := "y_5", op := .output, name := .str "y", inputs := [⟨.str "in", none⟩] }], by simp⟩
  edges :=
    [⟨"e_6", ⟨"x_2", .int 0⟩, ⟨"a_3", .int 0⟩, type⟩,
     ⟨"e_7", ⟨"r_4", .int 0⟩, ⟨"a_3", .int 1⟩, none⟩,
     ⟨"e_8", ⟨"a_3", .int 0⟩, ⟨"r_4", .int 0⟩, type⟩,
     ⟨"e_9", ⟨"z_0", .int 0⟩, ⟨"y_5", .int 0⟩, none⟩,
     ⟨"e_10", ⟨"a_3", .int 0⟩, ⟨"y_5", .int 0⟩, type⟩]

/-- In `knot` the activation is typed before the sum that it reads, so it keeps the type that it
declares. -/
theorem inferTypes_knot_idempotent :
    (knot none).validate ≠ .ok () ∧
      (knot none).inferTypes = .ok (knot (some ⟨.float32, [4]⟩)) ∧
      (knot (some ⟨.float32, [4]⟩)).inferTypes = .ok (knot (some ⟨.float32, [4]⟩)) := by
  have hinvalid : (knot none).validate ≠ .ok () := by
    intro hvalid
    have hclosed := (validate_eq_ok_iff.mp hvalid).closed
    revert hclosed
    unfold Closed
    decide
  -- the activation is finished before the sum, since the search comes to it through the sum
  have hfinished : ((knot none).explore (knot none).nodes.ids ([], [])).2 =
      ["y_5", "z_0", "a_3", "r_4", "x_2"] := by
    simp [explore, search, Frame.enter, knot, inputEdges, NodeTable.ids]
  have hok : (knot none).inferTypes = .ok (knot (some ⟨.float32, [4]⟩)) := by
    unfold inferTypes topologicalOrder
    rw [hfinished]
    rfl
  exact ⟨hinvalid, hok, inferTypes_idempotent hok⟩

end Graph

end TensorGraph
