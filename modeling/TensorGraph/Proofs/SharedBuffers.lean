import TensorGraph.Proofs.Passes
import TensorGraph.Proofs.Placement
import TensorGraph.Proofs.TypeAssignment

/-!
# Outputs that share a buffer

The planner never compares sizes: a node that works in place gets the buffer of the node it reads,
whatever the types of the two say. That the output fits is a matter of types. An operator that can
overwrite its input passes the type of its first operand on, so along a chain of nodes that share a
buffer an inferred type is that of the root, and the outputs have just as many bytes as the buffer
(`MemoryPlan.inPlace_fits_buffer`).

A node whose type cannot be inferred keeps the type that it declares, and then nothing holds the
sizes together (`MemoryPlan.inPlace_overflows_declared`).
-/

namespace TensorGraph

namespace Graph

variable {g : Graph} {types : TypeAssignment}

/-- After `retyped` a node whose type is assigned has that type at its output, if it has an output
type. -/
private theorem outputType_eq_of_types {n : Node} (hn : n ∈ (g.retyped types).nodes.toList)
    {type declared : TensorType} (h : types n.id = some type)
    (hout : n.outputType = some declared) : declared = type := by
  obtain ⟨m, _, rfl⟩ := mem_retyped_iff.mp hn
  have htype : types m.id = some type := h
  simp only [Node.outputType, retypeNode, htype] at hout
  -- a type comes from the first output port, which has been given the one that was found
  cases houtputs : m.outputs with
  | nil => simp [houtputs] at hout
  | cons port rest =>
    simp only [houtputs, List.map_cons, Port.withType, Option.some_or, Option.some.injEq] at hout
    exact hout.symm

/-- `Node.infer` of an operator that can overwrite its input passes the type of its first
operand on. -/
private theorem infer_of_inPlace {n : Node} (h : n.op.signature.inPlace = true)
    (inputs : InputTypes) :
    n.infer inputs = .ok inputs.first := by
  apply infer_eq_first
  revert h
  cases n.op <;> decide

/-- A type that is the first of `arrivingTypes` comes along an edge. -/
private theorem exists_edge_of_first {n : Node} {type : TensorType}
    (h : (g.arrivingTypes types n).first = some type) :
    ∃ e ∈ g.inputEdges n.id, types e.source.node = some type := by
  -- a node without ports is reached by nothing
  have hports : 1 ≤ n.inputs.length := by
    by_contra hnone
    have hlength : n.inputs.length = 0 := by omega
    simp [arrivingTypes, hlength, InputTypes.first] at h
  rw [first_arrivingTypes g types hports] at h
  obtain ⟨e, he, htype⟩ := Option.bind_eq_some_iff.mp h
  exact ⟨e, mem_inputEdges_of_firstInto he, htype⟩

/-- A node that can overwrite its only input has the type of what it overwrites, if the graph is
`TypedBy` the assignment and this has a type for the node. -/
private theorem types_source_of_inPlace (htyped : g.TypedBy types) {n : Node}
    (hn : n ∈ g.nodes.toList) (hop : n.op.signature.inPlace = true) {e : Edge}
    (hin : g.inputEdges n.id = [e]) {type : TensorType} (htype : types n.id = some type) :
    types e.source.node = some type := by
  have hfits := htyped n hn
  rw [Fits, infer_of_inPlace hop, Except.ok.injEq, htype] at hfits
  obtain ⟨f, hf, hsource⟩ := exists_edge_of_first hfits
  rw [hin, List.mem_singleton] at hf
  exact hf ▸ hsource

end Graph

open TensorGraph.Graph

/-- All needs with `WritesInto` one buffer have the type of its root, as far as types can be
inferred. -/
private theorem WritesInto.types_root {g : Graph} {types : TypeAssignment}
    (htyped : g.TypedBy types) {rank : Nat} {needs : List BufferNeed}
    (hspec : NeedsUpTo (g.retyped types) rank needs) {b r : BufferNeed}
    (h : WritesInto (g.retyped types) needs b r) {type : TensorType}
    (htype : types b.node = some type) : types r.node = some type := by
  -- one step along the chain goes from a node to the only one it reads
  induction h with
  | own => exact htype
  | @through b p r e hb hshared hin hout hnode hbirth hp ih =>
    obtain ⟨n, hn, hid, hop⟩ := (hspec.describes b hb).overwriting (by rw [hshared]; rfl)
    obtain ⟨m, hm, rfl⟩ := mem_retyped_iff.mp hn
    rw [← hid, inputEdges_retyped] at hin
    obtain ⟨f, hf, rfl⟩ := List.map_eq_singleton_iff.mp hin
    refine ih ?_
    rw [hnode]
    exact types_source_of_inPlace htyped hm hop hf (hid ▸ htype)

/-! ### Known and declared types -/

namespace Graph

/-- A node with types at its ports. -/
def activationNode (id : String) (op : OpKind) (inputs outputs : List (Option TensorType)) : Node :=
  { id := id
    op := op
    name := .str id
    inputs := inputs.map fun type => ⟨.str "in", type⟩
    outputs := outputs.map fun type => ⟨.str "out", type⟩ }

/-- A distribution followed by two activations that work in place. The input has four entries, or a
type that is not known; in the second case the distribution is declared to have one entry. -/
def activations (known : Bool) : Graph :=
  let four : Option TensorType := some ⟨.float32, [4]⟩
  let input : Option TensorType := if known then four else none
  { id := "g_1"
    nodes :=
      ⟨[activationNode "x_2" .input [] [input],
        activationNode "s_3" .softmax [input] [if known then four else some ⟨.float32, [1]⟩],
        activationNode "r_4" .relu [input] [four], activationNode "t_5" .sigmoid [input] [four],
        activationNode "y_6" .output [input] []], by cases known <;> decide⟩
    edges :=
      [⟨"e_7", ⟨"x_2", .int 0⟩, ⟨"s_3", .int 0⟩, input⟩,
       ⟨"e_8", ⟨"s_3", .int 0⟩, ⟨"r_4", .int 0⟩, input⟩,
       ⟨"e_9", ⟨"r_4", .int 0⟩, ⟨"t_5", .int 0⟩, input⟩,
       ⟨"e_10", ⟨"t_5", .int 0⟩, ⟨"y_6", .int 0⟩, input⟩] }

/-- `activations` is valid. -/
private theorem validate_activations (known : Bool) : (activations known).validate = .ok () := by
  refine validate_of_forward ?_ ?_
  · cases known <;> rfl
  · cases known <;> decide

private theorem topologicalOrder_activations (known : Bool) :
    (activations known).topologicalOrder = (activations known).nodes.toList := by
  simp [topologicalOrder, explore, search, Frame.enter, activations, activationNode, inputEdges,
    NodeTable.ids, NodeTable.find?]

/-- `inferTypes` changes nothing in `activations`. -/
private theorem inferTypes_activations (known : Bool) :
    (activations known).inferTypes = .ok (activations known) := by
  unfold inferTypes
  rw [topologicalOrder_activations]
  cases known <;> rfl

/-- The plan of `activations`: the two activations lie in the buffer of the distribution. -/
def activationsPlan (known : Bool) : MemoryPlan where
  placements := if known
    then [⟨"x_2", 0, 16, 0, 1, false⟩, ⟨"s_3", 16, 16, 1, 2, false⟩, ⟨"r_4", 16, 0, 2, 3, true⟩,
      ⟨"t_5", 16, 0, 3, 4, true⟩]
    else [⟨"s_3", 0, 4, 1, 2, false⟩, ⟨"r_4", 0, 0, 2, 3, true⟩, ⟨"t_5", 0, 0, 3, 4, true⟩]
  peakBytes := if known then 32 else 4
  tensorBytes := if known then 32 else 4
  inPlaceCount := 2

/-- `MemoryPlan.compute` gives `activationsPlan` for `activations`. -/
private theorem compute_activations (known : Bool) :
    MemoryPlan.compute (activations known) Alignment.one true = .ok (activationsPlan known) := by
  unfold MemoryPlan.compute bufferNeeds
  rw [topologicalOrder_activations]
  cases known <;> rfl

end Graph

/-- Take a valid graph whose types can be inferred by `inferTypes`, and a plan of the graph with its
types. Every node that works in place has an output of exactly as many bytes as the buffer that it
shares, provided that its type was inferred and not only declared. -/
theorem MemoryPlan.inPlace_fits_buffer {g h : Graph} {alignment : Alignment} {reuse : Bool}
    {plan : MemoryPlan} (hvalid : g.validate = .ok ()) (hinfer : g.inferTypes = .ok h)
    (hplan : MemoryPlan.compute h alignment reuse = .ok plan) :
    ∃ types, g.TypedBy types ∧ h = g.retyped types ∧
      ∀ a ∈ plan.placements, a.inPlace = true → types a.node ≠ none →
        ∃ r n t, RootOf h plan a r ∧ r.inPlace = false ∧ r.offset = a.offset ∧
          h.nodes.find? a.node = some n ∧ n.outputType = some t ∧ t.byteCount = .ok r.size := by
  have hg := validate_eq_ok_iff.mp hvalid
  have hacyclic := (inferTypes_wellFormed hg hinfer).1.acyclic
  obtain ⟨types, htyped, rfl⟩ := (inferTypes_eq_ok_iff hg).mp hinfer
  obtain ⟨needs, last, hcomputes⟩ := compute_eq_ok_iff.mp hplan
  have hmade := hcomputes.madeFrom hacyclic
  refine ⟨types, htyped, rfl, ?_⟩
  intro a ha hplace htype
  obtain ⟨type, htype⟩ := Option.ne_none_iff_exists'.mp htype
  obtain ⟨b, hb, hba⟩ := (hmade.placements_iff a).mp ha
  obtain ⟨c, hc⟩ := hmade.needs_spec.exists_writesInto hb
  obtain ⟨r, hr, hcr⟩ := hc.exists_rootOf hmade hba
  obtain ⟨i, hi, rfl⟩ := BufferNeed.placement_eq_ok_iff.mp hba
  obtain ⟨j, hj, rfl⟩ := BufferNeed.placement_eq_ok_iff.mp hcr
  obtain ⟨hcmem, hown, _, hroot⟩ := hc.root
  -- the root has its buffer to itself, so the two offsets are looked up under one name
  have hoffset : j = i := by
    rw [BufferNeed.root, hown, Option.getD_none, ← hroot, hi, Option.some.injEq] at hj
    exact hj.symm
  obtain ⟨n, t, hn, hid, _, hout, _⟩ := (hmade.needs_spec.describes b hb).at_birth
  have hmem := (g.retyped types).topologicalOrder_perm.mem_iff.mp (List.mem_of_getElem? hn)
  obtain ⟨m, u, hm, hmout, hbytes⟩ := hmade.size_eq hcmem hown
  -- both ends of the chain have the type that was inferred, and so the same number of bytes
  have htypes : types m.id = some type :=
    NodeTable.id_eq_of_find? hm ▸ hc.types_root htyped hmade.needs_spec htype
  have ht : t = type := outputType_eq_of_types hmem (hid ▸ htype) hout
  have hu : u = type := outputType_eq_of_types (NodeTable.mem_of_find? hm) htypes hmout
  refine ⟨_, n, t, hr, by rw [hown]; rfl, by rw [hoffset], ?_, hout, ?_⟩
  · exact hid ▸ NodeTable.find?_of_mem hmem
  · rw [ht, ← hu]
    exact hbytes

/-- In `activations` with a known input, the second activation has as many bytes as the
distribution. -/
theorem MemoryPlan.inPlace_fits_activations :
    (activations true).validate = .ok () ∧ (activations true).inferTypes = .ok (activations true) ∧
      ∃ plan, MemoryPlan.compute (activations true) Alignment.one true = .ok plan ∧
        ∃ a ∈ plan.placements, a.node = "t_5" ∧ a.inPlace = true ∧
          ∃ r n t, RootOf (activations true) plan a r ∧ r.inPlace = false ∧ r.offset = a.offset ∧
            (activations true).nodes.find? a.node = some n ∧ n.outputType = some t ∧
            t.byteCount = .ok r.size := by
  obtain ⟨types, htyped, _, hfits⟩ := inPlace_fits_buffer (validate_activations true)
    (inferTypes_activations true) (compute_activations true)
  -- all nodes have one type, and the types found are the only ones
  have hknown : (activations true).TypedBy fun _ => some ⟨.float32, [4]⟩ := by
    unfold TypedBy Fits
    decide
  have hlast : activationNode "t_5" .sigmoid [some ⟨.float32, [4]⟩] [some ⟨.float32, [4]⟩] ∈
      (activations true).nodes.toList := by decide
  have htype : types "t_5" = some ⟨.float32, [4]⟩ :=
    htyped.unique (validate_eq_ok_iff.mp (validate_activations true)) hknown hlast
  refine ⟨validate_activations true, inferTypes_activations true, _, compute_activations true,
    ⟨"t_5", 16, 0, 3, 4, true⟩, by decide, rfl, rfl, ?_⟩
  exact hfits ⟨"t_5", 16, 0, 3, 4, true⟩ (by decide) rfl (by rw [htype]; nofun)

/-- In `activations` without a known input, the activations declare sixteen bytes each and lie in a
buffer of four. -/
theorem MemoryPlan.inPlace_overflows_declared :
    (activations false).validate = .ok () ∧
      (activations false).inferTypes = .ok (activations false) ∧
      ∃ plan, MemoryPlan.compute (activations false) Alignment.one true = .ok plan ∧
        ∃ a ∈ plan.placements, a.inPlace = true ∧
          ∃ r n t bytes, RootOf (activations false) plan a r ∧ r.inPlace = false ∧
            (activations false).nodes.find? a.node = some n ∧ n.outputType = some t ∧
            t.byteCount = .ok bytes ∧ r.size < bytes := by
  refine ⟨validate_activations false, inferTypes_activations false, _, compute_activations false,
    ⟨"r_4", 0, 0, 2, 3, true⟩, by decide, rfl, ⟨"s_3", 0, 4, 1, 2, false⟩, _, _, 16, ?_, rfl, rfl,
    rfl, rfl, by decide⟩
  have hroot : RootOf (activations false) (activationsPlan false) ⟨"s_3", 0, 4, 1, 2, false⟩
      ⟨"s_3", 0, 4, 1, 2, false⟩ := .own (by decide) rfl
  exact .through (by decide) rfl rfl (by decide) rfl hroot

end TensorGraph
