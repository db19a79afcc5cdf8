import TensorGraph.Proofs.FoldingMeaning
import TensorGraph.Proofs.Liveness
import TensorGraph.Proofs.TypeAssignment

/-!
# Graphs that carry the types of their formulas

Inference leaves a graph as it is exactly if the graph carries types that fit its formulas
(`inferTypes_eq_self_iff`). So a pass keeps inferred types consistent if it takes an assignment that
fits and is carried to another one. Dropping dead nodes keeps the assignment itself.

A fold turns a node that is typed by its formula into a constant that is typed by its first output
port. To keep the types of all nodes that read it, that port must say what the formula said.
`SelfTyped` asks for this of every node; the new constant has what its first port declares for its
type, so a fold keeps it (`SelfTyped.foldNode`). It holds after inference if only inputs and
constants had declared types before (`TypedBy.selfTyped_retyped`), and then neither pass leaves
anything to infer (`folding_and_dropping_keep_types`).
-/

namespace TensorGraph

namespace Graph

/-! ### Graphs that carry their types -/

/-- All ports and edges that an assignment has a type for carry that type. -/
structure Carries (g : Graph) (types : TypeAssignment) : Prop where
  inputs : ∀ n ∈ g.nodes.toList, ∀ i port, n.inputs[i]? = some port →
    (g.typeInto types n.id i).or port.type = port.type
  outputs : ∀ n ∈ g.nodes.toList, ∀ port ∈ n.outputs, (types n.id).or port.type = port.type
  edges : ∀ e ∈ g.edges, (types e.source.node).or e.type = e.type

/-- `List.map` leaves a list as it is exactly if the function leaves every member. -/
private theorem map_eq_self_iff {α : Type} {f : α → α} {xs : List α} :
    xs.map f = xs ↔ ∀ x ∈ xs, f x = x := by
  constructor
  · intro h x hx
    obtain ⟨i, hi, rfl⟩ := List.mem_iff_getElem.mp hx
    simpa [hi] using congrArg (fun ys => ys[i]?) h
  · intro h
    exact (List.map_congr_left h).trans (List.map_id' xs)

/-- `Port.withType` leaves a port as it is exactly if it has that type. -/
private theorem withType_eq_self_iff {port : Port} {type : Option TensorType} :
    port.withType type = port ↔ type = port.type := by
  cases port
  simp [Port.withType]

/-- `retypeNode` leaves a node as it is exactly if its ports have the types that are written into
them. -/
private theorem retypeNode_eq_self_iff {g : Graph} {types : TypeAssignment} {n : Node} :
    g.retypeNode types n = n ↔
      (∀ i port, n.inputs[i]? = some port → (g.typeInto types n.id i).or port.type = port.type) ∧
        ∀ port ∈ n.outputs, (types n.id).or port.type = port.type := by
  -- the input ports are compared place by place, the output ports one by one
  have hinputs : (g.retypeNode types n).inputs = n.inputs ↔
      ∀ i port, n.inputs[i]? = some port →
        (g.typeInto types n.id i).or port.type = port.type := by
    constructor
    · intro heq i port hport
      have hat := congrArg (fun ports => ports[i]?) heq
      simp only [retypeNode, List.getElem?_mapIdx, hport, Option.map_some, Option.some.injEq,
        withType_eq_self_iff] at hat
      exact hat
    · intro hports
      apply List.ext_getElem?
      intro i
      cases hport : n.inputs[i]? with
      | none => simp [retypeNode, hport]
      | some port =>
        simp only [retypeNode, List.getElem?_mapIdx, hport, Option.map_some, Option.some.injEq,
          withType_eq_self_iff]
        exact hports i port hport
  have houtputs : (g.retypeNode types n).outputs = n.outputs ↔
      ∀ port ∈ n.outputs, (types n.id).or port.type = port.type := by
    simp only [retypeNode, map_eq_self_iff, withType_eq_self_iff]
  -- nothing but the ports is touched
  rw [← hinputs, ← houtputs]
  constructor
  · intro heq
    exact ⟨congrArg Node.inputs heq, congrArg Node.outputs heq⟩
  · intro heq
    calc g.retypeNode types n
        = { n with
            inputs := (g.retypeNode types n).inputs
            outputs := (g.retypeNode types n).outputs } := rfl
      _ = n := by rw [heq.1, heq.2]

/-- `retyped` leaves a graph as it is exactly if the graph `Carries` the types. -/
theorem retyped_eq_self_iff {g : Graph} {types : TypeAssignment} :
    g.retyped types = g ↔ g.Carries types := by
  have hedge : ∀ e : Edge, e.withType ((types e.source.node).or e.type) = e ↔
      (types e.source.node).or e.type = e.type := by
    intro e
    cases e
    simp [Edge.withType]
  constructor
  · intro heq
    -- a table or list that a map leaves as it is has been left so member by member
    have hnodes : g.nodes.toList.map (g.retypeNode types) = g.nodes.toList :=
      congrArg (fun k : Graph => k.nodes.toList) heq
    have hnodes := fun n hn => retypeNode_eq_self_iff.mp (map_eq_self_iff.mp hnodes n hn)
    have hedges := map_eq_self_iff.mp (congrArg Graph.edges heq)
    exact ⟨fun n hn => (hnodes n hn).1, fun n hn => (hnodes n hn).2,
      fun e he => (hedge e).mp (hedges e he)⟩
  · intro h
    -- nothing of a node or an edge is changed
    have hnodes : (g.retyped types).nodes = g.nodes := by
      apply NodeTable.ext
      exact map_eq_self_iff.mpr fun n hn =>
        retypeNode_eq_self_iff.mpr ⟨h.inputs n hn, h.outputs n hn⟩
    have hedges : (g.retyped types).edges = g.edges :=
      map_eq_self_iff.mpr fun e he => (hedge e).mpr (h.edges e he)
    calc g.retyped types
        = { g with nodes := (g.retyped types).nodes, edges := (g.retyped types).edges } := rfl
      _ = g := by rw [hnodes, hedges]

/-- `inferTypes` leaves a graph as it is exactly if the graph `Carries` types that fit. -/
theorem inferTypes_eq_self_iff {g : Graph} (hg : g.WellFormed) :
    g.inferTypes = .ok g ↔ ∃ types, g.TypedBy types ∧ g.Carries types := by
  rw [inferTypes_eq_ok_iff hg]
  refine exists_congr fun types => and_congr_right fun _ => ?_
  rw [← retyped_eq_self_iff, eq_comm]

/-- `typeInto` stays the same if the edges into the node are changed without turning them elsewhere,
and each of them brings the type that it brought before. -/
private theorem typeInto_eq_of_map {g h : Graph} {types others : TypeAssignment} {id : String}
    {change : Edge → Edge} (hedges : h.inputEdges id = (g.inputEdges id).map change)
    (htarget : ∀ e, (change e).target = e.target)
    (hsource : ∀ e ∈ g.inputEdges id, others (change e).source.node = types e.source.node)
    (i : Nat) : h.typeInto others id i = g.typeInto types id i := by
  -- the change keeps where edges lead to, so the same one is the first into the port
  have hleads : ((fun e : Edge => decide (e.target.index.integral? = some (i : Int))) ∘ change) =
      fun e => decide (e.target.index.integral? = some (i : Int)) := by
    funext e
    simp only [Function.comp_apply, htarget]
  rw [typeInto, typeInto, firstInto_eq_find?, firstInto_eq_find?, hedges, List.find?_map, hleads]
  cases hfirst : (g.inputEdges id).find? fun e => e.target.index.integral? = some (i : Int) with
  | none => rfl
  | some e => exact hsource e (List.mem_of_find?_eq_some hfirst)

/-! ### Ports that declare the types of their nodes -/

/-- A graph that carries types that fit, and in which the first output port of a node, if it has
one, has the type of the node. -/
structure SelfTyped (g : Graph) (types : TypeAssignment) : Prop where
  typed : g.TypedBy types
  carries : g.Carries types
  declares : ∀ n ∈ g.nodes.toList, n.outputs ≠ [] → n.outputType = types n.id

theorem SelfTyped.inferTypes_eq {g : Graph} {types : TypeAssignment} (h : g.SelfTyped types)
    (hg : g.WellFormed) : g.inferTypes = .ok g :=
  (inferTypes_eq_self_iff hg).mpr ⟨types, h.typed, h.carries⟩

/-- `Node.infer` looks at the type that a node declares only for inputs and constants. -/
private theorem infer_congr_declared {n m : Node} (hop : m.op = n.op) (hattrs : m.attrs = n.attrs)
    (hdeclared : n.op.signature.formula = .source → m.outputType = n.outputType)
    (inputs : InputTypes) : m.infer inputs = n.infer inputs := by
  rw [Node.infer, Node.infer, hop, hattrs]
  cases hformula : n.op.signature.formula with
  | source => rw [hdeclared hformula]
  | _ => rfl

/-- An input or a constant has found at its first output port what `Typing.written` writes there. -/
private theorem outputType_written {n : Node} {inputs : InputTypes} {out : Option TensorType}
    (h : n.infer inputs = .ok out) (hformula : n.op.signature.formula = .source) :
    (Typing.written n inputs out).outputType = n.outputType := by
  rw [Node.infer, hformula] at h
  have hout : n.outputType = out := Except.ok.inj h
  subst hout
  cases houtputs : n.outputs with
  | nil => simp [Node.outputType, Typing.written, houtputs]
  | cons port rest =>
    simp [Node.outputType, Typing.written, houtputs, Typing.retype_eq, Port.withType]

/-- `Node.infer` gives the same type after it has been written into the node. -/
theorem infer_written {n : Node} {inputs : InputTypes} {out : Option TensorType}
    (h : n.infer inputs = .ok out) : (Typing.written n inputs out).infer inputs = .ok out := by
  rw [infer_congr_declared (m := Typing.written n inputs out) (n := n) rfl rfl
    (outputType_written h)]
  exact h

/-- If types `Fits`, those of inputs and constants are the ones that they declare. -/
private theorem Fits.declared_eq {g : Graph} {types : TypeAssignment} {n : Node}
    (h : g.Fits types n) (hformula : n.op.signature.formula = .source) :
    n.outputType = types n.id := by
  rw [Fits, Node.infer, hformula] at h
  exact Except.ok.inj h

/-- `retypeNode` writes the type of a node into its first output port. -/
private theorem outputType_retypeNode {g : Graph} {types : TypeAssignment} {n : Node}
    (h : n.outputs ≠ []) :
    (g.retypeNode types n).outputType = (types n.id).or n.outputType := by
  obtain ⟨port, rest, houtputs⟩ := List.exists_cons_of_ne_nil h
  simp [Node.outputType, retypeNode, houtputs, Port.withType]

/-- If types `Fits`, `retypeNode` changes nothing at the first output port of an input or a
constant. -/
private theorem Fits.outputType_retypeNode_eq {g : Graph} {types : TypeAssignment} {n : Node}
    (h : g.Fits types n) (hformula : n.op.signature.formula = .source) :
    (g.retypeNode types n).outputType = n.outputType := by
  rw [← Typing.written_arrivingTypes]
  exact outputType_written h hformula

/-- `retyped` does not change what reaches a port. -/
private theorem typeInto_retyped (g : Graph) (types : TypeAssignment) (id : String) (i : Nat) :
    (g.retyped types).typeInto types id i = g.typeInto types id i :=
  typeInto_eq_of_map (inputEdges_retyped g types id) (fun _ => rfl) (fun _ _ => rfl) i

/-- A graph is `TypedBy` the same types when they have been written into it. -/
theorem TypedBy.retyped {g : Graph} {types : TypeAssignment} (h : g.TypedBy types) :
    (g.retyped types).TypedBy types := by
  intro m hm
  obtain ⟨n, hn, rfl⟩ := mem_retyped_iff.mp hm
  have harriving : (g.retyped types).arrivingTypes types (g.retypeNode types n) =
      g.arrivingTypes types n := by
    simp [arrivingTypes, retypeNode, typeInto_retyped]
  rw [Fits, harriving, ← Typing.written_arrivingTypes]
  exact infer_written (h n hn)

/-- A graph `Carries` the types that have been written into it. -/
private theorem carries_retyped (g : Graph) (types : TypeAssignment) :
    (g.retyped types).Carries types where
  inputs := by
    intro m hm i port hport
    obtain ⟨n, hn, rfl⟩ := mem_retyped_iff.mp hm
    simp only [retypeNode, List.getElem?_mapIdx, Option.map_eq_some_iff] at hport
    obtain ⟨old, _, rfl⟩ := hport
    show ((g.retyped types).typeInto types n.id i).or ((g.typeInto types n.id i).or old.type) = _
    -- a type that is written twice is written once
    rw [typeInto_retyped, ← Option.or_assoc, Option.or_self]
    rfl
  outputs := by
    intro m hm port hport
    obtain ⟨n, hn, rfl⟩ := mem_retyped_iff.mp hm
    obtain ⟨old, _, rfl⟩ := List.mem_map.mp hport
    show (types n.id).or ((types n.id).or old.type) = (types n.id).or old.type
    rw [← Option.or_assoc, Option.or_self]
  edges := by
    intro e he
    obtain ⟨old, _, rfl⟩ := List.mem_map.mp he
    show (types old.source.node).or ((types old.source.node).or old.type) =
      (types old.source.node).or old.type
    rw [← Option.or_assoc, Option.or_self]

/-- Only inputs and constants declare types at their output ports. -/
def OnlySourcesDeclare (g : Graph) : Prop :=
  ∀ n ∈ g.nodes.toList, n.op ≠ .input → n.op ≠ .constant → ∀ port ∈ n.outputs, port.type = none

/-- If `OnlySourcesDeclare`, then all nodes declare the types that fit once these have been written
into the graph. -/
private theorem TypedBy.selfTyped_retyped {g : Graph} {types : TypeAssignment} (h : g.TypedBy types)
    (hdeclare : g.OnlySourcesDeclare) : (g.retyped types).SelfTyped types where
  typed := h.retyped
  carries := g.carries_retyped types
  declares := by
    intro m hm houtputs
    obtain ⟨n, hn, rfl⟩ := mem_retyped_iff.mp hm
    have houtputs : n.outputs ≠ [] := by simpa [retypeNode] using houtputs
    show (g.retypeNode types n).outputType = types n.id
    by_cases hformula : n.op.signature.formula = .source
    · rw [(h n hn).outputType_retypeNode_eq hformula, (h n hn).declared_eq hformula]
    · -- any other node declared nothing, so its port has what was written into it
      have hinput : n.op ≠ .input := fun heq => hformula (by rw [heq]; rfl)
      have hconstant : n.op ≠ .constant := fun heq => hformula (by rw [heq]; rfl)
      obtain ⟨port, rest, hports⟩ := List.exists_cons_of_ne_nil houtputs
      have hnone : n.outputType = none := by
        rw [Node.outputType, hports]
        exact hdeclare n hn hinput hconstant port (by simp [hports])
      rw [outputType_retypeNode houtputs, hnone, Option.or_none]

/-! ### Dropping dead nodes -/

/-- `typeInto` of a live node stays the same under `dropDead`. -/
private theorem typeInto_dropDead {g : Graph} (hclosed : g.Closed) (types : TypeAssignment)
    {id : String} (hlive : g.Live id) (i : Nat) :
    g.dropDead.typeInto types id i = g.typeInto types id i := by
  have hedges : g.dropDead.inputEdges id = (g.inputEdges id).map fun e => e := by
    rw [inputEdges_dropDead hclosed hlive, List.map_id']
  exact typeInto_eq_of_map hedges (fun _ => rfl) (fun _ _ => rfl) i

/-- `dropDead` keeps a graph `SelfTyped`. -/
theorem SelfTyped.dropDead {g : Graph} {types : TypeAssignment} (h : g.SelfTyped types)
    (hclosed : g.Closed) : g.dropDead.SelfTyped types where
  typed := by
    intro n hn
    -- a live node is fed by live nodes, so its types reach it as before
    obtain ⟨hold, hlive⟩ := mem_dropDead_iff.mp hn
    exact (h.typed n hold).of_typeInto (fun i _ => typeInto_dropDead hclosed types hlive i) rfl
  carries :=
    { inputs := by
        intro n hn i port hport
        obtain ⟨hold, hlive⟩ := mem_dropDead_iff.mp hn
        rw [typeInto_dropDead hclosed types hlive]
        exact h.carries.inputs n hold i port hport
      outputs := fun n hn => h.carries.outputs n (mem_dropDead_iff.mp hn).1
      edges := fun e he => h.carries.edges e (List.mem_filter.mp he).1 }
  declares n hn := h.declares n (mem_dropDead_iff.mp hn).1

/-! ### Folding -/

/-- The types after a fold: the new constant has the one that the folded node declared. -/
def foldedTypes (types : TypeAssignment) (n : Node) (id : String) : TypeAssignment := fun key =>
  if key = id then n.outputType else types key

private theorem foldedTypes_new (types : TypeAssignment) (n : Node) (id : String) :
    foldedTypes types n id id = n.outputType := if_pos rfl

namespace SelfTyped

variable {g : Graph} {types : TypeAssignment} {n : Node} {ids : IdSource}
variable (h : g.SelfTyped types) (hg : g.WellFormed) (hfresh : ids.FreshFor g.nodes)
variable (hn : n ∈ g.nodes.toList)

section
include hfresh

/-- `foldedTypes` gives old ids the types that they had. -/
private theorem foldedTypes_old {key : String} (hkey : key ∈ g.nodes.ids) :
    foldedTypes types n (ids.next "const").1 key = types key := by
  rw [foldedTypes, if_neg]
  rintro rfl
  exact hfresh.next_not_mem "const" hkey

end

include h hg hfresh hn

/-- After `redirect` an edge brings the type that it brought before. -/
private theorem foldedTypes_redirect {e : Edge} (he : e ∈ g.edges) :
    foldedTypes types n (ids.next "const").1 (redirect n (ids.next "const").1 e).source.node =
      types e.source.node := by
  rw [redirect_source_node]
  by_cases hsource : e.source.node = n.id
  · -- the node that an edge comes from has an output port, which declares its type
    obtain ⟨m, hm, hport⟩ := hg.source_port e he
    rw [hsource, NodeTable.find?_of_mem hn] at hm
    cases hm
    rw [if_pos hsource, foldedTypes_new, hsource]
    exact h.declares n hn (List.length_pos_iff.mp hport.pos)
  · rw [if_neg hsource, foldedTypes_old hfresh (hg.closed e he).1]

/-- `typeInto` of the nodes that are left after `foldNode` stays the same. -/
private theorem typeInto_foldNode {m : Node} (hm : m ∈ (g.foldNode n ids).1.nodes.toList)
    (hne : m.id ≠ n.id) (i : Nat) :
    (g.foldNode n ids).1.typeInto (foldedTypes types n (ids.next "const").1) m.id i =
      g.typeInto types m.id i :=
  typeInto_eq_of_map (inputEdges_foldNode hm hne) (redirect_target n _)
    (fun _ he => h.foldedTypes_redirect hg hfresh hn (mem_inputEdges.mp he).1) i

/-- After `foldNode` a graph is `TypedBy` the `foldedTypes`. -/
private theorem typedBy_foldNode :
    (g.foldNode n ids).1.TypedBy (foldedTypes types n (ids.next "const").1) := by
  intro m hm
  obtain rfl | ⟨hold, hne⟩ := mem_foldNode hm
  · -- the formula of a constant gives what it declares
    exact congrArg Except.ok (foldedTypes_new types n _).symm
  · exact (h.typed m hold).of_typeInto (fun i _ => h.typeInto_foldNode hg hfresh hn hm hne i)
      (foldedTypes_old hfresh (List.mem_map_of_mem hold))

/-- After `foldNode` a graph `Carries` the `foldedTypes`. -/
private theorem carries_foldNode :
    (g.foldNode n ids).1.Carries (foldedTypes types n (ids.next "const").1) where
  inputs := by
    intro m hm i port hport
    obtain rfl | ⟨hold, hne⟩ := mem_foldNode hm
    · cases hport
    · rw [h.typeInto_foldNode hg hfresh hn hm hne]
      exact h.carries.inputs m hold i port hport
  outputs := by
    intro m hm port hport
    obtain rfl | ⟨hold, _⟩ := mem_foldNode hm
    · -- the constant has the output ports of the node, with the type that the first of them has
      have hport : port ∈ n.outputs := hport
      show (foldedTypes types n _ (ids.next "const").1).or port.type = port.type
      rw [foldedTypes_new, h.declares n hn (List.ne_nil_of_mem hport)]
      exact h.carries.outputs n hn port hport
    · rw [foldedTypes_old hfresh (List.mem_map_of_mem hold)]
      exact h.carries.outputs m hold port hport
  edges := by
    intro e he
    have hedge : e ∈ (g.replaceByConstant n (ids.next "const").1).edges := (List.mem_filter.mp he).1
    obtain ⟨old, hold, _, rfl⟩ := mem_edges_replaceByConstant.mp hedge
    rw [h.foldedTypes_redirect hg hfresh hn hold, redirect_type]
    exact h.carries.edges old hold

/-- `foldNode` keeps a graph `SelfTyped`. -/
theorem foldNode : (g.foldNode n ids).1.SelfTyped (foldedTypes types n (ids.next "const").1) where
  typed := h.typedBy_foldNode hg hfresh hn
  carries := h.carries_foldNode hg hfresh hn
  declares := by
    intro m hm houtputs
    obtain rfl | ⟨hold, _⟩ := mem_foldNode hm
    · exact (foldedTypes_new types n _).symm
    · rw [foldedTypes_old hfresh (List.mem_map_of_mem hold)]
      exact h.declares m hold houtputs

end SelfTyped

/-- `foldConstants` keeps a graph `SelfTyped`. -/
theorem SelfTyped.foldConstants {g : Graph} {types : TypeAssignment} {ids : IdSource}
    (h : g.SelfTyped types) (hg : g.WellFormed) (hfresh : ids.FreshFor g.nodes) :
    ∃ others, (g.foldConstants ids).1.SelfTyped others := by
  refine foldConstants_keeps (P := fun k _ => ∃ others, k.SelfTyped others) ?_ hg hfresh ⟨types, h⟩
  intro k more n hk hmore hn hkeeps
  obtain ⟨others, hothers⟩ := hkeeps
  exact ⟨_, hothers.foldNode hk hmore hn⟩

/-! ### Types that stay consistent -/

/-- Take a valid graph in which `OnlySourcesDeclare`, and infer its types, no formula failing. If
constants are folded then, or dead nodes dropped, or both, `inferTypes` changes nothing. -/
theorem folding_and_dropping_keep_types {g : Graph} {ids : IdSource} (hvalid : g.validate = .ok ())
    (hfresh : ids.FreshFor g.nodes) (hdeclare : g.OnlySourcesDeclare) (hanswer : g.FormulasAnswer) :
    ∃ typed, g.inferTypes = .ok typed ∧
      (typed.foldConstants ids).1.inferTypes = .ok (typed.foldConstants ids).1 ∧
      typed.dropDead.inferTypes = .ok typed.dropDead ∧
      (typed.foldConstants ids).1.dropDead.inferTypes =
        .ok (typed.foldConstants ids).1.dropDead := by
  have hg := validate_eq_ok_iff.mp hvalid
  obtain ⟨types, htyped⟩ := exists_typedBy hg hanswer
  have hok := htyped.inferTypes_eq hg
  obtain ⟨hwell, hids⟩ := inferTypes_wellFormed hg hok
  -- after typing the graph carries its own types, and folding and dropping keep that
  have hself := htyped.selfTyped_retyped hdeclare
  have hfresh' : ids.FreshFor (g.retyped types).nodes :=
    hfresh.mono fun id hid => hids ▸ hid
  obtain ⟨others, hothers⟩ := hself.foldConstants hwell hfresh'
  have hfolded := (foldConstants_wellFormed hwell hfresh').1
  exact ⟨g.retyped types, hok, hothers.inferTypes_eq hfolded,
    (hself.dropDead hwell.closed).inferTypes_eq (dropDead_wellFormed hwell),
    (hothers.dropDead hfolded.closed).inferTypes_eq (dropDead_wellFormed hfolded)⟩

/-- A node of `splitLayer`, with as many input ports as given and output ports that declare the
given types. -/
def splitNode (id : String) (op : OpKind) (arity : Nat) (declared : List (Option Shape)) : Node :=
  { id := id
    op := op
    name := .str id
    inputs := List.replicate arity ⟨.str "in", none⟩
    outputs := declared.map fun dims => ⟨.str "out", dims.map fun dims => ⟨.float32, dims⟩⟩ }

/-- A product with a part of split weights, to which the image of a constant without a type is
added. Nothing reads the last node. -/
def splitLayer : Graph where
  id := "g_1"
  nodes :=
    ⟨[splitNode "x_2" .input 0 [some [2, 3]], splitNode "w_3" .constant 0 [some [3, 4]],
      splitNode "s_4" .split 1 [none, none, none, none], splitNode "m_5" .matMul 2 [none],
      splitNode "u_6" .constant 0 [none], splitNode "r_7" .relu 1 [none],
      splitNode "a_8" .add 2 [none], splitNode "y_9" .output 1 [],
      splitNode "d_10" .gelu 1 [none]], by decide⟩
  edges :=
    [layerEdge "e_11" "w_3" "s_4" 0, layerEdge "e_12" "x_2" "m_5" 0,
     ⟨"e_13", ⟨"s_4", .int 1⟩, ⟨"m_5", .int 1⟩, none⟩, layerEdge "e_14" "u_6" "r_7" 0,
     layerEdge "e_15" "m_5" "a_8" 0, layerEdge "e_16" "r_7" "a_8" 1,
     layerEdge "e_17" "a_8" "y_9" 0, layerEdge "e_18" "x_2" "d_10" 0]

/-- A node with four typed outputs and a node without a type are folded in `splitLayer`, and types
stay consistent. -/
theorem folding_and_dropping_keep_types_splitLayer :
    splitLayer.validate = .ok () ∧ IdSource.FreshFor ⟨18⟩ splitLayer.nodes ∧
      splitLayer.OnlySourcesDeclare ∧ splitLayer.FormulasAnswer ∧
      (splitLayer.nodes.toList.filter splitLayer.canFold).map Node.id = ["s_4", "r_7"] ∧
      ∃ typed, splitLayer.inferTypes = .ok typed ∧
        (typed.foldConstants ⟨18⟩).1.inferTypes = .ok (typed.foldConstants ⟨18⟩).1 ∧
        typed.dropDead.inferTypes = .ok typed.dropDead ∧
        (typed.foldConstants ⟨18⟩).1.dropDead.inferTypes =
          .ok (typed.foldConstants ⟨18⟩).1.dropDead := by
  have hvalid : splitLayer.validate = .ok () := validate_of_forward rfl (by decide)
  have hids : splitLayer.nodes.ids = [("x", 2), ("w", 3), ("s", 4), ("m", 5), ("u", 6), ("r", 7),
      ("a", 8), ("y", 9), ("d", 10)].map fun entry => IdSource.idOf entry.1 entry.2 := by decide
  have hfresh : IdSource.FreshFor ⟨18⟩ splitLayer.nodes :=
    IdSource.freshFor_of_issued hids (by decide)
  have hdeclare : splitLayer.OnlySourcesDeclare := by
    unfold OnlySourcesDeclare
    decide
  have hanswer : splitLayer.FormulasAnswer := by
    intro types n hn _
    simp only [splitLayer, List.mem_cons, List.not_mem_nil, or_false] at hn
    rcases hn with rfl | rfl | rfl | rfl | rfl | rfl | rfl | rfl | rfl <;> exact ⟨_, rfl⟩
  exact ⟨hvalid, hfresh, hdeclare, hanswer, by decide,
    folding_and_dropping_keep_types hvalid hfresh hdeclare hanswer⟩

end Graph

end TensorGraph
