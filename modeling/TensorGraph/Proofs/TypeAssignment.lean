import TensorGraph.Proofs.Evaluation
import TensorGraph.Proofs.Outcome
import TensorGraph.Transform.Typing

/-!
# Inferred types solve the formulas of the operators

An assignment of types to nodes fits a node if the formula of its operator, applied to what the
first edge into each input port brings, gives the type assigned to it. Inference answers exactly if
some assignment fits every node, and its answer is the graph with the types of that assignment
written into it (`inferTypes_eq_ok_iff`). A well-formed graph has at most one such assignment, as
the formulas are a local rule; so nothing depends on the order of nodes, nor on that of edges beyond
the first into a port.
-/

namespace TensorGraph

namespace Graph

/-! ### Assignments -/

/-- A type for every node that has one. -/
abbrev TypeAssignment := String → Option TensorType

/-- The first edge that leads to an input port. -/
def firstInto (g : Graph) (id : String) (index : Nat) : Option Edge :=
  g.edges.find? fun e => e.target.node = id ∧ e.target.index.integral? = some (index : Int)

/-- The type that an assignment brings to an input port, along the first edge into it. -/
def typeInto (g : Graph) (types : TypeAssignment) (id : String) (index : Nat) : Option TensorType :=
  (g.firstInto id index).bind fun e => types e.source.node

/-- The types that an assignment brings to the input ports of a node. -/
def arrivingTypes (g : Graph) (types : TypeAssignment) (n : Node) : InputTypes :=
  (List.range n.inputs.length).map (g.typeInto types n.id)

/-- The type assigned to a node is the one that its formula gives. -/
def Fits (g : Graph) (types : TypeAssignment) (n : Node) : Prop :=
  n.infer (g.arrivingTypes types n) = .ok (types n.id)

/-- The types assigned to all nodes are those that the formulas give. -/
def TypedBy (g : Graph) (types : TypeAssignment) : Prop := ∀ n ∈ g.nodes.toList, g.Fits types n

/-- No formula fails on types that the formulas of the nodes before it give. -/
def FormulasAnswer (g : Graph) : Prop :=
  ∀ types, ∀ n ∈ g.nodes.toList,
    (∀ m ∈ g.nodes.toList, Relation.TransGen g.Feeds m.id n.id → g.Fits types m) →
      ∃ type, n.infer (g.arrivingTypes types n) = .ok type

/-- A node with the types of an assignment written into its ports. A port keeps the type that it has
where none is assigned. -/
def retypeNode (g : Graph) (types : TypeAssignment) (n : Node) : Node :=
  { n with
    inputs := n.inputs.mapIdx fun i port => port.withType ((g.typeInto types n.id i).or port.type)
    outputs := n.outputs.map fun port => port.withType ((types n.id).or port.type) }

/-- The graph with the types of an assignment written into all ports and edges. -/
def retyped (g : Graph) (types : TypeAssignment) : Graph :=
  { g with
    nodes := g.nodes.mapNodes (g.retypeNode types) fun _ => rfl
    edges := g.edges.map fun e => e.withType ((types e.source.node).or e.type) }

/-- `retyped` leaves edges where they are. -/
theorem inputEdges_retyped (g : Graph) (types : TypeAssignment) (id : String) :
    (g.retyped types).inputEdges id =
      (g.inputEdges id).map fun e => e.withType ((types e.source.node).or e.type) := by
  simp only [inputEdges, retyped, List.filter_map]
  rfl

/-- The nodes of `retyped` are those of the graph, each under `retypeNode`. -/
theorem mem_retyped_iff {g : Graph} {types : TypeAssignment} {n : Node} :
    n ∈ (g.retyped types).nodes.toList ↔ ∃ m ∈ g.nodes.toList, g.retypeNode types m = n :=
  List.mem_map

theorem firstInto_eq_find? (g : Graph) (id : String) (index : Nat) :
    g.firstInto id index =
      (g.inputEdges id).find? fun e => e.target.index.integral? = some (index : Int) := by
  simp only [firstInto, inputEdges, List.find?_filter, Bool.decide_and, Bool.decide_eq_true]

theorem mem_inputEdges_of_firstInto {g : Graph} {id : String} {index : Nat} {e : Edge}
    (h : g.firstInto id index = some e) : e ∈ g.inputEdges id := by
  rw [firstInto_eq_find?] at h
  exact List.mem_of_find?_eq_some h

/-- `typeInto` depends on the types of the nodes that feed the node only. -/
private theorem typeInto_congr {g : Graph} {types others : TypeAssignment} {id : String}
    (h : ∀ e ∈ g.inputEdges id, types e.source.node = others e.source.node) (index : Nat) :
    g.typeInto types id index = g.typeInto others id index := by
  unfold typeInto
  cases hfirst : g.firstInto id index with
  | none => rfl
  | some e => exact h e (mem_inputEdges_of_firstInto hfirst)

private theorem arrivingTypes_congr {g : Graph} {types others : TypeAssignment} {n : Node}
    (h : ∀ e ∈ g.inputEdges n.id, types e.source.node = others e.source.node) :
    g.arrivingTypes types n = g.arrivingTypes others n :=
  List.map_congr_left fun i _ => typeInto_congr h i

/-- A node that is reached by the same types and has the same type `Fits` as before. -/
theorem Fits.of_typeInto {g h : Graph} {types others : TypeAssignment} {n : Node}
    (hfits : g.Fits types n)
    (hinto : ∀ i < n.inputs.length, h.typeInto others n.id i = g.typeInto types n.id i)
    (hsame : others n.id = types n.id) : h.Fits others n := by
  have harriving : h.arrivingTypes others n = g.arrivingTypes types n :=
    List.map_congr_left fun i hi => hinto i (List.mem_range.mp hi)
  rw [Fits, harriving, hsame]
  exact hfits

theorem first_arrivingTypes (g : Graph) (types : TypeAssignment) {n : Node}
    (h : 1 ≤ n.inputs.length) : (g.arrivingTypes types n).first = g.typeInto types n.id 0 := by
  obtain ⟨k, hk⟩ := Nat.exists_eq_add_of_le' h
  simp [arrivingTypes, hk, List.range_succ_eq_map, InputTypes.first]

theorem second_arrivingTypes (g : Graph) (types : TypeAssignment) {n : Node}
    (h : 2 ≤ n.inputs.length) : (g.arrivingTypes types n).second = g.typeInto types n.id 1 := by
  obtain ⟨k, hk⟩ := Nat.exists_eq_add_of_le' h
  simp [arrivingTypes, hk, List.range_succ_eq_map, InputTypes.second]

/-- `Node.infer` passes on the type of the first operand for normalisations and elementwise
operators. -/
theorem infer_eq_first {n : Node}
    (h : n.op.signature.formula = .normalisation ∨ n.op.signature.formula = .elementwise)
    (inputs : InputTypes) : n.infer inputs = .ok inputs.first := by
  rw [Node.infer]
  cases h with
  | inl heq => rw [heq]; rfl
  | inr heq => rw [heq]; rfl

/-! ### Formulas as a rule -/

/-- What the formula of a node gives; nothing if it fails. -/
def typeRule (g : Graph) (types : TypeAssignment) (n : Node) : Option TensorType :=
  (n.infer (g.arrivingTypes types n)).toOption.join

private theorem typeRule_local (g : Graph) : g.Local g.typeRule := by
  intro n types others h
  simp only [typeRule, arrivingTypes_congr h]

/-- A type that `Fits` is what `typeRule` finds. -/
private theorem Fits.eq_typeRule {g : Graph} {types : TypeAssignment} {n : Node}
    (h : g.Fits types n) :
    types n.id = g.typeRule types n := by
  rw [typeRule, h]
  rfl

/-- Where the formula answers, what `typeRule` finds `Fits`. -/
private theorem fits_of_answer {g : Graph} {types : TypeAssignment} {n : Node}
    {type : Option TensorType} (hrule : types n.id = g.typeRule types n)
    (hok : n.infer (g.arrivingTypes types n) = .ok type) : g.Fits types n := by
  rw [Fits, hrule, typeRule, hok]
  rfl

/-- A `WellFormed` graph is not `TypedBy` two assignments. -/
theorem TypedBy.unique {g : Graph} (hg : g.WellFormed) {types others : TypeAssignment}
    (htypes : g.TypedBy types) (hothers : g.TypedBy others) {n : Node} (hn : n ∈ g.nodes.toList) :
    types n.id = others n.id :=
  Solves.unique hg g.typeRule_local (fun m hm => (htypes m hm).eq_typeRule)
    (fun m hm => (hothers m hm).eq_typeRule) hn

/-- If `FormulasAnswer`, the graph is `TypedBy` an assignment. -/
theorem exists_typedBy {g : Graph} (hg : g.WellFormed) (hanswer : g.FormulasAnswer) :
    ∃ types, g.TypedBy types := by
  refine ⟨sweep g.typeRule (fun _ => none) g.topologicalOrder, hg.induction ?_⟩
  intro n hn hbefore
  -- what n depends on fits, so its formula answers
  obtain ⟨type, htype⟩ := hanswer _ n hn hbefore
  exact fits_of_answer (sweep_solves hg g.typeRule_local _ n hn) htype

end Graph

/-! ### The run -/

namespace Typing

open TensorGraph.Graph

private theorem feeder_eq (g : Graph) (id : String) (index : Nat) :
    feeder g id index = (g.firstInto id index).map fun e => e.source.node := by
  rw [feeder, firstInto_eq_find?]

theorem retype_eq (port : Port) (type : Option TensorType) :
    retype port type = port.withType (type.or port.type) := by
  cases type <;> rfl

/-- A node with the types that reach it written into its input ports, and the one that its formula
gives into its output ports. -/
def written (n : Node) (inputs : InputTypes) (out : Option TensorType) : Node :=
  { n with
    inputs := List.zipWith retype n.inputs inputs
    outputs := n.outputs.map fun port => retype port out }

/-- `step` succeeds exactly if the edges into the node lead to indices that are keys and its formula
answers; then the answer is kept, if it is a type, and written into the node. -/
theorem step_eq_ok_iff {g : Graph} {s next : Typing} {n : Node} :
    step g s n = .ok next ↔
      ((g.inputEdges n.id).forM fun e => e.target.index.checkKey) = .ok () ∧
        ∃ out, n.infer (reaching g s.types n) = .ok out ∧
          next = ⟨out.elim s.types (s.types.set n.id),
            s.nodes.replace (written n (reaching g s.types n) out)⟩ := by
  have hnone : (n.outputs.map fun port => retype port none) = n.outputs := List.map_id' _
  constructor
  · intro h
    unfold step at h
    obtain ⟨_, hkeys, h⟩ := exists_of_bind_eq_ok h
    obtain ⟨out, hout, h⟩ := exists_of_bind_eq_ok h
    refine ⟨hkeys, out, hout, ?_⟩
    -- without an answer the output ports stay as they are
    cases out with
    | none =>
      cases h
      rw [written, hnone]
      rfl
    | some t =>
      cases h
      rfl
  · rintro ⟨hkeys, out, hout, rfl⟩
    simp only [step, hkeys, hout, bind, Except.bind]
    cases out with
    | none =>
      rw [written, hnone]
      rfl
    | some t => rfl

/-- What an assignment brings to a node and gives it, `written` into the node, is `retypeNode`. -/
theorem written_arrivingTypes (g : Graph) (types : TypeAssignment) (n : Node) :
    written n (g.arrivingTypes types n) (types n.id) = g.retypeNode types n := by
  -- port by port, what reaches a port is written to it
  have hinputs : List.zipWith retype n.inputs (g.arrivingTypes types n) =
      (g.retypeNode types n).inputs := by
    apply List.ext_getElem
    · simp [arrivingTypes, retypeNode]
    · intro i _ _
      simp [arrivingTypes, retypeNode, retype_eq]
  simp only [written, hinputs, retype_eq]
  rfl

/-- The nodes passed so far have their types, and the others are as they were. -/
structure Follows (g : Graph) (types : TypeAssignment) (before : List Node)
    (s : Typing) : Prop where
  types_eq : ∀ id, s.types.get? id = if id ∈ before.map Node.id then types id else none
  nodes_eq : s.nodes.toList = g.nodes.toList.map fun n =>
    if n.id ∈ before.map Node.id then g.retypeNode types n else n

variable {g : Graph} {types : TypeAssignment} {before : List Node} {s next last : Typing} {n : Node}

/-- Once the nodes that feed a node are passed, `reaching` gives what the assignment brings. -/
private theorem Follows.reaching_eq (hs : Follows g types before s)
    (hsource : ∀ e ∈ g.inputEdges n.id, e.source.node ∈ before.map Node.id) :
    reaching g s.types n = g.arrivingTypes types n := by
  apply List.map_congr_left
  intro i _
  rw [feeder_eq, typeInto]
  -- the type comes from the first edge into the port, or there is none
  cases hfirst : g.firstInto n.id i with
  | none => rfl
  | some e =>
    show s.types.get? e.source.node = types e.source.node
    rw [hs.types_eq, if_pos (hsource e (mem_inputEdges_of_firstInto hfirst))]

/-- `checkKey` accepts an index that names a port. -/
private theorem checkKey_of_isPort {index : Datum} {count : Nat} (h : IsPort index count) :
    index.checkKey = .ok () := by
  cases index with
  | bool => rfl
  | int => rfl
  | float => rfl
  | _ => cases h

/-- `checkKey` accepts the indices of all edges into a node of a `WellFormed` graph. -/
private theorem forM_checkKey (hg : g.WellFormed) (id : String) :
    ((g.inputEdges id).forM fun e => e.target.index.checkKey) = .ok () := by
  apply forM_eq_ok
  intro e he
  obtain ⟨_, _, hport⟩ := hg.target_port e (List.mem_filter.mp he).1
  exact checkKey_of_isPort hport

/-- `step` types a node that `Fits` without failure. -/
private theorem Follows.step_eq (hg : g.WellFormed) (hs : Follows g types before s)
    (hsource : ∀ e ∈ g.inputEdges n.id, e.source.node ∈ before.map Node.id)
    (hfits : g.Fits types n) :
    Typing.step g s n = .ok
      ⟨(types n.id).elim s.types (s.types.set n.id), s.nodes.replace (g.retypeNode types n)⟩ := by
  rw [step_eq_ok_iff, hs.reaching_eq hsource]
  exact ⟨forM_checkKey hg n.id, types n.id, hfits, by rw [written_arrivingTypes]⟩

/-- A run still `Follows` the assignment when one more node has been typed. -/
theorem Follows.extend (hs : Follows g types before s) (hn : n ∈ g.nodes.toList)
    (hnew : n.id ∉ before.map Node.id) :
    Follows g types (before ++ [n])
      ⟨(types n.id).elim s.types (s.types.set n.id), s.nodes.replace (g.retypeNode types n)⟩ where
  types_eq := by
    intro id
    -- a node without a type is passed over, and was not found before
    have hget : ((types n.id).elim s.types (s.types.set n.id)).get? id =
        if id = n.id then types n.id else s.types.get? id := by
      cases htype : types n.id with
      | none =>
        show s.types.get? id = _
        by_cases hid : id = n.id
        · rw [if_pos hid, hid, hs.types_eq, if_neg hnew]
        · rw [if_neg hid]
      | some t => exact Dict.get?_set s.types n.id id t
    rw [hget, hs.types_eq]
    by_cases hid : id = n.id <;> simp [hid]
  nodes_eq := by
    show (s.nodes.toList.map fun m => if m.id = n.id then g.retypeNode types n else m) = _
    rw [hs.nodes_eq, List.map_map]
    apply List.map_congr_left
    intro m hm
    have hsame : (if m.id ∈ before.map Node.id then g.retypeNode types m else m).id = m.id := by
      split <;> rfl
    simp only [Function.comp_apply, hsame, List.map_append, List.map_singleton, List.mem_append,
      List.mem_singleton]
    by_cases hid : m.id = n.id
    · rw [if_pos hid, if_pos (Or.inr hid), NodeTable.eq_of_id_eq hm hn hid]
    · simp only [hid, if_false, or_false]

/-- A node that `step` types without failure `Fits`, if its type is what `typeRule` finds. -/
private theorem Follows.fits_of_step (hs : Follows g types before s)
    (hsource : ∀ e ∈ g.inputEdges n.id, e.source.node ∈ before.map Node.id)
    (hrule : types n.id = g.typeRule types n) (hok : Typing.step g s n = .ok next) :
    g.Fits types n := by
  obtain ⟨_, type, htype, _⟩ := step_eq_ok_iff.mp hok
  rw [hs.reaching_eq hsource] at htype
  exact fits_of_answer hrule htype

/-- What `topologicalOrder` gives for each of its nodes: it is new, and what feeds it stands
before it. -/
private theorem of_topologicalOrder (hg : g.WellFormed) {after : List Node}
    (horder : g.topologicalOrder = before ++ n :: after) :
    n ∈ g.nodes.toList ∧ n.id ∉ before.map Node.id ∧
      ∀ e ∈ g.inputEdges n.id, e.source.node ∈ before.map Node.id := by
  refine ⟨?_, ?_, fun e he => source_mem_of_topologicalOrder hg.closed hg.acyclic horder he⟩
  · rw [← g.topologicalOrder_perm.mem_iff, horder]
    exact List.mem_append_right _ List.mem_cons_self
  · intro hmem
    have hnodup := g.topologicalOrder_ids_nodup
    rw [horder, List.map_append, List.map_cons] at hnodup
    exact (List.nodup_append.mp hnodup).2.2 _ hmem _ List.mem_cons_self rfl

/-- `run` types nodes that fit without failure, one after the other. -/
theorem Follows.run (hg : g.WellFormed) {after : List Node}
    (horder : g.topologicalOrder = before ++ after) (hs : Follows g types before s)
    (hfits : g.TypedBy types) :
    ∃ last, Typing.run g s after = .ok last ∧ Follows g types g.topologicalOrder last := by
  induction after generalizing before s with
  | nil =>
    rw [List.append_nil] at horder
    exact ⟨s, rfl, horder ▸ hs⟩
  | cons n rest ih =>
    -- whatever feeds the node has been passed
    obtain ⟨hn, hnew, hsource⟩ := of_topologicalOrder hg horder
    have hpassed : g.topologicalOrder = before ++ [n] ++ rest := by simp [horder]
    obtain ⟨last, hlast, hdone⟩ := ih hpassed (hs.extend hn hnew)
    refine ⟨last, ?_, hdone⟩
    rw [Typing.run, hs.step_eq hg hsource (hfits n hn)]
    exact hlast

/-- If `run` does not fail, all its nodes `Fits`. -/
private theorem Follows.fits_of_run (hg : g.WellFormed) {after : List Node}
    (horder : g.topologicalOrder = before ++ after) (hs : Follows g types before s)
    (hsolves : g.Solves g.typeRule types) (hok : Typing.run g s after = .ok last) :
    ∀ n ∈ after, g.Fits types n := by
  induction after generalizing before s with
  | nil =>
    intro n hn
    cases hn
  | cons n rest ih =>
    obtain ⟨hn, hnew, hsource⟩ := of_topologicalOrder hg horder
    obtain ⟨next, hnext, hrest⟩ := exists_of_bind_eq_ok hok
    -- as the step did not fail the node fits, and so the step was the one that the assignment takes
    have hfits := hs.fits_of_step hsource (hsolves n hn) hnext
    rw [hs.step_eq hg hsource hfits] at hnext
    cases hnext
    have hpassed : g.topologicalOrder = before ++ [n] ++ rest := by simp [horder]
    intro m hm
    cases List.mem_cons.mp hm with
    | inl heq => exact heq ▸ hfits
    | inr hm => exact ih hpassed (hs.extend hn hnew) hrest m hm

private theorem follows_start (g : Graph) (types : TypeAssignment) :
    Follows g types [] ⟨Dict.empty, g.nodes⟩ :=
  ⟨fun _ => rfl, by simp⟩

end Typing

namespace Graph

/-- If a graph is `TypedBy` an assignment, `inferTypes` writes it into the graph. -/
theorem TypedBy.inferTypes_eq {g : Graph} (hg : g.WellFormed) {types : TypeAssignment}
    (h : g.TypedBy types) : g.inferTypes = .ok (g.retyped types) := by
  obtain ⟨last, hlast, hdone⟩ :=
    (Typing.follows_start g types).run hg (List.nil_append _).symm h
  -- the run has passed all nodes, so every port and every edge has its type
  have hpassed : ∀ id ∈ g.nodes.ids, id ∈ g.topologicalOrder.map Node.id := fun id hid =>
    (g.topologicalOrder_perm.map Node.id).mem_iff.mpr hid
  have hnodes : last.nodes = (g.retyped types).nodes := by
    apply NodeTable.ext
    rw [hdone.nodes_eq]
    apply List.map_congr_left
    intro n hn
    rw [if_pos (hpassed n.id (List.mem_map_of_mem hn))]
  have hedges : g.edges.map (Typing.retypeEdge last.types) = (g.retyped types).edges := by
    apply List.map_congr_left
    intro e he
    have hget : last.types.get? e.source.node = types e.source.node := by
      rw [hdone.types_eq, if_pos (hpassed _ (hg.closed e he).1)]
    rw [Typing.retypeEdge, hget]
    cases types e.source.node <;> rfl
  rw [inferTypes, hlast]
  show Except.ok _ = _
  rw [hnodes, hedges]
  rfl

/-- `inferTypes` answers exactly if the graph is `TypedBy` an assignment, and its answer is the
graph with the types of that assignment. -/
theorem inferTypes_eq_ok_iff {g h : Graph} (hg : g.WellFormed) :
    g.inferTypes = .ok h ↔ ∃ types, g.TypedBy types ∧ h = g.retyped types := by
  constructor
  · intro hok
    obtain ⟨last, hrun, _⟩ := exists_of_bind_eq_ok hok
    -- the sweep solves the rule, and the run shows that no formula failed on it
    have hsolves := sweep_solves hg g.typeRule_local fun _ => none
    have hfits := (Typing.follows_start g _).fits_of_run hg (List.nil_append _).symm hsolves hrun
    have htyped : g.TypedBy (sweep g.typeRule (fun _ => none) g.topologicalOrder) := fun n hn =>
      hfits n (g.topologicalOrder_perm.mem_iff.mpr hn)
    rw [htyped.inferTypes_eq hg] at hok
    exact ⟨_, htyped, (Except.ok.inj hok).symm⟩
  · intro h
    obtain ⟨types, htyped, rfl⟩ := h
    exact htyped.inferTypes_eq hg

/-- `arrivingTypes` do not depend on the assignment, if it fits everything that the node
depends on. -/
private theorem arrivingTypes_unique {g : Graph} (hg : g.WellFormed) {types others : TypeAssignment}
    {n : Node} (htypes : ∀ m ∈ g.nodes.toList, Relation.TransGen g.Feeds m.id n.id → g.Fits types m)
    (hothers : ∀ m ∈ g.nodes.toList, Relation.TransGen g.Feeds m.id n.id → g.Fits others m) :
    g.arrivingTypes types n = g.arrivingTypes others n := by
  apply arrivingTypes_congr
  intro e he
  obtain ⟨he, htarget⟩ := mem_inputEdges.mp he
  -- the source of the edge is a node of the graph
  obtain ⟨p, hp⟩ := NodeTable.mem_ids_iff.mp (hg.closed e he).1
  have hid := NodeTable.id_eq_of_find? hp
  rw [← hid]
  exact unique_within hg g.typeRule_local (fun _ _ hm hk => hk.trans hm)
    (fun m hm hbefore => (htypes m hm hbefore).eq_typeRule)
    (fun m hm hbefore => (hothers m hm hbefore).eq_typeRule) p (NodeTable.mem_of_find? hp)
    (.single ⟨e, he, hid.symm, htarget⟩)

/-- `inferTypes` answers exactly if `FormulasAnswer`. -/
theorem exists_inferTypes_iff {g : Graph} (hg : g.WellFormed) :
    (∃ h, g.inferTypes = .ok h) ↔ g.FormulasAnswer := by
  constructor
  · rintro ⟨h, hok⟩ types n hn hbefore
    obtain ⟨found, htyped, _⟩ := (inferTypes_eq_ok_iff hg).mp hok
    -- what has been found for the nodes before this one is the only assignment that fits
    rw [arrivingTypes_unique hg hbefore fun m hm _ => htyped m hm]
    exact ⟨found n.id, htyped n hn⟩
  · intro hanswer
    obtain ⟨types, htyped⟩ := exists_typedBy hg hanswer
    exact ⟨g.retyped types, htyped.inferTypes_eq hg⟩

/-! ### Other orders -/

/-- `h` has the nodes and edges of `g`, in any order that leaves the first edge into each port
first. -/
structure Reorders (h g : Graph) : Prop where
  nodes_perm : h.nodes.toList.Perm g.nodes.toList
  edges_perm : h.edges.Perm g.edges
  firstInto_eq : ∀ n ∈ g.nodes.toList, ∀ i < n.inputs.length, h.firstInto n.id i =
    g.firstInto n.id i

namespace Reorders

variable {g h : Graph} (hr : h.Reorders g)
include hr

/-- A graph that `Reorders` a `WellFormed` one is `WellFormed`. -/
theorem wellFormed (hg : g.WellFormed) : h.WellFormed := hg.of_perm hr.nodes_perm hr.edges_perm

theorem typeInto_eq (types : TypeAssignment) {n : Node} (hn : n ∈ g.nodes.toList) {i : Nat}
    (hi : i < n.inputs.length) : h.typeInto types n.id i = g.typeInto types n.id i := by
  rw [typeInto, typeInto, hr.firstInto_eq n hn i hi]

/-- A graph that `Reorders` another one is `TypedBy` the same assignments. -/
theorem typedBy {types : TypeAssignment} (htyped : g.TypedBy types) : h.TypedBy types := by
  intro n hn
  have hn := hr.nodes_perm.mem_iff.mp hn
  exact (htyped n hn).of_typeInto (fun _ hi => hr.typeInto_eq types hn hi) rfl

/-- `retypeNode` gives every node the same types in a graph that `Reorders` another one. -/
private theorem retypeNode_eq (types : TypeAssignment) {n : Node} (hn : n ∈ g.nodes.toList) :
    h.retypeNode types n = g.retypeNode types n := by
  -- what reaches a port is the same in both graphs
  have hports : (h.retypeNode types n).inputs = (g.retypeNode types n).inputs := by
    apply List.ext_getElem
    · simp [retypeNode]
    · intro i hi _
      have hlt : i < n.inputs.length := by simpa [retypeNode] using hi
      simp [retypeNode, hr.typeInto_eq types hn hlt]
  rw [retypeNode, retypeNode, Node.mk.injEq]
  exact ⟨rfl, rfl, rfl, hports, rfl, rfl, rfl⟩

/-- The nodes and edges of `retyped` are the same, in another order. -/
private theorem retyped_perm (types : TypeAssignment) :
    (h.retyped types).nodes.toList.Perm (g.retyped types).nodes.toList ∧
      (h.retyped types).edges.Perm (g.retyped types).edges := by
  refine ⟨?_, hr.edges_perm.map _⟩
  have hmap : h.nodes.toList.map (h.retypeNode types) = h.nodes.toList.map (g.retypeNode types) :=
    List.map_congr_left fun n hn => hr.retypeNode_eq types (hr.nodes_perm.mem_iff.mp hn)
  show (h.nodes.toList.map (h.retypeNode types)).Perm (g.nodes.toList.map (g.retypeNode types))
  rw [hmap]
  exact hr.nodes_perm.map _

end Reorders

/-- If `FormulasAnswer` on a valid graph, exactly one assignment of types fits its nodes, and
`inferTypes` writes that assignment into all ports and edges. On the same nodes and edges in another
order, the first edge into each port being the same, it finds the same types. -/
theorem inferTypes_solves_formulas {g : Graph} (hvalid : g.validate = .ok ())
    (hanswer : g.FormulasAnswer) :
    ∃ types, g.TypedBy types ∧
      (∀ others, g.TypedBy others → ∀ n ∈ g.nodes.toList, others n.id = types n.id) ∧
      g.inferTypes = .ok (g.retyped types) ∧
      ∀ h : Graph, h.Reorders g → h.inferTypes = .ok (h.retyped types) ∧
        (h.retyped types).nodes.toList.Perm (g.retyped types).nodes.toList ∧
        (h.retyped types).edges.Perm (g.retyped types).edges := by
  have hg := validate_eq_ok_iff.mp hvalid
  obtain ⟨types, htyped⟩ := exists_typedBy hg hanswer
  refine ⟨types, htyped, fun others hothers n hn => hothers.unique hg htyped hn,
    htyped.inferTypes_eq hg, ?_⟩
  intro h hr
  exact ⟨(hr.typedBy htyped).inferTypes_eq (hr.wellFormed hg), hr.retyped_perm types⟩

/-- `scaledLayer` with its nodes and edges listed from the outputs on. -/
def scaledLayerBackwards : Graph :=
  { scaledLayer with
    nodes := ⟨scaledLayer.nodes.toList.reverse, by decide⟩
    edges := scaledLayer.edges.reverse }

/-- The types of `scaledLayer` are those that its formulas give, in whatever order it is listed. -/
theorem inferTypes_scaledLayer_solves_formulas :
    scaledLayer.validate = .ok () ∧ scaledLayer.FormulasAnswer ∧
      scaledLayerBackwards.Reorders scaledLayer ∧
      ∃ types, scaledLayer.TypedBy types ∧ types "m_6" = some ⟨.float32, [2, 2]⟩ ∧
        scaledLayer.inferTypes = .ok (scaledLayer.retyped types) ∧
        scaledLayerBackwards.inferTypes = .ok (scaledLayerBackwards.retyped types) := by
  have hanswer : scaledLayer.FormulasAnswer := by
    intro types n hn _
    simp only [scaledLayer, List.mem_cons, List.not_mem_nil, or_false] at hn
    rcases hn with rfl | rfl | rfl | rfl | rfl | rfl | rfl | rfl <;> exact ⟨_, rfl⟩
  have hr : scaledLayerBackwards.Reorders scaledLayer :=
    ⟨List.reverse_perm _, List.reverse_perm _, by decide⟩
  obtain ⟨types, htyped, hunique, hok, hreorders⟩ :=
    inferTypes_solves_formulas validate_scaledLayer hanswer
  -- every node of the layer has a matrix for its type
  have hmatrices : scaledLayer.TypedBy fun _ => some ⟨.float32, [2, 2]⟩ := by
    unfold TypedBy Fits
    decide
  exact ⟨validate_scaledLayer, hanswer, hr, types, htyped,
    (hunique _ hmatrices (layerNode "m_6" .matMul 2) (by decide)).symm, hok, (hreorders _ hr).1⟩

end Graph

end TensorGraph
