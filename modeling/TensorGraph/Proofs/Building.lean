import TensorGraph.Build.Builder
import TensorGraph.Proofs.Growth
import TensorGraph.Proofs.Lists

/-!
# What builders build

A builder is used by calls, of which some may fail, and between them its id source may serve others.
`perform_outcome` says what a call comes to: it fails and leaves the graph as it was, or the graph
grows by one node that is fed from existing nodes. So after any calls every edge leads from a node
to one that was put in later, and all nodes are supplied (`replay_assembles`).

The builder looks up the nodes that it is referred to, but not their ports. What it builds is valid
exactly if all references that it has accepted name output ports (`validate_replay_iff`), and they
need not do so (`replay_accepts_missing_ports`).
-/

namespace TensorGraph

namespace Builder

/-! ### Calls -/

/-- A call of one of a builder's methods. -/
inductive Call where
  | input (name : Label) (shape element : Datum)
  | constant (name : Label) (shape element : Datum)
  | output (source : Datum) (name : Label)
  | op (kind : Datum) (sources : List Datum) (name : Label) (attrs : List (String × Datum))
  /-- A method that is named after an operator and takes its sources and a name. -/
  | operator (kind : OpKind) (sources : List Datum) (name : Label)
  | conv2d (source filters kernel stride padding : Datum) (name : Label)
  /-- A call that lacks an argument, or has one that the method does not take. -/
  | misfit
deriving DecidableEq, Repr

/-- The sources that a call is given. -/
def Call.sources : Call → List Datum
  | .input _ _ _ => []
  | .constant _ _ _ => []
  | .output source _ => [source]
  | .op _ sources _ _ => sources
  | .operator _ sources _ => sources
  | .conv2d source _ _ _ _ _ => [source]
  | .misfit => []

/-- Carry out a call. -/
def perform (b : Builder) (ids : IdSource) : Call → BuildStep
  | .input name shape element => b.input name shape element ids
  | .constant name shape element => b.constant name shape element ids
  | .output source name => b.output source name ids
  | .op kind sources name attrs => b.op kind sources name attrs ids
  | .operator kind sources name => b.add kind sources name none [] ids
  | .conv2d source filters kernel stride padding name =>
    b.conv2d source filters kernel stride padding name ids
  | .misfit => (.error .wrongArguments, b, ids)

/-- What happens while a builder is in use: it is called, or its id source issues ids to others. -/
inductive Event where
  | call (c : Call)
  | elsewhere (count : Nat)
deriving DecidableEq, Repr

/-- The builder and its id source after events in turn. -/
def replay (b : Builder) (ids : IdSource) : List Event → Builder × IdSource
  | [] => (b, ids)
  | .call c :: rest => (b.perform ids c).2.1.replay (b.perform ids c).2.2 rest
  | .elsewhere count :: rest => b.replay ⟨ids.issued + count⟩ rest

/-- The ports that a call refers to, if it is accepted. -/
def accepted (b : Builder) (ids : IdSource) (c : Call) : List Endpoint :=
  match (b.perform ids c).1, c.sources.mapM b.resolve with
  | .ok _, .ok refs => refs
  | _, _ => []

/-- The references that are accepted in the course of events. -/
def references (b : Builder) (ids : IdSource) : List Event → List Endpoint
  | [] => []
  | .call c :: rest =>
    b.accepted ids c ++ (b.perform ids c).2.1.references (b.perform ids c).2.2 rest
  | .elsewhere count :: rest => b.references ⟨ids.issued + count⟩ rest

/-! ### What a call comes to -/

/-- A step from sources fails and leaves the graph as it was, or its sources are resolved and the
graph grows by a node that is fed from them. -/
inductive Outcome (b : Builder) (ids : IdSource) (sources : List Datum) : BuildStep → Prop where
  | failed {cause : Error} {next : Builder} {later : IdSource} (hgraph : next.graph = b.graph)
      (hle : ids.issued ≤ later.issued) : Outcome b ids sources (.error cause, next, later)
  | grown {n : Node} {refs : List Endpoint} {next : Builder} {later : IdSource}
      (hrefs : sources.mapM b.resolve = .ok refs)
      (hgrows : b.graph.Grows ids n refs next.graph later) :
      Outcome b ids sources (.ok n.id, next, later)

/-- `nameFor` leaves the graph alone. -/
private theorem graph_nameFor (b : Builder) (kind : OpKind) (given : Label) :
    (b.nameFor kind given).2.graph = b.graph := by
  unfold nameFor
  split
  · rfl
  · rfl
  · unfold freshName
    split <;> rfl

/-- `addNode` from sources that are resolved has an `Outcome`. -/
private theorem addNode_outcome {b : Builder} {sources : List Datum} {refs : List Endpoint}
    (hrefs : sources.mapM b.resolve = .ok refs) (kind : OpKind) (name : Label)
    (type : Option TensorType) (attrs : List (String × Datum)) (ids : IdSource) :
    b.Outcome ids sources (b.addNode kind refs name type attrs ids) := by
  have hgraph := b.graph_nameFor kind name
  unfold addNode
  generalize b.nameFor kind name = named at hgraph
  obtain ⟨label, named⟩ := named
  cases label with
  | error cause => exact .failed hgraph (Nat.le_refl _)
  | ok label =>
    dsimp -zeta only at hgraph ⊢
    -- which attributes are given does not matter
    extract_lets given
    clear_value given
    generalize hmake : makeNode kind label (.int refs.length) type (.dict given) ids = step
    obtain ⟨made, later⟩ := step
    cases made with
    | error cause =>
      refine .failed hgraph ?_
      have hle := issued_le_makeNode kind label (.int refs.length) type (.dict given) ids
      rw [hmake] at hle
      exact hle
    | ok n =>
      have hok := makeNode_eq_ok (congrArg Prod.fst hmake)
      rw [hmake] at hok
      obtain ⟨hlaid, hid, rfl⟩ := hok
      simp only [Except.bind, Graph.addNode, hgraph]
      by_cases hold : b.graph.nodes.contains n.id = true
      · simp only [hold, if_true, Except.map]
        exact .failed hgraph (Nat.le_succ _)
      · simp only [hold, Except.map]
        refine .grown hrefs ⟨hid, ?_, hlaid.inputs_length, rfl⟩
        rw [hlaid.op_eq]
        exact hlaid.arity

/-- `add`, which resolves its sources first, has an `Outcome`. -/
private theorem add_outcome (b : Builder) (kind : OpKind) (sources : List Datum) (name : Label)
    (type : Option TensorType) (attrs : List (String × Datum)) (ids : IdSource) :
    b.Outcome ids sources (b.add kind sources name type attrs ids) := by
  unfold add
  split
  · exact .failed rfl (Nat.le_refl _)
  · rename_i refs hrefs
    exact addNode_outcome hrefs kind name type attrs ids

/-- `perform` has an `Outcome`, whatever the call. -/
private theorem perform_outcome (b : Builder) (ids : IdSource) (c : Call) :
    b.Outcome ids c.sources (b.perform ids c) := by
  have hsame {cause : Error} : b.Outcome ids c.sources (.error cause, b, ids) :=
    .failed rfl (Nat.le_refl _)
  cases c with
  | input name shape element =>
    show b.Outcome ids [] (b.input name shape element ids)
    unfold input
    split
    · exact hsame
    · exact b.add_outcome .input [] name _ [] ids
  | constant name shape element =>
    show b.Outcome ids [] (b.constant name shape element ids)
    unfold constant
    split
    · exact b.add_outcome .constant [] name none [] ids
    · split
      · exact hsame
      · exact b.add_outcome .constant [] name _ [] ids
  | output source name =>
    show b.Outcome ids [source] (b.output source name ids)
    unfold output
    split
    · exact hsame
    · rename_i ref href
      -- the name may be made from the source, which is looked up first
      have hrefs : [source].mapM b.resolve = .ok [ref] := by
        rw [List.mapM_cons, href]
        rfl
      split
      · exact hsame
      · exact addNode_outcome hrefs .output name none [] ids
      · exact addNode_outcome hrefs .output _ none [] ids
  | op kind sources name attrs =>
    show b.Outcome ids sources (b.op kind sources name attrs ids)
    unfold op
    split
    · exact hsame
    · exact b.add_outcome _ sources name none attrs ids
  | operator kind sources name => exact b.add_outcome kind sources name none [] ids
  | conv2d source filters kernel stride padding name =>
    exact b.add_outcome .conv2d [source] name none _ ids
  | misfit => exact hsame

/-- `perform`, where it fails, leaves the graph as it was. -/
private theorem graph_perform_of_error {b : Builder} {ids : IdSource} {c : Call} {cause : Error}
    (h : (b.perform ids c).1 = .error cause) : (b.perform ids c).2.1.graph = b.graph := by
  have houtcome := b.perform_outcome ids c
  generalize b.perform ids c = step at h houtcome
  cases houtcome with
  | failed hgraph _ => exact hgraph
  | grown _ _ => cases h

/-! ### Sequences of calls -/

/-- `existing` accepts only references to nodes of the graph. -/
private theorem node_mem_of_existing {b : Builder} {node index : Datum} {ref : Endpoint}
    (h : b.existing node index = .ok ref) : ref.node ∈ b.graph.nodes.ids := by
  obtain ⟨_, _, h⟩ := exists_of_bind_eq_ok h
  split at h
  · split at h
    · -- the node is one that the builder knows
      rename_i id hcontains
      cases h
      exact NodeTable.contains_eq_true_iff.mp hcontains
    · cases h
  · cases h

/-- `resolve` gives references to nodes of the graph. -/
private theorem node_mem_of_resolve {b : Builder} {source : Datum} {ref : Endpoint}
    (h : b.resolve source = .ok ref) : ref.node ∈ b.graph.nodes.ids := by
  unfold resolve at h
  split at h
  · exact node_mem_of_existing h
  · split at h
    · exact node_mem_of_existing h
    · exact node_mem_of_existing h
    · cases h

end Builder

namespace Graph

/-- A graph put together node by node: edges have ids of their own, and lead from a node of the
graph to one that was put in later; every node has as many input ports as its kind accepts, and one
edge leads to each of them. -/
structure Assembled (g : Graph) : Prop where
  edgeIds_nodup : (g.edges.map Edge.id).Nodup
  closed : g.Closed
  forward : ∀ e ∈ g.edges, g.nodes.ids.idxOf e.source.node < g.nodes.ids.idxOf e.target.node
  supplied : ∀ n ∈ g.nodes.toList, g.Supplied n

/-- Edges lead from nodes of the graph to nodes that come later. -/
def Forward (g : Graph) : Prop :=
  ∀ e ∈ g.edges, e.source.node ∈ g.nodes.ids ∧
    g.nodes.ids.idxOf e.source.node < g.nodes.ids.idxOf e.target.node

/-- A graph stays `Forward` when it `Grows` by a node that is fed from existing nodes, as this comes
later than they do. -/
theorem Forward.grow {g h : Graph} {ids later : IdSource} {n : Node} {sources : List Endpoint}
    (hforward : g.Forward) (hg : g.Produced ids) (hgrows : g.Grows ids n sources h later)
    (hsources : ∀ ref ∈ sources, ref.node ∈ g.nodes.ids) : h.Forward := by
  -- the node comes last, after every node that it reads
  have hfresh := hg.accounts.nodes
  have hnew : n.id ∉ g.nodes.ids := by
    rw [hgrows.id_eq]
    exact hfresh.next_not_mem "n"
  intro e he
  rw [hgrows.ids_nodes hfresh]
  rw [hgrows.graph_eq] at he
  cases List.mem_append.mp he with
  | inl hold =>
    -- an edge from before keeps its order
    obtain ⟨hmem, hlt⟩ := hforward e hold
    exact ⟨List.mem_append_left _ hmem, idxOf_lt_append hmem (hg.targets e hold) hlt _⟩
  | inr hfeed =>
    -- an edge into the new node comes from one that was there
    obtain ⟨htarget, hsource, _⟩ := mem_feedEdges hfeed
    have hmem := hsources e.source hsource
    rw [htarget]
    exact ⟨List.mem_append_left _ hmem, idxOf_lt_idxOf_new hmem hnew⟩

end Graph

namespace Builder

/-- What holds of a builder at all times. -/
structure Built (b : Builder) (ids : IdSource) : Prop where
  produced : b.graph.Produced ids
  forward : b.graph.Forward

/-- A builder with a new graph is `Built`. -/
private theorem built_create (name description : Label) (counts : Datum) (ids : IdSource) :
    Built ⟨(Graph.create name description ids).1, counts⟩
      (Graph.create name description ids).2 where
  produced := Graph.produced_create name description ids
  forward := by simp [Graph.Forward, Graph.create]

/-- `perform`, whether it fails or not, leaves a builder `Built`. -/
theorem Built.perform {b : Builder} {ids : IdSource} (hb : b.Built ids) (c : Call) :
    (b.perform ids c).2.1.Built (b.perform ids c).2.2 := by
  have houtcome := b.perform_outcome ids c
  generalize b.perform ids c = step at houtcome
  cases houtcome with
  | failed hgraph hle => exact ⟨hgraph ▸ hb.produced.mono hle, hgraph ▸ hb.forward⟩
  | grown hrefs hgrows =>
    refine ⟨hb.produced.grow hgrows, hb.forward.grow hb.produced hgrows fun ref href => ?_⟩
    -- a reference comes from a source that has been resolved
    obtain ⟨source, _, hresolve⟩ := exists_of_mem_right (forall₂_of_mapM_eq_ok hrefs) href
    exact node_mem_of_resolve hresolve

/-- `replay` leaves a builder `Built`. -/
theorem Built.replay {b : Builder} {ids : IdSource} (hb : b.Built ids) (events : List Event) :
    (b.replay ids events).1.Built (b.replay ids events).2 := by
  induction events generalizing b ids with
  | nil => exact hb
  | cons event rest ih =>
    cases event with
    | call c => exact ih (hb.perform c)
    | elsewhere count => exact ih ⟨hb.produced.mono (Nat.le_add_right _ _), hb.forward⟩

/-- What is `Built` has no cycle, as edges lead to later nodes. -/
theorem Built.acyclic {b : Builder} {ids : IdSource} (hb : b.Built ids) : b.graph.Acyclic :=
  Graph.acyclic_of_rank (fun id => b.graph.nodes.ids.idxOf id) fun e he => (hb.forward e he).2

/-- After `replay` of any calls, of which some may have failed, and whatever ids others have got
in the meantime, the graph is `Assembled`: its edges have ids of their own, lead from existing
nodes to nodes put in later and so make no cycle, every node has a number of input ports that its
kind accepts, and one edge leads to each of them. The next call, if it fails, leaves the graph as
it is. -/
theorem replay_assembles (name description : Label) (counts : Datum) (ids : IdSource)
    (events : List Event) :
    let start := Graph.create name description ids
    let final := (Builder.mk start.1 counts).replay start.2 events
    final.1.graph.Assembled ∧ final.1.graph.Acyclic ∧
      ∀ (c : Call) (cause : Error), (final.1.perform final.2 c).1 = .error cause →
        (final.1.perform final.2 c).2.1.graph = final.1.graph := by
  intro start final
  -- what holds of a builder after any calls
  have hfinal : final.1.Built final.2 := (built_create name description counts ids).replay events
  refine ⟨?_, hfinal.acyclic, fun c cause hfail => graph_perform_of_error hfail⟩
  have hproduced := hfinal.produced
  refine ⟨hproduced.accounts.edgeIds_nodup, fun e he => ?_, fun e he => (hfinal.forward e he).2,
    fun n hn => ?_⟩
  · exact ⟨(hfinal.forward e he).1, hproduced.targets e he⟩
  · obtain ⟨sources, hfed⟩ := hproduced.fed n hn
    exact hfed.supplied

/-- A sum of an input with itself, made with detours: calls fail for an unknown source, for too few
sources and for an attribute that is none, and others get ids in between. -/
def doublingEvents : List Event :=
  [.call (.input (.str "x") (.list [.int 1, .int 4]) (.str "float32")),
   .call (.operator .relu [.str "n_9"] (.str "r")),
   .call (.operator .add [.str "n_2"] (.str "s")),
   .elsewhere 3,
   .call (.operator .add [.str "n_2", .list [.str "n_2", .int 0]] (.str "s")),
   .call (.op (.str "ReLU") [.str "n_6"] (.str "r") [("axis", .dict [])]),
   .call (.output (.str "n_6") .null)]

/-- What a builder has come to after `doublingEvents`. -/
def doubling : Builder × IdSource :=
  (Builder.mk (Graph.create (.str "g") (.str "") IdSource.fresh).1 (.dict [])).replay
    (Graph.create (.str "g") (.str "") IdSource.fresh).2 doublingEvents

/-- The failed calls of `doublingEvents` have left nothing but gaps between the ids, and one more
leaves nothing at all. -/
theorem replay_doubling_assembles :
    doubling.1.graph.nodes.ids = ["n_2", "n_6", "n_10"] ∧
      doubling.1.graph.edges.map Edge.id = ["e_7", "e_8", "e_11"] ∧
      doubling.1.graph.Assembled ∧
      (doubling.1.perform doubling.2 (.constant .null (.list [.int (-1)]) (.str "float32"))).1 =
        .error (.negativeDimension [-1]) ∧
      (doubling.1.perform doubling.2
          (.constant .null (.list [.int (-1)]) (.str "float32"))).2.1.graph =
        doubling.1.graph := by
  have hfails : (doubling.1.perform doubling.2
      (.constant .null (.list [.int (-1)]) (.str "float32"))).1 =
        .error (.negativeDimension [-1]) := by
    rfl
  have hreplay := replay_assembles (.str "g") (.str "") (.dict []) IdSource.fresh doublingEvents
  exact ⟨by decide, by decide, hreplay.1, hfails, hreplay.2.2 _ _ hfails⟩

/-! ### References to ports -/

/-- `perform` adds edges from the `accepted` references, in order. -/
private theorem sources_perform (b : Builder) (ids : IdSource) (c : Call) :
    (b.perform ids c).2.1.graph.edges.map Edge.source =
      b.graph.edges.map Edge.source ++ b.accepted ids c := by
  have houtcome := b.perform_outcome ids c
  unfold accepted
  generalize b.perform ids c = step at houtcome
  cases houtcome with
  | failed hgraph _ => simp [hgraph]
  | grown hrefs hgrows => simp [hrefs, hgrows.graph_eq, Graph.map_source_feedEdges]

/-- After `replay` the sources of the edges are the `references` that have been accepted, in
order. -/
private theorem sources_replay (b : Builder) (ids : IdSource) (events : List Event) :
    (b.replay ids events).1.graph.edges.map Edge.source =
      b.graph.edges.map Edge.source ++ b.references ids events := by
  induction events generalizing b ids with
  | nil => simp [replay, references]
  | cons event rest ih =>
    cases event with
    | call c => rw [replay, references, ih, sources_perform, List.append_assoc]
    | elsewhere count => rw [replay, references, ih]

/-- What a builder has built by `replay` passes `validate` exactly if each of the `references` that
it has accepted names an output port. -/
theorem validate_replay_iff (name description : Label) (counts : Datum) (ids : IdSource)
    (events : List Event) :
    let start := Graph.create name description ids
    let final := (Builder.mk start.1 counts).replay start.2 events
    final.1.graph.validate = .ok () ↔
      ∀ ref ∈ (Builder.mk start.1 counts).references start.2 events,
        ∃ n, final.1.graph.nodes.find? ref.node = some n ∧
          Graph.IsPort ref.index n.outputs.length := by
  intro start final
  have hfinal : final.1.Built final.2 := (built_create name description counts ids).replay events
  -- the edges have as sources the references of the calls that succeeded
  have hsources : final.1.graph.edges.map Edge.source =
      (Builder.mk start.1 counts).references start.2 events := sources_replay _ _ events
  have hproduced := hfinal.produced
  -- of a graph that has been built only the sources and cycles are in question, and there are no
  -- cycles
  rw [Graph.validate_eq_ok_iff, Graph.wellFormed_iff_of_fed hproduced.accounts.edgeIds_nodup
    hproduced.targets hproduced.fed, ← hsources, List.forall_mem_map]
  exact and_iff_left hfinal.acyclic

/-- References to a second output of a model input and to the output of a model output. There are no
such ports. -/
def strayEvents : List Event :=
  [.call (.input (.str "x") (.list [.int 4]) (.str "float32")),
   .call (.operator .relu [.list [.str "n_2", .int 1]] (.str "r")),
   .call (.output (.str "n_3") (.str "y")),
   .call (.operator .relu [.str "n_5"] (.str "s"))]

/-- All calls of `strayEvents` are accepted, and what they build is not valid. -/
theorem replay_accepts_missing_ports :
    let start := Graph.create (.str "g") (.str "") IdSource.fresh
    let final := (Builder.mk start.1 (.dict [])).replay start.2 strayEvents
    (Builder.mk start.1 (.dict [])).references start.2 strayEvents =
        [⟨"n_2", .int 1⟩, ⟨"n_3", .int 0⟩, ⟨"n_5", .int 0⟩] ∧
      final.1.graph.nodes.ids = ["n_2", "n_3", "n_5", "n_7"] ∧
      final.1.graph.validate =
        .error (.malformed (.str "g")
          [.noOutputPort "e_4" (.str "x") (.int 1), .noOutputPort "e_8" (.str "y") (.int 0)]) :=
  ⟨by decide, by decide, by rfl⟩

end Builder

end TensorGraph
