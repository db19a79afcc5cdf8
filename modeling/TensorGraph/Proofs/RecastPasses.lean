import TensorGraph.Proofs.Folding
import TensorGraph.Proofs.Fusion
import TensorGraph.Proofs.Recasting
import TensorGraph.Transform.Liveness
import TensorGraph.Transform.Typing

/-!
# Transformations under other ids and with other remarks

What a transformation does to a recast graph is what it does to the graph, recast. Typing and
dropping dead nodes leave annotations alone, so the same recasting will do
(`Recasting.inferTypes_graph`, `Recasting.dropDead_graph`). One fold or fusion brings in a node with
annotations of its own, and the recasting has to keep these (`Recasting.foldNode_graph`,
`Recasting.fuseChain_graph`).
-/

namespace TensorGraph.Recasting

variable (M : Recasting) {g : Graph}

/-! ### Typing -/

/-- Types and nodes found so far, under other ids. -/
def typing (s : Typing) : Typing := ⟨s.types.rekey M.ids fun type => type, M.table s.nodes⟩

private theorem feeder_graph (id : String) (index : Nat) :
    Typing.feeder (M.graph g) (M.ids id) index = (Typing.feeder g id index).map M.ids := by
  simp only [Typing.feeder, inputEdges_graph, List.find?_map, Option.map_map]
  rfl

/-- By `reaching` the same types reach a node. -/
private theorem reaching_graph (types : Dict TensorType) (n : Node) :
    Typing.reaching (M.graph g) (types.rekey M.ids fun type => type) (M.node n) =
      Typing.reaching g types n := by
  apply List.map_congr_left
  intro i _
  rw [id_node, feeder_graph]
  cases Typing.feeder g n.id i with
  | none => rfl
  | some source => simp

/-- `Typing.step` does the same under other ids and with other remarks. -/
private theorem step_graph (s : Typing) (n : Node) :
    Typing.step (M.graph g) (M.typing s) (M.node n) = (Typing.step g s n).map M.typing := by
  have hkeys : ((M.graph g).inputEdges (M.node n).id).forM (fun e => e.target.index.checkKey) =
      (g.inputEdges n.id).forM fun e => e.target.index.checkKey := by
    rw [id_node, inputEdges_graph]
    exact List.forM_map
  have hreaching : Typing.reaching (M.graph g) (M.typing s).types (M.node n) =
      Typing.reaching g s.types n := M.reaching_graph s.types n
  unfold Typing.step
  rw [hkeys, hreaching]
  cases (g.inputEdges n.id).forM fun e => e.target.index.checkKey with
  | error cause => rfl
  | ok _ =>
    -- the formula of a node looks at its kind, ports and attributes
    rw [show (M.node n).infer = n.infer from rfl]
    show (n.infer _ >>= _) = Except.map _ (n.infer _ >>= _)
    cases n.infer (Typing.reaching g s.types n) with
    | error cause => rfl
    | ok out =>
      cases out with
      | none =>
        have hnodes := M.replace_table s.nodes
          { n with inputs := List.zipWith Typing.retype n.inputs (Typing.reaching g s.types n) }
        exact congrArg (fun nodes => Except.ok (Typing.mk (M.typing s).types nodes)) hnodes
      | some out =>
        have hnodes := M.replace_table s.nodes
          { n with
            inputs := List.zipWith Typing.retype n.inputs (Typing.reaching g s.types n)
            outputs := n.outputs.map (·.withType (some out)) }
        have htypes := Dict.rekey_set M.ids (fun type => type) s.types n.id out
        exact congrArg₂ (fun types nodes => Except.ok (Typing.mk types nodes)) htypes.symm hnodes

/-- `Typing.run` does the same under other ids and with other remarks. -/
private theorem run_graph (s : Typing) (order : List Node) :
    Typing.run (M.graph g) (M.typing s) (order.map M.node) =
      (Typing.run g s order).map M.typing := by
  induction order generalizing s with
  | nil => rfl
  | cons n rest ih =>
    rw [List.map_cons, Typing.run, Typing.run, step_graph]
    cases Typing.step g s n with
    | error cause => rfl
    | ok next => exact ih next

/-- `retypeEdge` gives an edge the same type under other ids. -/
private theorem retypeEdge_rename (types : Dict TensorType) (e : Edge) :
    Typing.retypeEdge (types.rekey M.ids fun type => type) (e.rename M.ids) =
      (Typing.retypeEdge types e).rename M.ids := by
  unfold Typing.retypeEdge
  rw [Edge.source_rename, Dict.get?_rekey]
  cases types.get? e.source.node <;> rfl

/-- `inferTypes` does the same under other ids and with other remarks. -/
theorem inferTypes_graph (g : Graph) : (M.graph g).inferTypes = g.inferTypes.map M.graph := by
  -- typing goes through the nodes in the same order
  have hrun := M.run_graph (g := g) ⟨Dict.empty, g.nodes⟩ g.topologicalOrder
  unfold Graph.inferTypes
  rw [topologicalOrder_graph]
  show (Typing.run (M.graph g) (M.typing ⟨Dict.empty, g.nodes⟩) _ >>= _) = _
  rw [hrun]
  cases Typing.run g ⟨Dict.empty, g.nodes⟩ g.topologicalOrder with
  | error cause => rfl
  | ok s =>
    -- edges take the types of the same nodes
    have hedges : (g.edges.map (Edge.rename M.ids)).map (Typing.retypeEdge (M.typing s).types) =
        (g.edges.map (Typing.retypeEdge s.types)).map (Edge.rename M.ids) := by
      rw [List.map_map, List.map_map]
      exact List.map_congr_left fun e _ => M.retypeEdge_rename s.types e
    exact congrArg (fun edges => Except.ok
      ({ M.graph g with nodes := M.table s.nodes, edges := edges } : Graph)) hedges

/-! ### Dropping dead nodes -/

private theorem outputIds_graph (g : Graph) : (M.graph g).outputIds = g.outputIds.map M.ids := by
  simp only [Graph.outputIds, graph, toList_table, List.filter_map, List.map_map]
  rfl

/-- `dropDead` does the same under other ids and with other remarks. -/
theorem dropDead_graph (g : Graph) : (M.graph g).dropDead = M.graph g.dropDead := by
  -- the nodes reached from the outputs are the same
  have hnodes : (M.table g.nodes).filter
      (fun n => ((M.graph g).reachedFrom (M.graph g).outputIds).contains n.id) =
        M.table (g.nodes.filter fun n => (g.reachedFrom g.outputIds).contains n.id) := by
    apply filter_table
    intro n _
    rw [outputIds_graph, reachedFrom_graph]
    exact M.contains_map _ n.id
  unfold Graph.dropDead
  simp only [graph, List.filter_map] at hnodes ⊢
  rw [hnodes]
  -- edges stay if both ends do
  congr 2
  apply List.filter_congr
  intro e _
  simp [Edge.rename]

/-! ### Folding -/

/-- `isConstant` holds of the same nodes. -/
private theorem isConstant_graph (id : String) :
    (M.graph g).isConstant (M.ids id) = g.isConstant id := by
  unfold Graph.isConstant
  rw [nodes_graph, find?_table]
  cases g.nodes.find? id <;> rfl

/-- `canFold` holds of the same nodes. -/
private theorem canFold_graph (n : Node) : (M.graph g).canFold (M.node n) = g.canFold n := by
  unfold Graph.canFold
  rw [id_node, inputEdges_graph, List.all_map, List.isEmpty_map]
  congr 2
  funext e
  exact M.isConstant_graph e.source.node

/-- The first node with `canFold` is the same one. -/
theorem find?_canFold_graph (g : Graph) :
    (M.graph g).nodes.toList.find? (M.graph g).canFold =
      (g.nodes.toList.find? g.canFold).map M.node := by
  rw [nodes_graph, toList_table, List.find?_map]
  congr 2
  funext n
  exact M.canFold_graph n

/-- The constant of `replaceByConstant` comes in with its own remark, and nothing else changes. -/
private theorem replaceByConstant_graph (g : Graph) (n : Node) (id : String) :
    (M.graph g).replaceByConstant (M.node n) (M.ids id) =
      (M.noting id (Graph.foldedConstant n id).annotations).graph (g.replaceByConstant n id) := by
  have hothers : (M.table g.nodes).filter (·.id != (M.node n).id) =
      M.table (g.nodes.filter (·.id != n.id)) := by
    apply filter_table
    intro m _
    simp [node, bne]
  have hinsert := M.insert_table (g.nodes.filter (·.id != n.id)) (Graph.foldedConstant n id)
  unfold Graph.replaceByConstant
  simp only [graph, List.filter_map, List.map_map]
  congr 1
  -- the constant is a newcomer to the table of the other nodes
  · rw [hothers]
    exact hinsert
  · have htarget : (fun e : Edge => e.target.node != (M.node n).id) ∘ Edge.rename M.ids =
        fun e => e.target.node != n.id := by
      funext e
      simp [Edge.rename, node, bne]
    rw [htarget]
    apply List.map_congr_left
    intro e _
    by_cases hsource : e.source.node = n.id
    · simp [Edge.rename, node, hsource, Edge.withSource, noting]
    · simp [Edge.rename, node, hsource, noting]

/-- The same constants are among the `orphanIds`. -/
private theorem orphanIds_graph (g : Graph) (spared : String) :
    (M.graph g).orphanIds (M.ids spared) = (g.orphanIds spared).map M.ids := by
  have hused : (M.graph g).edges.map (fun e => e.source.node) =
      (g.edges.map fun e => e.source.node).map M.ids := by
    simp [graph, Edge.rename]
  unfold Graph.orphanIds
  rw [hused]
  -- the sources of edges are the same, and now no longer of interest
  generalize g.edges.map (fun e => e.source.node) = used
  simp only [graph, toList_table, List.filter_map, List.map_map]
  congr 1
  apply List.filter_congr
  intro n _
  simp only [Function.comp_apply, id_node, contains_map]
  simp [node, bne]

/-- `dropOrphans` does the same under other ids and with other remarks. -/
private theorem dropOrphans_graph (g : Graph) (spared : String) :
    (M.graph g).dropOrphans (M.ids spared) = M.graph (g.dropOrphans spared) := by
  have hnodes : (M.table g.nodes).filter
      (fun n => !((M.graph g).orphanIds (M.ids spared)).contains n.id) =
        M.table (g.nodes.filter fun n => !(g.orphanIds spared).contains n.id) := by
    apply filter_table
    intro n _
    rw [orphanIds_graph, id_node, contains_map]
  -- an edge is dropped with either end
  have hedges : (g.edges.map (Edge.rename M.ids)).filter (fun e =>
      !((M.graph g).orphanIds (M.ids spared)).contains e.source.node &&
        !((M.graph g).orphanIds (M.ids spared)).contains e.target.node) =
      (g.edges.filter fun e => !(g.orphanIds spared).contains e.source.node &&
        !(g.orphanIds spared).contains e.target.node).map (Edge.rename M.ids) := by
    rw [List.filter_map]
    congr 1
    apply List.filter_congr
    intro e _
    simp only [Function.comp_apply, Edge.rename, orphanIds_graph, contains_map]
  exact congrArg₂ (fun nodes edges => ({ M.graph g with nodes := nodes, edges := edges } : Graph))
    hnodes hedges

/-- `foldNode` does the same under other ids, if it is given the other id for its constant. -/
theorem foldNode_graph (g : Graph) (n : Node) {s t : IdSource}
    (hnext : (t.next "const").1 = M.ids (s.next "const").1) :
    ((M.graph g).foldNode (M.node n) t).1 =
      (M.noting (s.next "const").1 (Graph.foldedConstant n (s.next "const").1).annotations).graph
        (g.foldNode n s).1 := by
  show ((M.graph g).replaceByConstant (M.node n) (t.next "const").1).dropOrphans
    (t.next "const").1 = _
  rw [hnext, replaceByConstant_graph]
  exact dropOrphans_graph _ _ _

/-! ### Fusing -/

/-- `nextInChain` is the same node, under its other id. -/
private theorem nextInChain_graph (id : String) :
    (M.graph g).nextInChain (M.ids id) = (g.nextInChain id).map M.ids := by
  unfold Graph.nextInChain
  rw [outputEdges_graph]
  cases g.outputEdges id with
  | nil => rfl
  | cons e rest =>
    cases rest with
    | cons _ _ =>
      -- more than one edge goes out, so the chain ends here
      rfl
    | nil =>
      have hlinks : ((M.graph g).inputEdges (M.ids e.target.node)).filter
          (fun link => link.source.node = M.ids id) =
            ((g.inputEdges e.target.node).filter fun link => link.source.node = id).map
              (Edge.rename M.ids) := by
        rw [inputEdges_graph, List.filter_map]
        congr 1
        apply List.filter_congr
        intro link _
        simp [Edge.rename]
      have hcontains : (M.graph g).nodes.contains (M.ids e.target.node) =
          g.nodes.contains e.target.node := M.contains_table g.nodes _
      simp only [List.map_cons, List.map_nil]
      rw [Edge.target_rename, hlinks, hcontains, List.length_map]
      split <;> rfl

/-- `findChain` finds the same chain. -/
private theorem findChain_graph (id : String) (ops : List OpKind) :
    (M.graph g).findChain (M.ids id) ops = (g.findChain id ops).map (List.map M.node) := by
  induction ops generalizing id with
  | nil => rfl
  | cons kind rest ih =>
    rw [Graph.findChain, Graph.findChain, nodes_graph, find?_table]
    cases g.nodes.find? id with
    | none => rfl
    | some n =>
      simp only [Option.map_some, op_node, nextInChain_graph]
      split
      · -- the node is of another kind
        rfl
      · split
        · -- the pattern ends here
          rfl
        · cases g.nextInChain id with
          | none => rfl
          | some next =>
            simp only [Option.map_some, ih, Option.map_map]
            rfl

/-- `matchPattern` finds the same chain, at the same place. -/
private theorem matchPattern_graph (pattern : FusionPattern) :
    (M.graph g).matchPattern pattern =
      (g.matchPattern pattern).map (Option.map (List.map M.node)) := by
  unfold Graph.matchPattern
  cases pattern.ops with
  | nil =>
    -- an empty pattern fails, unless there are no nodes
    show (if ((M.graph g).nodes.toList).isEmpty = true then _ else _) =
      Except.map _ (if _ then _ else _)
    rw [nodes_graph, toList_table, List.isEmpty_map]
    split <;> rfl
  | cons kind rest =>
    -- the first node where a chain begins is the same
    show Except.ok _ = Except.ok _
    rw [nodes_graph, toList_table, List.findSome?_map, List.map_findSome?]
    congr 2
    funext n
    simp only [Function.comp_apply, op_node, id_node, findChain_graph]
    split <;> rfl

/-- A match, with the chain under its other ids. -/
def found (m : FusionPattern × List Node) : FusionPattern × List Node := (m.1, m.2.map M.node)

/-- By `firstMatch` the same pattern matches first, at the same place. -/
theorem firstMatch_graph (patterns : List FusionPattern) :
    (M.graph g).firstMatch patterns = (g.firstMatch patterns).map (Option.map M.found) := by
  induction patterns with
  | nil => rfl
  | cons pattern rest ih =>
    rw [Graph.firstMatch, Graph.firstMatch, matchPattern_graph]
    cases g.matchPattern pattern with
    | error cause => rfl
    | ok chain =>
      cases chain with
      | none =>
        -- the next pattern is tried
        exact ih
      | some chain => rfl

private theorem edgeRole_rename (chain : List String) (first last : String) (e : Edge) :
    Graph.edgeRole (chain.map M.ids) (M.ids first) (M.ids last) (e.rename M.ids) =
      Graph.edgeRole chain first last e := by
  simp only [Graph.edgeRole, Edge.rename, contains_map, EmbeddingLike.apply_eq_iff_eq]

/-- The `sidePort` of an edge into a node of the graph is the same. -/
private theorem sidePort_graph {e : Edge} (he : e.target.node ∈ g.nodes.ids) :
    (M.graph g).sidePort (e.rename M.ids) = g.sidePort e := by
  obtain ⟨owner, howner⟩ := NodeTable.mem_ids_iff.mp he
  -- the edge leads to the same node
  have howner' : (M.graph g).nodes.find? (e.rename M.ids).target.node = some (M.node owner) := by
    show (M.table g.nodes).find? (M.ids e.target.node) = _
    rw [find?_table, howner]
    rfl
  unfold Graph.sidePort Graph.node
  rw [howner, howner']
  rfl

/-- What is left of the edges when a chain is contracted, under other ids. -/
def contraction (c : Graph.Contraction) : Graph.Contraction :=
  ⟨c.inputs, c.edges.map (Edge.rename M.ids)⟩

/-- `contractEdges` does the same under other ids. -/
private theorem contractEdges_graph {chain : List String} (hchain : ∀ id ∈ chain, id ∈ g.nodes.ids)
    (first last fused : String) (inputs : List Port) (es : List Edge) :
    (M.graph g).contractEdges (chain.map M.ids) (M.ids first) (M.ids last) (M.ids fused) inputs
        (es.map (Edge.rename M.ids)) =
      (g.contractEdges chain first last fused inputs es).map M.contraction := by
  -- every edge is moved in the same way, so it can be put before what is left of the others
  have hcons : ∀ (x : Except Error Graph.Contraction) (e e' : Edge), e' = e.rename M.ids →
      (x.map M.contraction).map (.cons e') = (x.map (.cons e)).map M.contraction := by
    intro x e e' he
    subst he
    cases x <;> rfl
  induction es generalizing inputs with
  | nil => rfl
  | cons e rest ih =>
    rw [List.map_cons, Graph.contractEdges, Graph.contractEdges, edgeRole_rename]
    cases hrole : Graph.edgeRole chain first last e with
    | inner => exact ih inputs
    | outside =>
      simp only [ih]
      exact hcons _ _ _ rfl
    | entry =>
      simp only [ih]
      exact hcons _ _ _ rfl
    | exit =>
      simp only [ih]
      exact hcons _ _ _ rfl
    | side =>
      simp only [M.sidePort_graph (hchain _ (Graph.edgeRole_eq_side_iff.mp hrole).2.1)]
      cases g.sidePort e with
      | error cause => rfl
      | ok port =>
        simp only [ih]
        exact hcons _ _ _ rfl

/-- The `fusedName` of a chain is made of names, which do not change. -/
private theorem fusedName_map (chain : List Node) :
    Graph.fusedName (chain.map M.node) = Graph.fusedName chain := by
  unfold Graph.fusedName
  rw [List.mapM_map]
  rfl

/-- The annotations of a node that comes in for a chain. -/
def fusedRemarks (chain : List Node) (pattern : FusionPattern) : Dict Annotation :=
  ⟨[("fused_from", .fusedFrom (chain.map Node.origin)), ("pattern", .note pattern.name)]⟩

/-- `contract` does the same under other ids, and the node that comes in has its own remarks. -/
private theorem contract_graph {chain : List Node} (hchain : ∀ n ∈ chain, n ∈ g.nodes.toList)
    (first last : Node) (pattern : FusionPattern) (id : String) :
    (M.graph g).contract (chain.map M.node) (M.node first) (M.node last) pattern (M.ids id) =
      (g.contract chain first last pattern id).map
        (M.noting id (fusedRemarks chain pattern)).graph := by
  have hids : (chain.map M.node).map Node.id = (chain.map Node.id).map M.ids := by simp [node]
  have hmem : ∀ key ∈ chain.map Node.id, key ∈ g.nodes.ids := by
    intro key hkey
    obtain ⟨n, hn, rfl⟩ := List.mem_map.mp hkey
    exact List.mem_map_of_mem (hchain n hn)
  have hedges : (M.graph g).contractEdges ((chain.map Node.id).map M.ids) (M.node first).id
      (M.node last).id (M.ids id) (M.node first).inputs (M.graph g).edges =
        (g.contractEdges (chain.map Node.id) first.id last.id id first.inputs g.edges).map
          M.contraction := M.contractEdges_graph hmem first.id last.id id first.inputs g.edges
  have hothers : (M.table g.nodes).filter
      (fun n => !((chain.map Node.id).map M.ids).contains n.id) =
        M.table (g.nodes.filter fun n => !(chain.map Node.id).contains n.id) := by
    apply filter_table
    intro n _
    rw [id_node, contains_map]
  -- the fused node is a newcomer, for it names its parts by name and kind and not by id
  have hnew : ∀ name inputs, Graph.fusedNode (chain.map M.node) (M.node first) (M.node last) pattern
      (M.ids id) name inputs =
        M.newcomer (Graph.fusedNode chain first last pattern id name inputs) := by
    intro name inputs
    have horigins : (chain.map M.node).map Node.origin = chain.map Node.origin := by
      simp [node, Node.origin]
    simp only [Graph.fusedNode, horigins]
    rfl
  unfold Graph.contract
  simp only [hids, hedges]
  cases g.contractEdges (chain.map Node.id) first.id last.id id first.inputs g.edges with
  | error cause => rfl
  | ok c =>
    simp only [Except.map, fusedName_map]
    cases Graph.fusedName chain with
    | error cause => rfl
    | ok name =>
      have hinsert := M.insert_table (g.nodes.filter fun n => !(chain.map Node.id).contains n.id)
        (Graph.fusedNode chain first last pattern id name c.inputs)
      rw [← hothers, ← hnew] at hinsert
      exact congrArg (fun nodes => Except.ok
        ({ M.graph g with nodes := nodes, edges := c.edges.map (Edge.rename M.ids) } : Graph))
        hinsert

/-- `fuseChain` does the same under other ids, if it is given the other id for its node. -/
theorem fuseChain_graph {chain : List Node} (hchain : ∀ n ∈ chain, n ∈ g.nodes.toList)
    (pattern : FusionPattern) {s t : IdSource}
    (hnext : (t.next "fused").1 = M.ids (s.next "fused").1) :
    ((M.graph g).fuseChain (chain.map M.node) pattern t).1 =
      (g.fuseChain chain pattern s).1.map
        (M.noting (s.next "fused").1 (fusedRemarks chain pattern)).graph := by
  unfold Graph.fuseChain
  rw [List.head?_map, List.getLast?_map]
  cases chain.head? with
  | none => rfl
  | some first =>
    cases chain.getLast? with
    | none => rfl
    | some last =>
      -- the new nodes get ids that correspond
      show (M.graph g).contract (chain.map M.node) (M.node first) (M.node last) pattern
        (t.next "fused").1 = _
      rw [hnext]
      exact M.contract_graph hchain first last pattern _

end TensorGraph.Recasting
