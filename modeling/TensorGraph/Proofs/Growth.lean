import TensorGraph.Build.NewNode
import TensorGraph.Proofs.Conforming
import TensorGraph.Proofs.FreshIds
import TensorGraph.Proofs.Outcome

/-!
# Graphs that grow

Whoever produces a graph adds nodes with fresh ids and leads edges with fresh ids to their input
ports, one to each port in turn. `connect_eq` says which edges these are, `makeNode_eq_ok` what a
new node looks like, and `Grows` puts the two together.

A node to which edges have been led in this way is fed from a list of ports (`FedFrom`). If all
nodes are, then every edge leads to an existing port, and what is left of validity concerns the
sources of edges and cycles only (`wellFormed_iff_of_fed`).
-/

namespace TensorGraph

/-! ### Ids of nodes and edges -/

namespace IdSource

/-- A source has issued all ids of a graph, those of its edges only once. -/
structure Accounts (ids : IdSource) (g : Graph) : Prop where
  nodes : ids.FreshFor g.nodes
  edges : ∀ e ∈ g.edges, ¬ ids.CanIssue e.id
  edgeIds_nodup : (g.edges.map Edge.id).Nodup

/-- A source still `Accounts` for a graph when ids have been issued to others. -/
theorem Accounts.mono {ids later : IdSource} {g : Graph} (h : ids.Accounts g)
    (hle : ids.issued ≤ later.issued) : later.Accounts g where
  nodes := fun id hid hissue => h.nodes id hid (hissue.mono hle)
  edges := fun e he hissue => h.edges e he (hissue.mono hle)
  edgeIds_nodup := h.edgeIds_nodup

/-- After `Graph.create` the source `Accounts` for the empty graph. -/
theorem accounts_create (name description : Label) (ids : IdSource) :
    (Graph.create name description ids).2.Accounts (Graph.create name description ids).1 where
  nodes := by simp [Graph.create, FreshFor, NodeTable.ids, NodeTable.empty]
  edges := by simp [Graph.create]
  edgeIds_nodup := by simp [Graph.create]

end IdSource

namespace Graph

/-! ### Edges led to the ports of a node -/

/-- Edges with the next ids from the given ports to the input ports of a node, starting at a port
index. -/
def feedEdges (target : String) (index : Nat) (ids : IdSource) (sources : List Endpoint) :
    List Edge :=
  sources.mapIdx fun i source =>
    ⟨IdSource.idOf "e" (ids.issued + i + 1), source, ⟨target, .int (index + i : Nat)⟩, none⟩

/-- `connect` appends `feedEdges`, and has drawn an id for each of them. -/
theorem connect_eq (g : Graph) (target : String) (index : Nat) (ids : IdSource)
    (sources : List Endpoint) :
    g.connect target index ids sources =
      ({ g with edges := g.edges ++ feedEdges target index ids sources },
        ⟨ids.issued + sources.length⟩) := by
  induction sources generalizing g index ids with
  | nil => simp [connect, feedEdges]
  | cons source rest ih =>
    -- the rest begins one port and one id further on
    have hshift : feedEdges target (index + 1) ⟨ids.issued + 1⟩ rest = rest.mapIdx fun i source =>
        ⟨IdSource.idOf "e" (ids.issued + (i + 1) + 1), source,
          ⟨target, .int (index + (i + 1) : Nat)⟩, none⟩ := by
      simp only [feedEdges, Nat.add_assoc, Nat.add_comm 1]
    rw [connect]
    simp only [IdSource.next]
    rw [ih, hshift]
    simp only [addEdge, feedEdges, List.mapIdx_cons, List.append_assoc, List.singleton_append,
      List.length_cons, Nat.add_zero, Prod.mk.injEq, IdSource.mk.injEq, true_and]
    omega

/-- `feedEdges` lead from the sources to the target, and have the next ids. -/
theorem mem_feedEdges {target : String} {index : Nat} {ids : IdSource} {sources : List Endpoint}
    {e : Edge} (he : e ∈ feedEdges target index ids sources) :
    e.target.node = target ∧ e.source ∈ sources ∧
      ∃ i < sources.length, e.id = IdSource.idOf "e" (ids.issued + i + 1) := by
  obtain ⟨i, hi, rfl⟩ := List.mem_mapIdx.mp he
  exact ⟨rfl, List.getElem_mem hi, i, hi, rfl⟩

/-- The ids of `feedEdges` are the next ones, in turn. -/
private theorem map_id_feedEdges (target : String) (index : Nat) (ids : IdSource)
    (sources : List Endpoint) :
    (feedEdges target index ids sources).map Edge.id =
      (List.range sources.length).map fun i => IdSource.idOf "e" (ids.issued + i + 1) :=
  List.ext_getElem (by simp [feedEdges]) (by simp [feedEdges])

theorem map_source_feedEdges (target : String) (index : Nat) (ids : IdSource)
    (sources : List Endpoint) : (feedEdges target index ids sources).map Edge.source = sources :=
  List.ext_getElem (by simp [feedEdges]) (by simp [feedEdges])

/-- `connect` adds no other edges than those between the given ports and a node. -/
private theorem inputEdges_connect (g : Graph) (target : String) (index : Nat) (ids : IdSource)
    (sources : List Endpoint) (id : String) :
    (g.connect target index ids sources).1.inputEdges id =
      g.inputEdges id ++ if id = target then feedEdges target index ids sources else [] := by
  rw [connect_eq]
  simp only [inputEdges, List.filter_append]
  congr 1
  split
  · rename_i hid
    -- all new edges lead to the target
    rw [List.filter_eq_self]
    intro e he
    simp [hid, (mem_feedEdges he).1]
  · rename_i hid
    -- none of them leads elsewhere
    rw [List.filter_eq_nil_iff]
    intro e he
    simp [(mem_feedEdges he).1, Ne.symm hid]

section
variable {g h : Graph} {target : String} {index : Nat} {ids later : IdSource}
  {sources : List Endpoint}

/-- `connect` leaves the edges into other nodes as they are. -/
theorem inputEdges_of_connect (hconnect : g.connect target index ids sources = (h, later))
    {id : String} (hid : id ≠ target) : h.inputEdges id = g.inputEdges id := by
  have hin := inputEdges_connect g target index ids sources id
  rw [hconnect, if_neg hid, List.append_nil] at hin
  exact hin

/-- After `connect` the source still `Accounts` for the graph: the new edges have ids of
their own. -/
theorem accounts_of_connect (hconnect : g.connect target index ids sources = (h, later))
    (hg : ids.Accounts g) : later.Accounts h := by
  rw [connect_eq] at hconnect
  cases hconnect
  have hlater : IdSource.Accounts ⟨ids.issued + sources.length⟩ g := hg.mono (Nat.le_add_right _ _)
  refine ⟨hlater.nodes, fun e he => ?_, ?_⟩
  · cases List.mem_append.mp he with
    | inl hold => exact hlater.edges e hold
    | inr hnew =>
      obtain ⟨_, _, i, hi, hid⟩ := mem_feedEdges hnew
      rw [hid]
      exact IdSource.not_canIssue_idOf "e" (by simp only; omega)
  · rw [List.map_append]
    refine List.nodup_append.mpr ⟨hg.edgeIds_nodup, ?_, ?_⟩
    · rw [map_id_feedEdges]
      refine List.nodup_range.map fun i j hij => ?_
      have hnumber := (IdSource.idOf_inj hij).2
      omega
    · -- an old id is not among those that could still be issued
      intro a ha b hb hab
      obtain ⟨old, hold, rfl⟩ := List.mem_map.mp ha
      obtain ⟨new, hnew, rfl⟩ := List.mem_map.mp hb
      obtain ⟨_, _, i, _, hid⟩ := mem_feedEdges hnew
      exact hg.edges old hold ⟨"e", ids.issued + i + 1, by omega, hab.trans hid⟩

end

/-! ### Nodes that are fed port by port -/

/-- A node has as many input ports as there are sources, a number that its kind accepts, and the
edges into it lead from the sources in turn to the ports in turn. -/
structure FedFrom (g : Graph) (n : Node) (sources : List Endpoint) : Prop where
  arity : n.op.signature.accepts sources.length = true
  ports : n.inputs.length = sources.length
  sources_eq : (g.inputEdges n.id).map Edge.source = sources
  indices_eq : (g.inputEdges n.id).map (fun e => e.target.index) =
    (List.range sources.length).map fun i => .int i

/-- `FedFrom` is a matter of the edges into a node. -/
theorem FedFrom.of_inputEdges {g h : Graph} {n : Node} {sources : List Endpoint}
    (hfed : g.FedFrom n sources) (heq : h.inputEdges n.id = g.inputEdges n.id) :
    h.FedFrom n sources :=
  ⟨hfed.arity, hfed.ports, heq ▸ hfed.sources_eq, heq ▸ hfed.indices_eq⟩

/-- A node is `FedFrom` the ports that `connect` has led to it, if there were no edges before. -/
theorem fedFrom_of_connect {g h : Graph} {n : Node} {sources : List Endpoint} {ids later : IdSource}
    (hconnect : g.connect n.id 0 ids sources = (h, later))
    (harity : n.op.signature.accepts sources.length = true)
    (hports : n.inputs.length = sources.length) (hnone : g.inputEdges n.id = []) :
    h.FedFrom n sources := by
  have hin := inputEdges_connect g n.id 0 ids sources n.id
  rw [hconnect, hnone, if_pos rfl, List.nil_append] at hin
  refine ⟨harity, hports, ?_, ?_⟩
  · rw [hin, map_source_feedEdges]
  · rw [hin]
    exact List.ext_getElem (by simp [feedEdges]) (by simp [feedEdges])

section
variable {g : Graph} {n : Node} {sources : List Endpoint}

/-- An edge into a node that is `FedFrom` sources leads to one of its ports. -/
theorem FedFrom.target_port (h : g.FedFrom n sources) {e : Edge} (he : e ∈ g.inputEdges n.id) :
    ∃ i < sources.length, e.target.index = .int i := by
  have hindex : e.target.index ∈ (g.inputEdges n.id).map (fun e => e.target.index) :=
    List.mem_map_of_mem he
  rw [h.indices_eq] at hindex
  obtain ⟨i, hi, hint⟩ := List.mem_map.mp hindex
  exact ⟨i, List.mem_range.mp hi, hint.symm⟩

/-- A node that is `FedFrom` sources is `Supplied`: one edge leads to each of its ports. -/
theorem FedFrom.supplied (h : g.FedFrom n sources) : g.Supplied n where
  arity := by
    rw [h.ports]
    exact h.arity
  fed_once := by
    intro i hi
    rw [h.ports] at hi
    -- among the indices from zero on there is one that equals `i`
    have hcount : (g.edgesInto n.id i).length =
        ((g.inputEdges n.id).map fun e => e.target.index).countP
          fun d => d.integral? = some (i : Int) := by
      rw [edgesInto_eq_filter, ← List.countP_eq_length_filter, List.countP_map]
      rfl
    have hone : (List.range sources.length).count i = 1 :=
      List.count_eq_one_of_mem List.nodup_range (List.mem_range.mpr hi)
    rw [hcount, h.indices_eq, List.countP_map, ← hone, List.count]
    apply List.countP_congr
    intro j _
    simp only [Function.comp_apply, Datum.integral?, decide_eq_true_eq, Option.some.injEq,
      beq_iff_eq]
    omega

end

/-- If every node is `FedFrom` sources, what is left of `WellFormed` is that edges come from output
ports and that there is no cycle. -/
theorem wellFormed_iff_of_fed {g : Graph} (hnodup : (g.edges.map Edge.id).Nodup)
    (htargets : ∀ e ∈ g.edges, e.target.node ∈ g.nodes.ids)
    (hfed : ∀ n ∈ g.nodes.toList, ∃ sources, g.FedFrom n sources) :
    g.WellFormed ↔
      (∀ e ∈ g.edges,
        ∃ n, g.nodes.find? e.source.node = some n ∧ IsPort e.source.index n.outputs.length) ∧
        g.Acyclic := by
  constructor
  · intro h
    exact ⟨h.source_port, h.acyclic⟩
  · intro h
    refine ⟨hnodup, h.1, fun e he => ?_, h.2⟩
    -- the target is fed port by port, so the edge leads to one of its ports
    obtain ⟨n, hn, hid⟩ := List.mem_map.mp (htargets e he)
    obtain ⟨sources, hsources⟩ := hfed n hn
    obtain ⟨i, hi, hindex⟩ := hsources.target_port (mem_inputEdges.mpr ⟨he, hid.symm⟩)
    refine ⟨n, ?_, ?_⟩
    · rw [← hid]
      exact NodeTable.find?_of_mem hn
    · rw [hindex, hsources.ports]
      exact isPort_int hi

end Graph

/-! ### New nodes -/

/-- `outputPorts` are as many as the signature of the kind says. -/
@[simp] theorem length_outputPorts (kind : OpKind) (type : Option TensorType) :
    (outputPorts kind type).length = kind.signature.outputs := by
  unfold outputPorts
  dsimp only
  split
  · rename_i hone
    simp [hone]
  · simp

/-- The type of a new node stands at all its `outputPorts`. -/
theorem type_of_mem_outputPorts {kind : OpKind} {type : Option TensorType} {port : Port}
    (h : port ∈ outputPorts kind type) : port.type = type := by
  unfold outputPorts at h
  dsimp only at h
  split at h
  · rw [List.mem_singleton.mp h]
  · obtain ⟨i, _, rfl⟩ := List.mem_map.mp h
    rfl

/-- Only a model output has no output port in its `signature`. -/
theorem outputs_pos_iff {kind : OpKind} : 0 < kind.signature.outputs ↔ kind ≠ .output := by
  cases kind <;> decide

/-- A node has been laid out for a kind, a name, a number of inputs, a type and attributes. -/
structure Node.LaidOut (n : Node) (kind : OpKind) (name : Label) (count : Nat)
    (type : Option TensorType) (attrs : Datum) : Prop where
  op_eq : n.op = kind
  name_eq : n.name = name
  arity : kind.signature.accepts count = true
  inputs_length : n.inputs.length = count
  outputs_eq : n.outputs = outputPorts kind type
  attrs_eq : ∃ entries, attributeEntries attrs = .ok entries ∧
    Attributes.ofEntries entries = .ok n.attrs

/-- `portCount` gives a node as many input ports as it is asked for, if its kind accepts that
number. -/
private theorem portCount_eq_ok {kind : OpKind} {name : Label} {count ports : Nat}
    (h : portCount kind name (.int count) = .ok ports) :
    kind.signature.accepts count = true ∧ (inputPorts kind ports).length = count := by
  simp only [portCount, Signature.acceptsCount_int] at h
  cases haccepts : kind.signature.accepts count with
  | false =>
    rw [haccepts] at h
    cases h
  | true =>
    rw [haccepts] at h
    refine ⟨rfl, ?_⟩
    by_cases hkind : kind = .output
    · -- a model output has one port, and that is the only number that it accepts
      subst hkind
      have hbounds := Signature.accepts_iff.mp haccepts
      simp only [OpKind.signature] at hbounds
      simp only [inputPorts, if_true, List.length_singleton]
      omega
    · simp only [hkind, if_false, bind, Except.bind, if_true] at h
      cases h
      simp [inputPorts, hkind]

/-- A node from `makeNode` is `LaidOut` as asked for and has the next id. -/
theorem makeNode_eq_ok {kind : OpKind} {name : Label} {count : Nat} {type : Option TensorType}
    {attrs : Datum} {ids : IdSource} {n : Node}
    (h : (makeNode kind name (.int count) type attrs ids).1 = .ok n) :
    n.LaidOut kind name count type attrs ∧ n.id = (ids.next "n").1 ∧
      (makeNode kind name (.int count) type attrs ids).2 = (ids.next "n").2 := by
  unfold makeNode at h ⊢
  cases hcount : portCount kind name (.int count) with
  | error cause =>
    rw [hcount] at h
    cases h
  | ok ports =>
    rw [hcount] at h
    obtain ⟨harity, hports⟩ := portCount_eq_ok hcount
    -- the attributes are looked at when the id has been drawn
    obtain ⟨entries, hentries, h⟩ := exists_of_bind_eq_ok h
    obtain ⟨frozen, hfrozen, h⟩ := exists_of_bind_eq_ok h
    cases h
    exact ⟨⟨rfl, rfl, harity, hports, rfl, entries, hentries, hfrozen⟩, rfl, rfl⟩

/-- `makeNode` never takes back ids that have been issued. -/
theorem issued_le_makeNode (kind : OpKind) (name : Label) (inputs : Datum)
    (type : Option TensorType) (attrs : Datum) (ids : IdSource) :
    ids.issued ≤ (makeNode kind name inputs type attrs ids).2.issued := by
  unfold makeNode
  split
  · exact Nat.le_refl _
  · exact Nat.le_succ _

/-! ### Growing by a node -/

/-- `addNode`, where it succeeds, inserts the node. -/
theorem addNode_eq_ok {g h : Graph} {n : Node} (hok : g.addNode n = .ok h) :
    h = { g with nodes := g.nodes.insert n } := by
  unfold Graph.addNode at hok
  split at hok
  · cases hok
  · cases hok
    rfl

/-- A source `Accounts` for a graph in which a node with the next id has been inserted. -/
theorem IdSource.Accounts.insert {ids : IdSource} {g : Graph} {n : Node} (h : ids.Accounts g)
    (hid : n.id = (ids.next "n").1) :
    (ids.next "n").2.Accounts { g with nodes := g.nodes.insert n } where
  nodes := by
    apply h.nodes.next
    intro id hmem
    obtain ⟨m, hm, rfl⟩ := List.mem_map.mp hmem
    -- the new node has the id just issued, and the others had theirs
    obtain rfl | ⟨hold, _⟩ := NodeTable.mem_insert.mp hm
    · exact Or.inl hid
    · exact Or.inr (List.mem_map_of_mem hold)
  edges := fun e he hissue => h.edges e he hissue.of_next
  edgeIds_nodup := h.edgeIds_nodup

namespace Graph

/-- A graph grows by a node with the next id and by edges from the given ports to its input
ports. -/
structure Grows (g : Graph) (ids : IdSource) (n : Node) (sources : List Endpoint) (h : Graph)
    (later : IdSource) : Prop where
  id_eq : n.id = (ids.next "n").1
  arity : n.op.signature.accepts sources.length = true
  ports : n.inputs.length = sources.length
  result : ({ g with nodes := g.nodes.insert n } : Graph).connect n.id 0 (ids.next "n").2 sources =
    (h, later)

/-- A graph whose nodes are all fed port by port, with ids that a source has issued. -/
structure Produced (g : Graph) (ids : IdSource) : Prop where
  accounts : ids.Accounts g
  targets : ∀ e ∈ g.edges, e.target.node ∈ g.nodes.ids
  fed : ∀ n ∈ g.nodes.toList, ∃ sources, g.FedFrom n sources

/-- What `create` returns is `Produced`. -/
theorem produced_create (name description : Label) (ids : IdSource) :
    (create name description ids).1.Produced (create name description ids).2 where
  accounts := IdSource.accounts_create name description ids
  targets := by simp [create]
  fed := by simp [create, NodeTable.empty]

theorem Produced.mono {g : Graph} {ids later : IdSource} (h : g.Produced ids)
    (hle : ids.issued ≤ later.issued) : g.Produced later :=
  ⟨h.accounts.mono hle, h.targets, h.fed⟩

section
variable {g h : Graph} {ids later : IdSource} {n : Node} {sources : List Endpoint}

/-- A graph that `Grows` gets one node and its `feedEdges`. -/
theorem Grows.graph_eq (hgrows : g.Grows ids n sources h later) :
    h = { g with
      nodes := g.nodes.insert n
      edges := g.edges ++ feedEdges n.id 0 (ids.next "n").2 sources } := by
  have hresult := congrArg Prod.fst hgrows.result
  rw [connect_eq] at hresult
  exact hresult.symm

/-- When a graph `Grows`, the new node comes last. -/
theorem Grows.toList_nodes (hgrows : g.Grows ids n sources h later)
    (hfresh : ids.FreshFor g.nodes) :
    h.nodes.toList = g.nodes.toList ++ [n] := by
  rw [hgrows.graph_eq]
  apply NodeTable.toList_insert
  rw [hgrows.id_eq]
  exact hfresh.next_not_mem "n"

theorem Grows.ids_nodes (hgrows : g.Grows ids n sources h later) (hfresh : ids.FreshFor g.nodes) :
    h.nodes.ids = g.nodes.ids ++ [n.id] := by
  simp [NodeTable.ids, hgrows.toList_nodes hfresh]

/-- When a graph `Grows`, the edges into a node that has been there before stay the same. -/
theorem Grows.inputEdges_old (hgrows : g.Grows ids n sources h later)
    (hfresh : ids.FreshFor g.nodes) {id : String} (hid : id ∈ g.nodes.ids) :
    h.inputEdges id = g.inputEdges id := by
  have hne : id ≠ n.id := by
    intro heq
    rw [heq, hgrows.id_eq] at hid
    exact hfresh.next_not_mem "n" hid
  exact inputEdges_of_connect hgrows.result hne

/-- When a graph `Grows`, the new node is `FedFrom` the given ports, since no edge has led to its id
before. -/
theorem Grows.fedFrom_new (hgrows : g.Grows ids n sources h later) (hg : g.Produced ids) :
    h.FedFrom n sources := by
  -- nothing has led to the new id before
  have hnone : g.inputEdges n.id = [] := by
    rw [List.eq_nil_iff_forall_not_mem]
    intro e he
    obtain ⟨hmem, htarget⟩ := mem_inputEdges.mp he
    have hold := hg.targets e hmem
    rw [htarget, hgrows.id_eq] at hold
    exact hg.accounts.nodes.next_not_mem "n" hold
  exact fedFrom_of_connect hgrows.result hgrows.arity hgrows.ports hnone

theorem Grows.accounts (hgrows : g.Grows ids n sources h later) (hg : ids.Accounts g) :
    later.Accounts h :=
  accounts_of_connect hgrows.result (hg.insert hgrows.id_eq)

/-- A graph that `Grows` stays `Produced`. -/
theorem Produced.grow (hg : g.Produced ids) (hgrows : g.Grows ids n sources h later) :
    h.Produced later := by
  have hfresh := hg.accounts.nodes
  refine ⟨hgrows.accounts hg.accounts, fun e he => ?_, fun m hm => ?_⟩
  · -- an old edge leads to an old node, a new one to the new node
    rw [hgrows.ids_nodes hfresh, List.mem_append]
    rw [hgrows.graph_eq] at he
    replace he := List.mem_append.mp he
    cases he with
    | inl hold => exact Or.inl (hg.targets e hold)
    | inr hnew => exact Or.inr (by simp [(mem_feedEdges hnew).1])
  · -- what an old node is fed from has not changed
    rw [hgrows.toList_nodes hfresh, List.mem_append] at hm
    cases hm with
    | inl hold =>
      obtain ⟨refs, hfed⟩ := hg.fed m hold
      exact ⟨refs, hfed.of_inputEdges (hgrows.inputEdges_old hfresh (List.mem_map_of_mem hold))⟩
    | inr hnew =>
      rw [List.mem_singleton.mp hnew]
      exact ⟨sources, hgrows.fedFrom_new hg⟩

end

end Graph

end TensorGraph
