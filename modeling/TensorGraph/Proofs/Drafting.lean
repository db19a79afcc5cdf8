import TensorGraph.Proofs.Blueprint

/-!
# From model descriptions to graphs

A graph is made from a model description in three stages. First the nodes of the definitions are
made, and a table leads from their names to their ids (`Draft.Sound.defineAll`); then edges are led
to their ports, by way of the table (`Draft.wires_of_connectAll`); last come the model outputs, one
node and one edge each (`Draft.adds_of_addOutputs`). In the end the graph realises what the
description says (`Draft.exists_realised`), and the description can be read off it, as far as ports
carry its types and if the number of definitions is known (`Graph.ofModel_realises`). More cannot be
read off (`Graph.ofModel_not_injective`).
-/

namespace TensorGraph

namespace Draft

/-! ### Nodes of definitions -/

/-- A definition has been read from a piece of data. -/
def Reads (d : Datum) (definition : Definition) : Prop :=
  d.requiredField "name" = .ok definition.given ∧
    Definition.ofDatum definition.given d = .ok definition

/-- A node has been made for a definition. -/
def Makes (definition : Definition) (n : Node) : Prop :=
  n.LaidOut definition.kind (.str definition.given.toName) definition.inputs.length definition.type
    definition.attrs

/-- A table leads from the names of nodes to their ids. -/
def Locates (names : Dict String) (nodes : List Node) : Prop :=
  ∀ name id, names.get? name = some id ↔ ∃ n ∈ nodes, n.name = .str name ∧ n.id = id

/-- The nodes of a draft are those of its definitions, no two have the same name, and the table
leads from names to ids. -/
structure Sound (draft : Draft) (ids : IdSource) : Prop where
  accounts : ids.Accounts draft.graph
  edges_eq : draft.graph.edges = []
  nodes : List.Forall₂ Makes draft.definitions draft.graph.nodes.toList
  names_nodup : (draft.graph.nodes.toList.map Node.name).Nodup
  names : Locates draft.names draft.graph.nodes.toList

/-- A draft with a new graph is `Sound`. -/
private theorem sound_create (name description : Label) (ids : IdSource) :
    (Draft.mk (Graph.create name description ids).1 Dict.empty []).Sound
      (Graph.create name description ids).2 where
  accounts := IdSource.accounts_create name description ids
  edges_eq := rfl
  nodes := .nil
  names_nodup := List.nodup_nil
  names := by simp [Locates, Graph.create, NodeTable.empty]

section
variable {names : Dict String} {nodes : List Node} {key : String}

/-- If a table `Locates` nodes, none of them has a name that is not in it. -/
private theorem Locates.name_ne (h : Locates names nodes) (hnew : names.get? key = none) :
    ∀ m ∈ nodes, m.name ≠ .str key := by
  intro m hm hname
  have hfound := (h key m.id).mpr ⟨m, hm, hname, rfl⟩
  rw [hnew] at hfound
  cases hfound

/-- A table with a new name set still `Locates` the nodes when one with that name is added. -/
theorem Locates.set (h : Locates names nodes) (hnew : names.get? key = none) {n : Node}
    (hn : n.name = .str key) : Locates (names.set key n.id) (nodes ++ [n]) := by
  intro name id
  rw [Dict.get?_set]
  by_cases hkey : name = key
  · -- the table had no entry for this name, so only the new node has it
    rw [if_pos hkey, hkey]
    constructor
    · intro hsome
      exact ⟨n, by simp, hn, Option.some.inj hsome⟩
    · intro hfound
      obtain ⟨m, hm, hname, rfl⟩ := hfound
      cases List.mem_append.mp hm with
      | inl hold => exact absurd hname (h.name_ne hnew m hold)
      | inr hlast => rw [List.mem_singleton.mp hlast]
  · rw [if_neg hkey, h name id]
    constructor
    · intro hfound
      obtain ⟨m, hm, hnamed⟩ := hfound
      exact ⟨m, List.mem_append_left _ hm, hnamed⟩
    · intro hfound
      obtain ⟨m, hm, hname, hid⟩ := hfound
      cases List.mem_append.mp hm with
      | inl hold => exact ⟨m, hold, hname, hid⟩
      | inr hlast =>
        rw [List.mem_singleton.mp hlast, hn] at hname
        exact absurd (Datum.str.inj hname).symm hkey

end

/-- `readDefinition` reads a definition whose name is new. -/
private theorem reads_of_readDefinition {draft : Draft} {d : Datum} {definition : Definition}
    (h : draft.readDefinition d = .ok definition) :
    Reads d definition ∧ draft.names.get? definition.given.toName = none := by
  obtain ⟨given, hgiven, h⟩ := exists_of_bind_eq_ok h
  dsimp only at h
  split at h
  · cases h
  · rename_i hnew
    cases (Blueprint.ofDatum_fields h).1
    exact ⟨⟨hgiven, h⟩, Option.not_isSome_iff_eq_none.mp hnew⟩

/-- `define`, where it succeeds, inserts a node with the next id that is made for the definition,
and sets its name in the table. -/
private theorem define_eq_ok {draft next : Draft} {d : Datum} {ids later : IdSource}
    (h : draft.define d ids = (.ok next, later)) :
    ∃ definition n, Reads d definition ∧ draft.names.get? definition.given.toName = none ∧
      Makes definition n ∧ n.id = (ids.next "n").1 ∧ later = (ids.next "n").2 ∧
      next = ⟨{ draft.graph with nodes := draft.graph.nodes.insert n },
        draft.names.set definition.given.toName n.id, draft.definitions ++ [definition]⟩ := by
  unfold define at h
  cases hread : draft.readDefinition d with
  | error cause =>
    rw [hread] at h
    cases h
  | ok definition =>
    rw [hread] at h
    -- the definition has been read, so its name is new
    obtain ⟨hreads, hnew⟩ := reads_of_readDefinition hread
    dsimp only at h
    obtain ⟨hnext, hlater⟩ := Prod.mk.inj h
    -- what is left can fail in two places, and has not
    obtain ⟨n, hmade, hnext⟩ := exists_of_bind_eq_ok hnext
    obtain ⟨g, hadd, hnext⟩ := exists_of_bind_eq_ok hnext
    obtain ⟨hlaid, hid, hids⟩ := makeNode_eq_ok hmade
    cases hnext
    refine ⟨definition, n, hreads, hnew, hlaid, hid, hlater.symm.trans hids, ?_⟩
    rw [addNode_eq_ok hadd]

/-- `define` keeps a draft `Sound`. -/
theorem Sound.define {draft next : Draft} {d : Datum} {ids later : IdSource} (hs : draft.Sound ids)
    (h : draft.define d ids = (.ok next, later)) : next.Sound later := by
  obtain ⟨definition, n, _, hnew, hmakes, hid, rfl, rfl⟩ := define_eq_ok h
  -- its id has not been in use, so the new node comes last
  have hnodes : (draft.graph.nodes.insert n).toList = draft.graph.nodes.toList ++ [n] := by
    apply NodeTable.toList_insert
    rw [hid]
    exact hs.accounts.nodes.next_not_mem "n"
  constructor
  · exact hs.accounts.insert hid
  · exact hs.edges_eq
  · show List.Forall₂ Makes (draft.definitions ++ [definition]) (draft.graph.nodes.insert n).toList
    rw [hnodes]
    exact List.rel_append hs.nodes (.cons hmakes .nil)
  · -- a node with the name of an earlier one would have been found in the table
    show ((draft.graph.nodes.insert n).toList.map Node.name).Nodup
    rw [hnodes, List.map_append, List.map_cons, List.map_nil, hmakes.name_eq]
    refine List.nodup_append.mpr ⟨hs.names_nodup, by simp, ?_⟩
    intro a ha b hb hab
    obtain ⟨m, hm, rfl⟩ := List.mem_map.mp ha
    rw [List.mem_singleton.mp hb] at hab
    exact hs.names.name_ne hnew m hm hab
  · show Locates (draft.names.set definition.given.toName n.id) (draft.graph.nodes.insert n).toList
    rw [hnodes]
    exact hs.names.set hnew hmakes.name_eq

/-- `defineAll` keeps a draft `Sound`: definitions in turn give their nodes in turn. -/
theorem Sound.defineAll {draft last : Draft} {ds : List Datum} {ids later : IdSource}
    (hs : draft.Sound ids) (h : draft.defineAll ids ds = (.ok last, later)) :
    last.Sound later ∧ last.graph.metadata = draft.graph.metadata ∧
      ∃ made, last.definitions = draft.definitions ++ made ∧ List.Forall₂ Reads ds made := by
  induction ds generalizing draft ids with
  | nil =>
    cases h
    exact ⟨hs, rfl, [], by simp, .nil⟩
  | cons d rest ih =>
    rw [Draft.defineAll] at h
    split at h
    · -- the definition has failed
      cases h
    · rename_i next between hdefine
      -- what one definition adds comes before what the rest adds
      obtain ⟨hsound, hmetadata, made, hmade, hreads⟩ := ih (hs.define hdefine) h
      obtain ⟨definition, n, hread, _, _, _, _, rfl⟩ := define_eq_ok hdefine
      refine ⟨hsound, hmetadata, definition :: made, ?_, .cons hread hreads⟩
      rw [hmade, List.append_assoc, List.singleton_append]

/-! ### Edges -/

/-- A reference leads to the first output of the node whose id the table has for it. -/
def Leads (names : Dict String) (reference : Datum) (source : Endpoint) : Prop :=
  ∃ name id, reference = .str name ∧ names.get? name = some id ∧ source = ⟨id, .int 0⟩

/-- A node of a graph has been made for a definition and is fed from where the definition's inputs
lead. -/
def Wired (names : Dict String) (g : Graph) (definition : Definition) (n : Node) : Prop :=
  Makes definition n ∧ ∃ sources, List.Forall₂ (Leads names) definition.inputs sources ∧
    g.FedFrom n sources

/-- A node stays `Wired` if the edges into it stay. -/
theorem Wired.of_inputEdges {names : Dict String} {g h : Graph} {definition : Definition} {n : Node}
    (hw : Wired names g definition n) (heq : h.inputEdges n.id = g.inputEdges n.id) :
    Wired names h definition n := by
  obtain ⟨hmakes, sources, hleads, hfed⟩ := hw
  exact ⟨hmakes, sources, hleads, hfed.of_inputEdges heq⟩

/-- What `lookup` finds is where the reference `Leads`. -/
private theorem leads_of_lookup {names : Dict String} {reference : Datum} {id : String}
    (h : lookup names reference = .ok (some id)) : Leads names reference ⟨id, .int 0⟩ := by
  obtain ⟨_, _, h⟩ := exists_of_bind_eq_ok h
  split at h
  · exact ⟨_, id, rfl, Except.ok.inj h, rfl⟩
  · cases h

/-- `connectInputs` of a node is `connect` on the ports that they lead to. -/
private theorem connectInputs_eq_ok {names : Dict String} {given : Datum} {target : String}
    {g h : Graph} {index : Nat} {ids later : IdSource} {references : List Datum}
    (hok : connectInputs names given target g index ids references = (.ok h, later)) :
    ∃ sources, List.Forall₂ (Leads names) references sources ∧
      g.connect target index ids sources = (h, later) := by
  induction references generalizing g index ids with
  | nil =>
    cases hok
    exact ⟨[], .nil, rfl⟩
  | cons reference rest ih =>
    rw [connectInputs] at hok
    split at hok
    · -- the reference cannot be a key
      cases hok
    · -- the name is not known
      cases hok
    · rename_i id hlookup
      -- the name is known, and the edge comes from its node
      obtain ⟨sources, hleads, hconnect⟩ := ih hok
      exact ⟨⟨id, .int 0⟩ :: sources, .cons (leads_of_lookup hlookup) hleads, hconnect⟩

/-- Edges have been led to the ports of some nodes as their definitions say, and nothing else has
changed. -/
structure Wires (names : Dict String) (g : Graph) (definitions : List Definition)
    (nodes : List Node) (h : Graph) : Prop where
  nodes_eq : h.nodes = g.nodes
  metadata_eq : h.metadata = g.metadata
  inputEdges_eq : ∀ id ∉ nodes.map Node.id, h.inputEdges id = g.inputEdges id
  wired : List.Forall₂ (Wired names h) definitions nodes

/-- `connectAll` gives nodes to which no edge leads yet the edges that their definitions ask for. -/
private theorem wires_of_connectAll {names : Dict String} {g h : Graph} {ids later : IdSource}
    {definitions : List Definition} {nodes : List Node}
    (hmakes : List.Forall₂ Makes definitions nodes)
    (hnames : ∀ n ∈ nodes, ∀ name, n.name = .str name → names.get? name = some n.id)
    (hnodup : (nodes.map Node.id).Nodup) (hnone : ∀ n ∈ nodes, g.inputEdges n.id = [])
    (haccounts : ids.Accounts g) (hok : connectAll names g ids definitions = (.ok h, later)) :
    Wires names g definitions nodes h ∧ later.Accounts h := by
  induction hmakes generalizing g ids with
  | nil =>
    cases hok
    exact ⟨⟨rfl, rfl, fun _ _ => rfl, .nil⟩, haccounts⟩
  | @cons d n rest others hmade _ ih =>
    obtain ⟨hfirst, hnames⟩ := List.forall_mem_cons.mp hnames
    rw [connectAll, hfirst _ hmade.name_eq] at hok
    dsimp only at hok
    split at hok
    · cases hok
    · rename_i next between hinputs
      obtain ⟨sources, hleads, hconnect⟩ := connectInputs_eq_ok hinputs
      obtain ⟨hnew, hothers⟩ := List.nodup_cons.mp hnodup
      -- the edges to the first node do not concern the other nodes
      have hedges : ∀ id, id ≠ n.id → next.inputEdges id = g.inputEdges id :=
        fun id => Graph.inputEdges_of_connect hconnect
      have hfed : next.FedFrom n sources := by
        have hlength := hleads.length_eq
        have harity : n.op.signature.accepts sources.length = true := by
          rw [hmade.op_eq, ← hlength]
          exact hmade.arity
        have hports : n.inputs.length = sources.length := hmade.inputs_length.trans hlength
        exact Graph.fedFrom_of_connect hconnect harity hports (hnone n List.mem_cons_self)
      have hnext : between.Accounts next := Graph.accounts_of_connect hconnect haccounts
      have hsame : next.nodes = g.nodes ∧ next.metadata = g.metadata := by
        rw [Graph.connect_eq] at hconnect
        cases hconnect
        exact ⟨rfl, rfl⟩
      have hrest : ∀ m ∈ others, next.inputEdges m.id = [] := by
        intro m hm
        rw [hedges m.id fun heq => hnew (heq ▸ List.mem_map_of_mem hm)]
        exact hnone m (List.mem_cons_of_mem n hm)
      obtain ⟨hwires, hlater⟩ := ih hnames hothers hrest hnext hok
      refine ⟨⟨hwires.nodes_eq.trans hsame.1, hwires.metadata_eq.trans hsame.2, ?_, ?_⟩, hlater⟩
      · intro id hid
        rw [List.map_cons, List.mem_cons, not_or] at hid
        rw [hwires.inputEdges_eq id hid.2, hedges id hid.1]
      · have hkept : h.inputEdges n.id = next.inputEdges n.id := hwires.inputEdges_eq n.id hnew
        exact .cons ⟨hmade, sources, hleads, hfed.of_inputEdges hkept⟩ hwires.wired

/-! ### Model outputs -/

/-- The definition that an entry of the list of outputs stands for. -/
def outputDefinition (reference : Datum) : Definition :=
  ⟨.str ("output_" ++ reference.toName), .output, [reference], none, .null⟩

/-- Nodes have been added for some entries of the list of outputs, and nothing else has changed. -/
structure Adds (names : Dict String) (g : Graph) (references : List Datum) (sinks : List Node)
    (h : Graph) : Prop where
  nodes_eq : h.nodes.toList = g.nodes.toList ++ sinks
  metadata_eq : h.metadata = g.metadata
  inputEdges_eq : ∀ id ∈ g.nodes.ids, h.inputEdges id = g.inputEdges id
  wired : List.Forall₂ (Wired names h) (references.map outputDefinition) sinks

/-- `addOutputs` adds an output by growing the graph. -/
private theorem grows_of_addOutputs {names : Dict String} {g h : Graph} {ids later : IdSource}
    {reference : Datum} {rest : List Datum}
    (hok : addOutputs names g ids (reference :: rest) = (.ok h, later)) :
    ∃ source sink next between, Leads names reference source ∧
      Makes (outputDefinition reference) sink ∧ g.Grows ids sink [source] next between ∧
      addOutputs names next between rest = (.ok h, later) := by
  rw [addOutputs] at hok
  split at hok
  · -- the reference cannot be a key
    cases hok
  · -- the name is not known
    cases hok
  · rename_i id hlookup
    dsimp only at hok
    split at hok
    · cases hok
    · rename_i sinkId bigger hmade
      -- the sink is made and added, and then one edge leads to it
      obtain ⟨sink, hsink, hadded⟩ := exists_of_bind_eq_ok hmade
      have hlaid : Makes (outputDefinition reference) sink ∧ _ := makeNode_eq_ok hsink
      obtain ⟨hmakes, hid, hids⟩ := hlaid
      cases hadd : g.addNode sink with
      | error cause =>
        rw [hadd] at hadded
        cases hadded
      | ok grown =>
        rw [hadd] at hadded
        cases hadded
        cases addNode_eq_ok hadd
        refine ⟨⟨id, .int 0⟩, sink, _, _, leads_of_lookup hlookup, hmakes, ⟨hid, ?_, ?_, rfl⟩, ?_⟩
        · rw [hmakes.op_eq]
          exact hmakes.arity
        · exact hmakes.inputs_length
        · rw [← hids]
          exact hok

/-- `addOutputs` adds a node for each entry of the list of outputs. -/
private theorem adds_of_addOutputs {names : Dict String} {g h : Graph} {ids later : IdSource}
    {references : List Datum} (hg : g.Produced ids)
    (hok : addOutputs names g ids references = (.ok h, later)) :
    ∃ sinks, Adds names g references sinks h ∧ h.Produced later := by
  induction references generalizing g ids with
  | nil =>
    cases hok
    exact ⟨[], ⟨by simp, rfl, fun _ _ => rfl, .nil⟩, hg⟩
  | cons reference rest ih =>
    obtain ⟨source, sink, next, between, hleads, hmakes, hgrows, hrest⟩ := grows_of_addOutputs hok
    have hfresh := hg.accounts.nodes
    obtain ⟨sinks, hadds, hproduced⟩ := ih (hg.grow hgrows) hrest
    have hids := hgrows.ids_nodes hfresh
    refine ⟨sink :: sinks, ⟨?_, ?_, ?_, ?_⟩, hproduced⟩
    · rw [hadds.nodes_eq, hgrows.toList_nodes hfresh, List.append_assoc, List.singleton_append]
    · rw [hadds.metadata_eq, hgrows.graph_eq]
    · intro id hid
      rw [hadds.inputEdges_eq id (by simp [hids, hid]), hgrows.inputEdges_old hfresh hid]
    · -- the outputs that follow leave the edge into this one
      have hkept := hadds.inputEdges_eq sink.id (by simp [hids])
      exact .cons ⟨hmakes, [source], .cons hleads .nil,
        (hgrows.fedFrom_new hg).of_inputEdges hkept⟩ hadds.wired

/-! ### The graph of a description -/

/-- `connectAll` leads edges to the nodes of a draft that is `Sound`, which had none. -/
theorem Sound.connectAll {draft : Draft} {h : Graph} {ids later : IdSource} (hs : draft.Sound ids)
    (hok : Draft.connectAll draft.names draft.graph ids draft.definitions = (.ok h, later)) :
    Wires draft.names draft.graph draft.definitions draft.graph.nodes.toList h ∧
      h.Produced later := by
  have hnone : ∀ id, draft.graph.inputEdges id = [] := by
    intro id
    simp [Graph.inputEdges, hs.edges_eq]
  obtain ⟨hwires, haccounts⟩ := wires_of_connectAll hs.nodes
    (fun n hn name hname => (hs.names name n.id).mpr ⟨n, hn, hname, rfl⟩)
    draft.graph.nodes.ids_nodup (fun n _ => hnone n.id) hs.accounts hok
  refine ⟨hwires, haccounts, ?_, ?_⟩
  · -- an edge that leads elsewhere would have been there before
    intro e he
    by_contra hout
    rw [hwires.nodes_eq] at hout
    have hin : e ∈ h.inputEdges e.target.node := by simp [he]
    rw [hwires.inputEdges_eq _ hout, hnone] at hin
    cases hin
  · intro n hn
    rw [hwires.nodes_eq] at hn
    obtain ⟨_, _, _, sources, _, hfed⟩ := exists_of_mem_right hwires.wired hn
    exact ⟨sources, hfed⟩

section
variable {names : Dict String} {defined : List Node} {g : Graph}

/-- References with `Leads` to ports are the names of nodes. -/
private theorem inputs_of_leads (hnames : Locates names defined) {references : List Datum}
    {sources : List Endpoint} (h : List.Forall₂ (Leads names) references sources) :
    ∃ inputs : List String, references = inputs.map .str ∧
      List.Forall₂ (Blueprint.NamedPort defined) inputs sources := by
  induction h with
  | nil => exact ⟨[], rfl, .nil⟩
  | cons hhead _ ih =>
    obtain ⟨name, id, rfl, hfound, rfl⟩ := hhead
    obtain ⟨n, hn, hname, rfl⟩ := (hnames name id).mp hfound
    obtain ⟨inputs, rfl, hports⟩ := ih
    exact ⟨name :: inputs, rfl, .cons ⟨n, hn, hname, rfl⟩ hports⟩

/-- A node that is `Wired` for a definition has `RealisedBy` for what the definition says. -/
private theorem Wired.realised (hnames : Locates names defined) {definition : Definition} {n : Node}
    (h : Wired names g definition n) :
    ∃ inputs : List String, definition.inputs = inputs.map .str ∧
      Blueprint.Item.RealisedBy ⟨definition.given.toName, definition.kind, inputs, definition.type,
        n.attrs⟩ g defined n := by
  obtain ⟨hmakes, sources, hleads, hfed⟩ := h
  -- the names that are listed are those of the sources, one by one
  obtain ⟨inputs, hinputs, hports⟩ := inputs_of_leads hnames hleads
  have hlength : inputs.length = sources.length := hports.length_eq
  refine ⟨inputs, hinputs, hmakes.name_eq, hmakes.op_eq, rfl, ?_, ?_, ?_, ?_, ?_⟩
  · rw [hmakes.outputs_eq, length_outputPorts]
  · intro port hport
    rw [hmakes.outputs_eq] at hport
    exact type_of_mem_outputPorts hport
  · rw [hfed.ports, hlength]
  · rw [hfed.sources_eq]
    exact hports
  · rw [hfed.indices_eq, hlength]

/-- Nodes that are `Wired` for definitions realise items that are `ReadFrom` the data of the
definitions. -/
private theorem exists_items (hnames : Locates names defined) {ds : List Datum}
    {definitions : List Definition} {nodes : List Node}
    (hreads : List.Forall₂ Reads ds definitions)
    (hwired : List.Forall₂ (Wired names g) definitions nodes) :
    ∃ items : List Blueprint.Item, List.Forall₂ Blueprint.Item.ReadFrom items ds ∧
      List.Forall₂ (fun item n => item.RealisedBy g defined n) items nodes := by
  apply exists_between
  refine (forall₂_comp hreads hwired).imp fun d n hmiddle => ?_
  obtain ⟨definition, ⟨hname, hread⟩, hw⟩ := hmiddle
  obtain ⟨inputs, hinputs, hrealised⟩ := hw.realised hnames
  exact ⟨_, Blueprint.Item.readFrom_of_ofDatum hname hread hinputs hw.1.attrs_eq, hrealised⟩

/-- Nodes that are `Wired` for the entries of the list of outputs realise what these ask for. -/
private theorem exists_outputs (hnames : Locates names defined) {references : List Datum}
    {sinks : List Node}
    (hwired : List.Forall₂ (Wired names g) (references.map outputDefinition) sinks) :
    ∃ outputs : List String, references = outputs.map .str ∧
      List.Forall₂ (fun item n => item.RealisedBy g defined n)
        (outputs.map Blueprint.Item.ofOutput) sinks := by
  have hnamed : List.Forall₂ (fun reference sink => ∃ name : String, .str name = reference ∧
      (Blueprint.Item.ofOutput name).RealisedBy g defined sink) references sinks := by
    refine (List.forall₂_map_left_iff.mp hwired).imp fun reference sink hw => ?_
    obtain ⟨inputs, hinputs, hrealised⟩ := hw.realised hnames
    -- an output reads one node and has no attributes
    obtain ⟨name, rfl, rfl⟩ := List.map_eq_singleton_iff.mp hinputs.symm
    have hattrs : sink.attrs = Dict.empty := by
      obtain ⟨entries, hentries, hfrozen⟩ := hw.1.attrs_eq
      cases hentries
      exact (Except.ok.inj hfrozen).symm
    rw [hattrs] at hrealised
    exact ⟨name, rfl, hrealised⟩
  obtain ⟨outputs, hreferences, hsinks⟩ := exists_between hnamed
  refine ⟨outputs, ?_, List.forall₂_map_left_iff.mpr hsinks⟩
  rw [← List.forall₂_map_left_iff, List.forall₂_eq_eq_eq] at hreferences
  exact hreferences.symm

end

/-- The stages by which `Draft.build` has built the graph of a description. -/
private theorem build_eq_ok {model : Datum} {ids : IdSource} {g : Graph}
    (h : (Draft.build model ids).1 = .ok g) :
    ∃ definitions outputs draft connected created defined wired later,
      model.optionalMembers "nodes" = .ok definitions ∧
      model.optionalMembers "outputs" = .ok outputs ∧
      Graph.create (.str ((model.field? "name").getD (.str "graph")).toName)
        (.str ((model.field? "description").getD (.str "")).toName) ids = created ∧
      (Draft.mk created.1 Dict.empty []).defineAll created.2 definitions = (.ok draft, defined) ∧
      Draft.connectAll draft.names draft.graph defined draft.definitions = (.ok connected, wired) ∧
      Draft.addOutputs draft.names connected wired outputs = (.ok g, later) := by
  unfold Draft.build at h
  dsimp only at h
  split at h
  · -- the definitions cannot be listed
    cases h
  · split at h
    · -- some definition fails
      cases h
    · split at h
      · -- some input fails
        cases h
      · split at h
        · -- the outputs cannot be listed
          cases h
        · rename_i definitions hdefinitions _ draft defined hdefine _ connected wired
            hconnect _ outputs houtputs
          exact ⟨definitions, outputs, draft, connected, _, defined, wired, _, hdefinitions,
            houtputs, rfl, hdefine, hconnect, Prod.ext h rfl⟩

/-- A graph from `Draft.build` realises what the description says. -/
theorem exists_realised {model : Datum} {ids : IdSource} {g : Graph}
    (h : (Draft.build model ids).1 = .ok g) :
    ∃ bp : Blueprint, bp.ReadFrom model ∧ bp.RealisedBy g ∧ ∃ later, g.Produced later := by
  obtain ⟨ds, references, draft, connected, _, _, _, later, hds, hreferences, rfl, hdefine,
    hconnect, hadd⟩ := build_eq_ok h
  obtain ⟨hsound, hmetadata, made, hmade, hreads⟩ := (sound_create _ _ ids).defineAll hdefine
  obtain ⟨hwires, hconnected⟩ := hsound.connectAll hconnect
  obtain ⟨sinks, hadds, hproduced⟩ := adds_of_addOutputs hconnected hadd
  cases hmade
  have hnodes : g.nodes.toList = draft.graph.nodes.toList ++ sinks := by
    rw [hadds.nodes_eq, hwires.nodes_eq]
  -- the model outputs come after the edges into the other nodes
  have hwired : List.Forall₂ (Wired draft.names g) draft.definitions draft.graph.nodes.toList := by
    refine forall₂_imp_of_mem hwires.wired fun definition n hn hw => ?_
    rw [← hwires.nodes_eq] at hn
    exact hw.of_inputEdges (hadds.inputEdges_eq n.id (List.mem_map_of_mem hn))
  obtain ⟨items, hitems, hdefined⟩ := exists_items hsound.names hreads hwired
  obtain ⟨outputs, rfl, hsinks⟩ := exists_outputs hsound.names hadds.wired
  have hlength : items.length = draft.graph.nodes.toList.length := hdefined.length_eq
  have htake : g.nodes.toList.take items.length = draft.graph.nodes.toList := by
    rw [hnodes, hlength, List.take_left]
  refine ⟨⟨_, _, items, outputs⟩, ⟨rfl, rfl, ⟨ds, hds, hitems⟩, hreferences⟩, ?_, later, hproduced⟩
  constructor
  · rw [hadds.metadata_eq, hwires.metadata_eq, hmetadata]
    rfl
  · rw [hadds.metadata_eq, hwires.metadata_eq, hmetadata]
    rfl
  · show (items.map Blueprint.Item.name).Nodup
    have hnodup := hsound.names_nodup
    rw [← Blueprint.map_name_eq hdefined] at hnodup
    exact List.Nodup.of_map _ hnodup
  · rw [Blueprint.definedIn, htake, hnodes]
    exact List.rel_append hdefined hsinks
  · exact hproduced.targets

end Draft

/-! ### Reading a description off its graph -/

namespace Graph

/-- What `Graph.ofModel` accepts, `Draft.build` has built. -/
theorem build_of_ofModel {model : Datum} {ids : IdSource} {g : Graph}
    (h : (Graph.ofModel model ids).1 = .ok g) : (Draft.build model ids).1 = .ok g := by
  unfold Graph.ofModel at h
  split at h
  · exact h
  · cases h

/-- A description that `Graph.ofModel` accepts says one thing, its graph has `RealisedBy` for it,
and `Blueprint.ofGraph` reads it off the graph except for the types of model outputs, given how many
of the nodes are definitions. -/
theorem ofModel_realises {model : Datum} {ids : IdSource} {g : Graph}
    (h : (Graph.ofModel model ids).1 = .ok g) :
    ∃ bp : Blueprint, bp.ReadFrom model ∧ (∀ other : Blueprint, other.ReadFrom model → other = bp) ∧
      bp.RealisedBy g ∧ Blueprint.ofGraph bp.definitions.length g = bp.onPorts := by
  obtain ⟨bp, hread, hrealised, _⟩ := Draft.exists_realised (build_of_ofModel h)
  exact ⟨bp, hread, fun other hother => hother.unique hread, hrealised, hrealised.ofGraph_eq⟩

/-- A sum that is defined before what it reads, once of the same input twice, and that is an output
twice. -/
def forwardModel : Datum :=
  .dict [
    ("name", .str "forward"),
    ("nodes", .list [
      .dict [("name", .str "sum"), ("op", .str "Add"), ("inputs", .list [.str "x", .str "x"])],
      .dict [("name", .str "x"), ("op", .str "Input"),
        ("tensor_type", .dict [("shape", .list [.int 2])])]]),
    ("outputs", .list [.str "sum", .str "sum"])]

/-- The description `forwardModel` is accepted, and its graph realises what it says. -/
theorem ofModel_forward_realises :
    ∃ g, (Graph.ofModel forwardModel ⟨0⟩).1 = .ok g ∧
      ∃ bp : Blueprint, bp.ReadFrom forwardModel ∧
        (∀ other : Blueprint, other.ReadFrom forwardModel → other = bp) ∧
        bp.RealisedBy g ∧ Blueprint.ofGraph bp.definitions.length g = bp.onPorts := by
  have hok : ∃ g, (Graph.ofModel forwardModel ⟨0⟩).1 = .ok g := ⟨_, rfl⟩
  obtain ⟨g, hg⟩ := hok
  exact ⟨g, hg, ofModel_realises hg⟩

/-- An input, and a model output that is defined with a type. -/
def typedOutputModel (type : Datum) : Datum :=
  .dict [("nodes", .list [
    .dict [("name", .str "x"), ("op", .str "Input")],
    .dict [("name", .str "y"), ("op", .str "Output"), ("inputs", .list [.str "x"]),
      ("tensor_type", type)]])]

/-- An input that is listed as an output. -/
def listedOutputModel : Datum :=
  .dict [("nodes", .list [.dict [("name", .str "x"), ("op", .str "Input")]]),
    ("outputs", .list [.str "x"])]

/-- An input, and a model output that is defined. -/
def definedOutputModel : Datum :=
  .dict [("nodes", .list [
    .dict [("name", .str "x"), ("op", .str "Input")],
    .dict [("name", .str "output_x"), ("op", .str "Output"), ("inputs", .list [.str "x"])]])]

/-- The definition of an input. -/
def inputItem : Blueprint.Item := ⟨"x", .input, [], none, Dict.empty⟩

private theorem readFrom_inputItem :
    inputItem.ReadFrom (.dict [("name", .str "x"), ("op", .str "Input")]) :=
  ⟨⟨_, rfl, rfl⟩, rfl, rfl, rfl, [], rfl, rfl⟩

/-- What `typedOutputModel` says, `ReadFrom` field by field. -/
private theorem readFrom_typedOutputModel {d : Datum} {type : Option TensorType}
    (h : TensorType.ofDeclaration d = .ok type) :
    Blueprint.ReadFrom ⟨"graph", "", [inputItem, ⟨"y", .output, ["x"], type, Dict.empty⟩], []⟩
      (typedOutputModel d) :=
  ⟨rfl, rfl, ⟨_, rfl, .cons readFrom_inputItem
    (.cons ⟨⟨_, rfl, rfl⟩, rfl, rfl, h, [], rfl, rfl⟩ .nil)⟩, rfl⟩

private theorem readFrom_listedOutputModel :
    Blueprint.ReadFrom ⟨"graph", "", [inputItem], ["x"]⟩ listedOutputModel :=
  ⟨rfl, rfl, ⟨_, rfl, .cons readFrom_inputItem .nil⟩, rfl⟩

private theorem readFrom_definedOutputModel :
    Blueprint.ReadFrom ⟨"graph", "", [inputItem, .ofOutput "x"], []⟩ definedOutputModel :=
  ⟨rfl, rfl, ⟨_, rfl, .cons readFrom_inputItem
    (.cons ⟨⟨_, rfl, rfl⟩, rfl, rfl, rfl, [], rfl, rfl⟩ .nil)⟩, rfl⟩

/-- `Graph.ofModel` is not injective: the type with which a model output is defined cannot be read
off its graph, and neither can the number of definitions. -/
theorem ofModel_not_injective :
    (¬ ∃ read : Nat → Graph → Blueprint, ∀ model ids g (bp : Blueprint),
      (Graph.ofModel model ids).1 = .ok g → bp.ReadFrom model → read bp.definitions.length g = bp) ∧
    ¬ ∃ read : Graph → Blueprint, ∀ model ids g (bp : Blueprint),
      (Graph.ofModel model ids).1 = .ok g → bp.ReadFrom model → read g = bp.onPorts := by
  constructor
  · intro hread
    obtain ⟨read, hread⟩ := hread
    have hok : ∃ g, (Graph.ofModel (typedOutputModel .null) ⟨0⟩).1 = .ok g := ⟨_, rfl⟩
    obtain ⟨g, hg⟩ := hok
    -- a model output has no port that could carry the type
    have hsame : (Graph.ofModel (typedOutputModel (.dict [("shape", .list [.int 2])])) ⟨0⟩).1 =
        (Graph.ofModel (typedOutputModel .null) ⟨0⟩).1 := by rfl
    have huntyped := hread _ _ g _ hg (readFrom_typedOutputModel rfl)
    have htyped := hread _ _ g _ (hsame.trans hg) (readFrom_typedOutputModel rfl)
    cases huntyped.symm.trans htyped
  · intro hread
    obtain ⟨read, hread⟩ := hread
    have hok : ∃ g, (Graph.ofModel listedOutputModel ⟨0⟩).1 = .ok g := ⟨_, rfl⟩
    obtain ⟨g, hg⟩ := hok
    -- the listed output gets the name, the id and the edge of the one that is defined
    have hsame : (Graph.ofModel definedOutputModel ⟨0⟩).1 =
        (Graph.ofModel listedOutputModel ⟨0⟩).1 := by
      rfl
    have hlisted := hread _ _ g _ hg readFrom_listedOutputModel
    have hdefined := hread _ _ g _ (hsame.trans hg) readFrom_definedOutputModel
    cases hlisted.symm.trans hdefined

end Graph

end TensorGraph
