import TensorGraph.Build.Model
import TensorGraph.Proofs.Growth
import TensorGraph.Proofs.Lists

/-!
# What model descriptions say

A model description is plain data, in which the same thing can be written in several ways: a list
that is empty may be left out, a type may lack its element type, names of inputs may be the
characters of a text. A `Blueprint` is what a description says, and `Blueprint.ReadFrom` is said
field by field of the description, without the functions that build a graph from it. A description
says one thing only (`ReadFrom.unique`), and what is read of a definition while a graph is built is
what it says (`Item.readFrom_of_ofDatum`).

A graph realises a blueprint if its nodes are those of the definitions and outputs in order, fed as
the lists of inputs say (`RealisedBy`). Up to types that no port carries, the blueprint can then be
read off the graph by whoever knows how many nodes are definitions (`ofGraph_eq`).
-/

namespace TensorGraph

/-- What a model description says about a node: its name and kind, the names of the nodes that it
reads, the type of its outputs and its attributes. -/
structure Blueprint.Item where
  name : String
  kind : OpKind
  inputs : List String
  type : Option TensorType
  attrs : Attributes
deriving DecidableEq, Repr

/-- What a model description says. -/
structure Blueprint where
  name : String
  description : String
  definitions : List Blueprint.Item
  outputs : List String
deriving DecidableEq, Repr

namespace Blueprint

/-- An item says what a definition says. -/
structure Item.ReadFrom (item : Item) (d : Datum) : Prop where
  name_eq : ∃ given, d.field? "name" = some given ∧ given.toName = item.name
  kind_eq : d.field? "op" = some (.str item.kind.label)
  inputs_eq : d.optionalMembers "inputs" = .ok (item.inputs.map .str)
  type_eq : TensorType.ofDeclaration ((d.field? "tensor_type").getD .null) = .ok item.type
  attrs_eq : ∃ entries, attributeEntries ((d.field? "attributes").getD .null) = .ok entries ∧
    Attributes.ofEntries entries = .ok item.attrs

/-- A blueprint says what a model description says. -/
structure ReadFrom (bp : Blueprint) (model : Datum) : Prop where
  name_eq : ((model.field? "name").getD (.str "graph")).toName = bp.name
  description_eq : ((model.field? "description").getD (.str "")).toName = bp.description
  definitions_eq : ∃ ds, model.optionalMembers "nodes" = .ok ds ∧
    List.Forall₂ Item.ReadFrom bp.definitions ds
  outputs_eq : model.optionalMembers "outputs" = .ok (bp.outputs.map .str)

/-! ### A description says one thing -/

private theorem ofLabel?_label (kind : OpKind) : OpKind.ofLabel? kind.label = some kind := by
  cases kind <;> decide

private theorem label_inj {k l : OpKind} (h : k.label = l.label) : k = l := by
  have hsome := ofLabel?_label k
  rw [h, ofLabel?_label] at hsome
  exact (Option.some.inj hsome).symm

private theorem map_str_inj {xs ys : List String} (h : xs.map Datum.str = ys.map Datum.str) :
    xs = ys :=
  List.map_injective_iff.mpr (fun _ _ => Datum.str.inj) h

/-- A definition says one thing: two items that are `ReadFrom` it are equal. -/
theorem Item.ReadFrom.unique {item other : Item} {d : Datum} (h : item.ReadFrom d)
    (hother : other.ReadFrom d) : item = other := by
  obtain ⟨given, hgiven, hname⟩ := h.name_eq
  obtain ⟨given', hgiven', hname'⟩ := hother.name_eq
  obtain ⟨entries, hentries, hattrs⟩ := h.attrs_eq
  obtain ⟨entries', hentries', hattrs'⟩ := hother.attrs_eq
  -- the fields of both are read from the same places of the datum
  have hkind := h.kind_eq.symm.trans hother.kind_eq
  have hinputs := h.inputs_eq.symm.trans hother.inputs_eq
  have htype := h.type_eq.symm.trans hother.type_eq
  -- both have been given the same name and the same attributes to read
  cases hgiven.symm.trans hgiven'
  cases hentries.symm.trans hentries'
  cases item
  cases other
  simp only [Item.mk.injEq]
  refine ⟨hname.symm.trans hname', label_inj ?_, map_str_inj ?_, ?_, ?_⟩
  · simpa using hkind
  · simpa using hinputs
  · simpa using htype
  · simpa using hattrs.symm.trans hattrs'

/-- A description says one thing: two blueprints that are `ReadFrom` it are equal. -/
theorem ReadFrom.unique {bp other : Blueprint} {model : Datum} (h : bp.ReadFrom model)
    (hother : other.ReadFrom model) : bp = other := by
  obtain ⟨ds, hds, hitems⟩ := h.definitions_eq
  obtain ⟨ds', hds', hitems'⟩ := hother.definitions_eq
  -- both read the same list, item by item
  cases hds.symm.trans hds'
  have hdefinitions : bp.definitions = other.definitions :=
    List.left_unique_forall₂' (fun _ _ _ ha hb => ha.unique hb) hitems hitems'
  have houtputs := h.outputs_eq.symm.trans hother.outputs_eq
  cases bp
  cases other
  simp only [Blueprint.mk.injEq]
  refine ⟨h.name_eq.symm.trans hother.name_eq, h.description_eq.symm.trans hother.description_eq,
    hdefinitions, map_str_inj ?_⟩
  simpa using houtputs

/-! ### Reading definitions -/

/-- `requiredField` gives what stands in the field. -/
private theorem requiredField_eq_ok {key : String} {d v : Datum} (h : d.requiredField key = .ok v) :
    d.field? key = some v := by
  unfold Datum.requiredField at h
  split at h
  · split at h
    · -- the key has been found
      rename_i hlookup
      cases h
      exact hlookup
    · cases h
  · cases h

/-- `OpKind.ofDatum` takes only the label of a kind for the kind. -/
private theorem ofDatum_eq_ok {d : Datum} {kind : OpKind} (h : OpKind.ofDatum d = .ok kind) :
    d = .str kind.label := by
  unfold OpKind.ofDatum at h
  split at h
  · split at h
    · -- the label of the kind is the text itself
      rename_i hfound
      cases h
      have hlabel := List.find?_some hfound
      rw [beq_iff_eq] at hlabel
      rw [hlabel]
    · cases h
  · cases h

/-- `attributeEntries` are the same when attributes that are not given have been left out. -/
private theorem attributeEntries_given {attrs given : Datum}
    (h : givenAttributes attrs = .ok given) :
    attributeEntries given = attributeEntries attrs := by
  unfold attributeEntries
  rw [h]
  obtain ⟨b, htruth, hgiven⟩ := exists_of_bind_eq_ok h
  cases b with
  | true =>
    cases hgiven
    rw [h]
  -- what counts as not given has no entries
  | false =>
    cases hgiven
    rfl

/-- Where the parts of a definition from `Definition.ofDatum` come from. -/
theorem ofDatum_fields {d given : Datum} {definition : Definition}
    (h : Definition.ofDatum given d = .ok definition) :
    definition.given = given ∧ d.field? "op" = some (.str definition.kind.label) ∧
      d.optionalMembers "inputs" = .ok definition.inputs ∧
      TensorType.ofDeclaration ((d.field? "tensor_type").getD .null) = .ok definition.type ∧
      attributeEntries definition.attrs =
        attributeEntries ((d.field? "attributes").getD .null) := by
  -- the fields are read one after the other, and the first failure would have been the answer
  obtain ⟨op, hop, h⟩ := exists_of_bind_eq_ok h
  obtain ⟨kind, hkind, h⟩ := exists_of_bind_eq_ok h
  obtain ⟨references, hreferences, h⟩ := exists_of_bind_eq_ok h
  obtain ⟨type, htype, h⟩ := exists_of_bind_eq_ok h
  obtain ⟨chosen, hchosen, h⟩ := exists_of_bind_eq_ok h
  cases h
  refine ⟨rfl, ?_, hreferences, htype, attributeEntries_given hchosen⟩
  rw [requiredField_eq_ok hop, ofDatum_eq_ok hkind]

/-- What `Definition.ofDatum` reads of a definition is what it says, if its references are texts and
its attributes can be frozen. -/
theorem Item.readFrom_of_ofDatum {d : Datum} {definition : Definition} {inputs : List String}
    {attrs : Attributes} (hname : d.requiredField "name" = .ok definition.given)
    (h : Definition.ofDatum definition.given d = .ok definition)
    (hinputs : definition.inputs = inputs.map .str)
    (hattrs : ∃ entries, attributeEntries definition.attrs = .ok entries ∧
      Attributes.ofEntries entries = .ok attrs) :
    Item.ReadFrom ⟨definition.given.toName, definition.kind, inputs, definition.type, attrs⟩ d := by
  obtain ⟨_, hkind, hmembers, htype, hentries⟩ := ofDatum_fields h
  rw [hinputs] at hmembers
  rw [hentries] at hattrs
  exact ⟨⟨definition.given, requiredField_eq_ok hname, rfl⟩, hkind, hmembers, htype, hattrs⟩

/-! ### Graphs that realise a blueprint -/

/-- A port is the first output of a node with a name. -/
def NamedPort (nodes : List Node) (name : String) (source : Endpoint) : Prop :=
  ∃ n ∈ nodes, n.name = .str name ∧ source = ⟨n.id, .int 0⟩

/-- A node of a graph is as an item says: it has the item's name, kind and attributes, the item's
type at all its output ports, and a port for each input. The edges into it lead to these ports in
turn, from the first outputs of the nodes that the inputs name. -/
structure Item.RealisedBy (item : Item) (g : Graph) (defined : List Node) (n : Node) : Prop where
  name_eq : n.name = .str item.name
  op_eq : n.op = item.kind
  attrs_eq : n.attrs = item.attrs
  outputs_length : n.outputs.length = item.kind.signature.outputs
  outputs_type : ∀ port ∈ n.outputs, port.type = item.type
  inputs_length : n.inputs.length = item.inputs.length
  sources : List.Forall₂ (NamedPort defined) item.inputs ((g.inputEdges n.id).map Edge.source)
  indices : (g.inputEdges n.id).map (fun e => e.target.index) =
    (List.range item.inputs.length).map fun i => .int i

/-- Nodes that have `RealisedBy` for items have their names. -/
theorem map_name_eq {g : Graph} {defined nodes : List Node} {items : List Item}
    (h : List.Forall₂ (fun item n => item.RealisedBy g defined n) items nodes) :
    (items.map Item.name).map Datum.str = nodes.map Node.name := by
  rw [List.map_map, ← List.forall₂_eq_eq_eq, List.forall₂_map_left_iff, List.forall₂_map_right_iff]
  exact h.imp fun item n hitem => hitem.name_eq.symm

/-- An entry of the list of outputs asks for a model output that reads the node it names. -/
def Item.ofOutput (name : String) : Item := ⟨"output_" ++ name, .output, [name], none, Dict.empty⟩

/-- The definitions, followed by what the outputs ask for. -/
def items (bp : Blueprint) : List Item := bp.definitions ++ bp.outputs.map Item.ofOutput

/-- The nodes of the definitions, which come first. -/
def definedIn (bp : Blueprint) (g : Graph) : List Node := g.nodes.toList.take bp.definitions.length

theorem mem_of_mem_definedIn {bp : Blueprint} {g : Graph} {n : Node} (h : n ∈ bp.definedIn g) :
    n ∈ g.nodes.toList :=
  List.mem_of_mem_take h

/-- The nodes of a graph are those of a blueprint's items in order, and there are no other edges
than those into them. The nodes that the inputs name are those of the definitions. -/
structure RealisedBy (bp : Blueprint) (g : Graph) : Prop where
  name_eq : g.metadata.name = .str bp.name
  description_eq : g.metadata.description = .str bp.description
  names_nodup : (bp.definitions.map Item.name).Nodup
  nodes : List.Forall₂ (fun item n => item.RealisedBy g (bp.definedIn g) n) bp.items g.nodes.toList
  edges : ∀ e ∈ g.edges, e.target.node ∈ g.nodes.ids

/-! ### Reading off a graph -/

/-- The item that a node of a graph can have come from. -/
def Item.ofNode (g : Graph) (n : Node) : Item where
  name := n.name.toName
  kind := n.op
  inputs := (g.inputEdges n.id).map fun e => (g.nameOf e.source.node).toName
  type := n.outputType
  attrs := n.attrs

/-- The blueprint that a graph can have come from, if a number of its nodes are definitions. -/
def ofGraph (definitions : Nat) (g : Graph) : Blueprint where
  name := g.metadata.name.toName
  description := g.metadata.description.toName
  definitions := (g.nodes.toList.take definitions).map (Item.ofNode g)
  outputs := (g.nodes.toList.drop definitions).flatMap fun n => (Item.ofNode g n).inputs

/-- An item without a type that no output port can carry. -/
def Item.onPorts (item : Item) : Item :=
  { item with type := if item.kind = .output then none else item.type }

/-- A blueprint without types that no output port can carry. -/
def onPorts (bp : Blueprint) : Blueprint :=
  { bp with definitions := bp.definitions.map Item.onPorts }

/-- `nameOf` the node of a `NamedPort` is the name. -/
private theorem toName_nameOf {g : Graph} {nodes : List Node}
    (hnodes : ∀ n ∈ nodes, n ∈ g.nodes.toList) {name : String} {source : Endpoint}
    (h : NamedPort nodes name source) :
    (g.nameOf source.node).toName = name := by
  obtain ⟨n, hn, hname, rfl⟩ := h
  simp [Graph.nameOf, NodeTable.find?_of_mem (hnodes n hn), hname, Datum.toName]

/-- The type of an item with `RealisedBy` stands at the first output port, if there is one. -/
private theorem Item.RealisedBy.outputType_eq {item : Item} {g : Graph} {defined : List Node}
    {n : Node} (h : item.RealisedBy g defined n) :
    n.outputType = if item.kind = .output then none else item.type := by
  have hlength := h.outputs_length
  unfold Node.outputType
  split
  · rename_i hnone
    -- without output ports the item is a model output
    have hkind : item.kind = .output := by
      by_contra hne
      have hpos := outputs_pos_iff.mpr hne
      rw [hnone, List.length_nil] at hlength
      omega
    rw [if_pos hkind]
  · rename_i port rest hports
    -- with a first output port it is not
    have hkind : item.kind ≠ .output := by
      rw [← outputs_pos_iff, ← hlength, hports, List.length_cons]
      omega
    rw [if_neg hkind]
    exact h.outputs_type port (by simp [hports])

/-- What `Item.ofNode` reads off the node of an item is the item. -/
private theorem Item.RealisedBy.ofNode_eq {item : Item} {g : Graph} {defined : List Node} {n : Node}
    (h : item.RealisedBy g defined n) (hdefined : ∀ n ∈ defined, n ∈ g.nodes.toList) :
    Item.ofNode g n = item.onPorts := by
  have hname : n.name.toName = item.name := by rw [h.name_eq, Datum.toName]
  have hinputs : item.inputs =
      (g.inputEdges n.id).map fun e => (g.nameOf e.source.node).toName := by
    rw [← List.forall₂_eq_eq_eq, List.forall₂_map_right_iff]
    exact (List.forall₂_map_right_iff.mp h.sources).imp
      fun _ _ hport => (toName_nameOf hdefined hport).symm
  rw [Item.ofNode, hname, ← hinputs, h.outputType_eq, h.op_eq, h.attrs_eq, Item.onPorts]

/-- `ofGraph` reads a blueprint off a graph that realises it, given the number of definitions. -/
theorem RealisedBy.ofGraph_eq {bp : Blueprint} {g : Graph} (h : bp.RealisedBy g) :
    ofGraph bp.definitions.length g = bp.onPorts := by
  have hdefined : ∀ n ∈ bp.definedIn g, n ∈ g.nodes.toList := fun n => mem_of_mem_definedIn
  have hread : bp.items.map Item.onPorts = g.nodes.toList.map (Item.ofNode g) := by
    rw [← List.forall₂_eq_eq_eq, List.forall₂_map_left_iff, List.forall₂_map_right_iff]
    exact h.nodes.imp fun _ _ hitem => (hitem.ofNode_eq hdefined).symm
  have hdefinitions : (g.nodes.toList.take bp.definitions.length).map (Item.ofNode g) =
      bp.definitions.map Item.onPorts := by
    rw [List.map_take, ← hread, ← List.map_take, items, List.take_left]
  have houtputs : (g.nodes.toList.drop bp.definitions.length).map (Item.ofNode g) =
      bp.outputs.map fun name => (Item.ofOutput name).onPorts := by
    rw [List.map_drop, ← hread, ← List.map_drop, items, List.drop_left, List.map_map]
    rfl
  -- each model output reads one node, the one that its entry names
  have hnames : (g.nodes.toList.drop bp.definitions.length).flatMap
      (fun n => (Item.ofNode g n).inputs) = bp.outputs := by
    rw [← List.flatMap_map, houtputs, List.flatMap_map]
    exact List.flatMap_singleton' bp.outputs
  rw [ofGraph, hdefinitions, hnames, h.name_eq, h.description_eq]
  rfl

end Blueprint

end TensorGraph
