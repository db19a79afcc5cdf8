import TensorGraph.Proofs.Drafting

/-!
# Valid model descriptions

Which of the graphs that are made from model descriptions are valid can be told from the
descriptions. An edge runs from the node of a name to each node whose definition lists that name
(`RealisedBy.exists_reference`, `Item.RealisedBy.exists_edge`), so a cycle of edges is a cycle of
references (`RealisedBy.acyclic_iff`); and it runs from the first output port, which all nodes have
but model outputs (`RealisedBy.source_port_iff`). Everything else that is asked of a valid graph
holds of each of these graphs (`Graph.validate_ofModel_iff`).
-/

namespace TensorGraph

namespace Blueprint

/-- A definition refers to each name in its list of inputs. -/
def RefersTo (bp : Blueprint) (a b : String) : Prop :=
  ∃ item ∈ bp.definitions, item.name = a ∧ b ∈ item.inputs

/-- References do not run in a circle, and no list of inputs or outputs has the name of a model
output. -/
structure Valid (bp : Blueprint) : Prop where
  acyclic : ∀ name, ¬ Relation.TransGen bp.RefersTo name name
  inputs : ∀ item ∈ bp.definitions, item.kind = .output →
    ∀ other ∈ bp.definitions, item.name ∉ other.inputs
  outputs : ∀ item ∈ bp.definitions, item.kind = .output → item.name ∉ bp.outputs

/-! ### Nodes of definitions -/

/-- By `Item.RealisedBy` an input of an item stands for an edge into the item's node. -/
private theorem Item.RealisedBy.exists_edge {item : Item} {g : Graph} {defined : List Node}
    {n : Node} (h : item.RealisedBy g defined n) {name : String} (hname : name ∈ item.inputs) :
    ∃ e ∈ g.edges, e.target.node = n.id ∧ NamedPort defined name e.source := by
  obtain ⟨source, hsource, hport⟩ := exists_of_mem_left h.sources hname
  obtain ⟨e, he, rfl⟩ := List.mem_map.mp hsource
  obtain ⟨hedge, htarget⟩ := Graph.mem_inputEdges.mp he
  exact ⟨e, hedge, htarget, hport⟩

/-- By `Item.RealisedBy` an edge into an item's node stands for an input of the item. -/
private theorem Item.RealisedBy.exists_input {item : Item} {g : Graph} {defined : List Node}
    {n : Node} (h : item.RealisedBy g defined n) {e : Edge} (he : e ∈ g.edges)
    (htarget : e.target.node = n.id) :
    ∃ name ∈ item.inputs, NamedPort defined name e.source := by
  have hsource : e.source ∈ (g.inputEdges n.id).map Edge.source :=
    List.mem_map_of_mem (Graph.mem_inputEdges.mpr ⟨he, htarget⟩)
  exact exists_of_mem_right h.sources hsource

section
variable {bp : Blueprint} {g : Graph}

/-- Definitions are realised, one by one, by the nodes of `definedIn`. -/
theorem RealisedBy.definitions (h : bp.RealisedBy g) :
    List.Forall₂ (fun item n => item.RealisedBy g (bp.definedIn g) n) bp.definitions
      (bp.definedIn g) := by
  have htake := List.forall₂_take bp.definitions.length h.nodes
  rw [items, List.take_left] at htake
  exact htake

/-- No two nodes of `definedIn` have the same name. -/
private theorem RealisedBy.eq_of_name_eq (h : bp.RealisedBy g) {n m : Node}
    (hn : n ∈ bp.definedIn g) (hm : m ∈ bp.definedIn g) (hname : n.name = m.name) : n = m := by
  have hnodup : ((bp.definedIn g).map Node.name).Nodup := by
    rw [← map_name_eq h.definitions]
    exact h.names_nodup.map fun _ _ => Datum.str.inj
  exact List.inj_on_of_nodup_map hnodup hn hm hname

/-- In a graph with `RealisedBy` an edge comes from an input of an item. -/
private theorem RealisedBy.exists_reference (h : bp.RealisedBy g) {e : Edge} (he : e ∈ g.edges) :
    ∃ item ∈ bp.items, ∃ name ∈ item.inputs, NamedPort (bp.definedIn g) name e.source := by
  obtain ⟨n, hn, hid⟩ := List.mem_map.mp (h.edges e he)
  obtain ⟨item, hitem, hrealised⟩ := exists_of_mem_right h.nodes hn
  exact ⟨item, hitem, hrealised.exists_input he hid.symm⟩

/-- A name with a `NamedPort` is the name of a definition, and the edge comes from its node. -/
private theorem RealisedBy.exists_definition (h : bp.RealisedBy g) {name : String}
    {source : Endpoint} (hport : NamedPort (bp.definedIn g) name source) :
    ∃ item ∈ bp.definitions, item.name = name ∧ ∃ n ∈ bp.definedIn g,
      item.RealisedBy g (bp.definedIn g) n ∧ source = ⟨n.id, .int 0⟩ := by
  obtain ⟨n, hn, hname, hsource⟩ := hport
  obtain ⟨item, hitem, hrealised⟩ := exists_of_mem_right h.definitions hn
  have hsame := hrealised.name_eq.symm.trans hname
  exact ⟨item, hitem, Datum.str.inj hsame, n, hn, hrealised, hsource⟩

/-! ### Sources of edges -/

/-- The first output of a node is a port by `IsPort`, unless the node is a model output. -/
private theorem Item.RealisedBy.isPort_iff {item : Item} {defined : List Node} {n : Node}
    (h : item.RealisedBy g defined n) :
    Graph.IsPort (.int 0) n.outputs.length ↔ item.kind ≠ .output := by
  rw [← outputs_pos_iff, ← h.outputs_length]
  constructor
  · exact Graph.IsPort.pos
  · exact Graph.isPort_int

/-- Edges come from ports with `IsPort` if and only if no item reads a model output. -/
private theorem RealisedBy.source_port_iff (h : bp.RealisedBy g) :
    (∀ e ∈ g.edges, ∃ n, g.nodes.find? e.source.node = some n ∧
      Graph.IsPort e.source.index n.outputs.length) ↔
      ∀ item ∈ bp.definitions, item.kind = .output →
        ∀ other ∈ bp.items, item.name ∉ other.inputs := by
  constructor
  · intro hports item hitem hkind other hother hreads
    obtain ⟨m, hm, hother⟩ := exists_of_mem_left h.nodes hother
    obtain ⟨e, he, _, hport⟩ := hother.exists_edge hreads
    obtain ⟨found, hfound, hname, n, hn, hrealised, hsource⟩ := h.exists_definition hport
    -- names tell definitions apart, so the edge comes from this one
    cases List.inj_on_of_nodup_map h.names_nodup hfound hitem hname
    obtain ⟨k, hk, hindex⟩ := hports e he
    rw [hsource] at hk hindex
    cases (NodeTable.find?_of_mem (mem_of_mem_definedIn hn)).symm.trans hk
    exact hrealised.isPort_iff.mp hindex hkind
  · intro hreads e he
    obtain ⟨other, hother, name, hinput, hport⟩ := h.exists_reference he
    obtain ⟨item, hitem, rfl, n, hn, hrealised, hsource⟩ := h.exists_definition hport
    rw [hsource]
    refine ⟨n, NodeTable.find?_of_mem (mem_of_mem_definedIn hn), hrealised.isPort_iff.mpr ?_⟩
    intro hkind
    exact hreads item hitem hkind other hother hinput

/-! ### Cycles -/

/-- The node of the definition with a name has an id. -/
def HasId (bp : Blueprint) (g : Graph) (name id : String) : Prop :=
  ∃ n ∈ bp.definedIn g, n.name = .str name ∧ n.id = id

private theorem hasId_of_namedPort {name : String} {source : Endpoint}
    (h : NamedPort (bp.definedIn g) name source) : bp.HasId g name source.node := by
  obtain ⟨n, hn, hname, rfl⟩ := h
  exact ⟨n, hn, hname, rfl⟩

/-- A name `HasId` one id at most. -/
private theorem RealisedBy.id_unique (h : bp.RealisedBy g) {name u v : String}
    (hu : bp.HasId g name u) (hv : bp.HasId g name v) : u = v := by
  obtain ⟨n, hn, hname, rfl⟩ := hu
  obtain ⟨m, hm, hname', rfl⟩ := hv
  rw [h.eq_of_name_eq hn hm (hname.trans hname'.symm)]

/-- Only one name `HasId` an id. -/
private theorem name_unique {a b id : String} (ha : bp.HasId g a id) (hb : bp.HasId g b id) :
    a = b := by
  obtain ⟨n, hn, hname, hid⟩ := ha
  obtain ⟨m, hm, hname', hid'⟩ := hb
  have hsame : n = m := List.inj_on_of_nodup_map g.nodes.ids_nodup (mem_of_mem_definedIn hn)
    (mem_of_mem_definedIn hm) (hid.trans hid'.symm)
  rw [hsame, hname'] at hname
  exact (Datum.str.inj hname).symm

/-- What `Feeds` a node is the node of a definition. -/
private theorem RealisedBy.hasId_of_feeds (h : bp.RealisedBy g) {u v : String}
    (hfeeds : g.Feeds u v) :
    ∃ name, bp.HasId g name u := by
  obtain ⟨e, he, rfl, _⟩ := hfeeds
  obtain ⟨_, _, name, _, hport⟩ := h.exists_reference he
  exact ⟨name, hasId_of_namedPort hport⟩

/-- A definition that `RefersTo` another has a node. -/
private theorem RealisedBy.hasId_of_refersTo (h : bp.RealisedBy g) {a b : String}
    (hrefers : bp.RefersTo a b) :
    ∃ id, bp.HasId g a id := by
  obtain ⟨item, hitem, rfl, _⟩ := hrefers
  obtain ⟨n, hn, hrealised⟩ := exists_of_mem_left h.definitions hitem
  exact ⟨n.id, n, hn, hrealised.name_eq, rfl⟩

/-- Between the nodes of definitions `Feeds` runs against `RefersTo`. -/
private theorem RealisedBy.feeds_iff (h : bp.RealisedBy g) {a b u v : String} (ha : bp.HasId g a u)
    (hb : bp.HasId g b v) : g.Feeds u v ↔ bp.RefersTo b a := by
  constructor
  · intro hfeeds
    obtain ⟨e, he, rfl, htarget⟩ := hfeeds
    obtain ⟨n, hn, hname, rfl⟩ := hb
    -- the edge stands for an input of the item whose node it leads to
    obtain ⟨item, hitem, hrealised⟩ := exists_of_mem_right h.definitions hn
    obtain ⟨name, hinput, hport⟩ := hrealised.exists_input he htarget
    rw [name_unique ha (hasId_of_namedPort hport)]
    exact ⟨item, hitem, Datum.str.inj (hrealised.name_eq.symm.trans hname), hinput⟩
  · intro hrefers
    obtain ⟨item, hitem, rfl, hinput⟩ := hrefers
    -- the input stands for an edge, and names tell the nodes at its ends
    obtain ⟨n, hn, hrealised⟩ := exists_of_mem_left h.definitions hitem
    obtain ⟨e, he, htarget, hport⟩ := hrealised.exists_edge hinput
    refine ⟨e, he, ?_, ?_⟩
    · exact h.id_unique (hasId_of_namedPort hport) ha
    · rw [htarget]
      exact h.id_unique ⟨n, hn, hrealised.name_eq, rfl⟩ hb

/-- A chain of `Feeds` between the nodes of definitions is a chain of `RefersTo`: each edge in
between ends where another one comes from, so that there is a definition to refer to. -/
private theorem RealisedBy.refersTo_of_feeds (h : bp.RealisedBy g) {a b u v : String}
    (hfeeds : Relation.TransGen g.Feeds u v) (ha : bp.HasId g a u) (hb : bp.HasId g b v) :
    Relation.TransGen bp.RefersTo b a := by
  induction hfeeds generalizing b with
  | single hstep => exact .single ((h.feeds_iff ha hb).mp hstep)
  | tail _ hstep ih =>
    obtain ⟨c, hc⟩ := h.hasId_of_feeds hstep
    exact .head ((h.feeds_iff hc hb).mp hstep) (ih hc)

/-- A chain of `RefersTo` is a chain of `Feeds`: each definition in between refers to something, so
that it has a node. -/
private theorem RealisedBy.feeds_of_refersTo (h : bp.RealisedBy g) {a b u v : String}
    (hrefers : Relation.TransGen bp.RefersTo b a) (ha : bp.HasId g a u) (hb : bp.HasId g b v) :
    Relation.TransGen g.Feeds u v := by
  induction hrefers generalizing u with
  | single hstep => exact .single ((h.feeds_iff ha hb).mpr hstep)
  | tail _ hstep ih =>
    obtain ⟨w, hw⟩ := h.hasId_of_refersTo hstep
    exact .head ((h.feeds_iff ha hw).mpr hstep) (ih hw)

/-- The graph is `Acyclic` if and only if references do not run in a circle. -/
private theorem RealisedBy.acyclic_iff (h : bp.RealisedBy g) :
    g.Acyclic ↔ ∀ name, ¬ Relation.TransGen bp.RefersTo name name := by
  constructor
  · -- both ends of a circle are the same definition, which has a node since it refers to something
    intro hacyclic name hcycle
    obtain ⟨_, hstep, _⟩ := Relation.TransGen.head'_iff.mp hcycle
    obtain ⟨id, hid⟩ := h.hasId_of_refersTo hstep
    exact hacyclic id (h.feeds_of_refersTo hcycle hid hid)
  · intro hacyclic id hcycle
    obtain ⟨_, hstep, _⟩ := Relation.TransGen.head'_iff.mp hcycle
    obtain ⟨name, hname⟩ := h.hasId_of_feeds hstep
    exact hacyclic name (h.refersTo_of_feeds hcycle hname hname)

/-! ### Validity -/

/-- A blueprint is `Valid` if no item reads a model output and references do not run in a circle. -/
private theorem valid_iff :
    bp.Valid ↔
      (∀ item ∈ bp.definitions, item.kind = .output →
        ∀ other ∈ bp.items, item.name ∉ other.inputs) ∧
        ∀ name, ¬ Relation.TransGen bp.RefersTo name name := by
  constructor
  · intro h
    refine ⟨fun item hitem hkind other hother => ?_, h.acyclic⟩
    cases List.mem_append.mp hother with
    | inl hdefinition => exact h.inputs item hitem hkind other hdefinition
    | inr houtput =>
      -- what an entry of the list of outputs asks for reads the entry and nothing else
      obtain ⟨name, hname, rfl⟩ := List.mem_map.mp houtput
      intro hread
      rw [Item.ofOutput, List.mem_singleton] at hread
      exact h.outputs item hitem hkind (hread ▸ hname)
  · intro h
    obtain ⟨hreads, hacyclic⟩ := h
    refine ⟨hacyclic, fun item hitem hkind other hother => ?_, fun item hitem hkind houtput => ?_⟩
    · exact hreads item hitem hkind other (List.mem_append_left _ hother)
    · refine hreads item hitem hkind (Item.ofOutput item.name) ?_ List.mem_cons_self
      exact List.mem_append_right _ (List.mem_map_of_mem houtput)

/-- A graph that has been `Produced` from a blueprint is valid if and only if the blueprint is
`Valid`. -/
private theorem RealisedBy.validate_iff (h : bp.RealisedBy g) {ids : IdSource}
    (hg : g.Produced ids) :
    g.validate = .ok () ↔ bp.Valid := by
  rw [Graph.validate_eq_ok_iff,
    Graph.wellFormed_iff_of_fed hg.accounts.edgeIds_nodup hg.targets hg.fed,
    h.source_port_iff, h.acyclic_iff, valid_iff]

end

end Blueprint

namespace Graph

/-- A description that `ofModel` accepts says one thing, a `Blueprint`, and its graph is valid if
and only if that is. -/
theorem validate_ofModel_iff {model : Datum} {ids : IdSource} {g : Graph}
    (h : (Graph.ofModel model ids).1 = .ok g) :
    ∃ bp : Blueprint, bp.ReadFrom model ∧ (∀ other : Blueprint, other.ReadFrom model → other = bp) ∧
      (g.validate = .ok () ↔ bp.Valid) := by
  obtain ⟨bp, hread, hrealised, later, hproduced⟩ := Draft.exists_realised (build_of_ofModel h)
  exact ⟨bp, hread, fun other hother => hother.unique hread, hrealised.validate_iff hproduced⟩

/-- Two activations that read each other. -/
def loopModel : Datum :=
  .dict [("nodes", .list [
    .dict [("name", .str "a"), ("op", .str "ReLU"), ("inputs", .list [.str "b"])],
    .dict [("name", .str "b"), ("op", .str "ReLU"), ("inputs", .list [.str "a"])]])]

/-- What the description of the two activations says. -/
def loopBlueprint : Blueprint :=
  ⟨"graph", "", [⟨"a", .relu, ["b"], none, Dict.empty⟩, ⟨"b", .relu, ["a"], none, Dict.empty⟩], []⟩

private theorem readFrom_loopModel : loopBlueprint.ReadFrom loopModel :=
  ⟨rfl, rfl, ⟨_, rfl, .cons ⟨⟨_, rfl, rfl⟩, rfl, rfl, rfl, [], rfl, rfl⟩
    (.cons ⟨⟨_, rfl, rfl⟩, rfl, rfl, rfl, [], rfl, rfl⟩ .nil)⟩, rfl⟩

/-- The definitions of `loopBlueprint` refer to each other in a circle. -/
private theorem loopBlueprint_not_valid : ¬ loopBlueprint.Valid := by
  intro hvalid
  have hfirst : loopBlueprint.RefersTo "a" "b" := ⟨_, List.mem_cons_self, rfl, List.mem_cons_self⟩
  have hsecond : loopBlueprint.RefersTo "b" "a" :=
    ⟨_, List.mem_cons_of_mem _ List.mem_cons_self, rfl, List.mem_cons_self⟩
  exact hvalid.acyclic "a" (.head hfirst (.single hsecond))

/-- The description `loopModel` is accepted, but its graph is not valid, as `loopBlueprint` is
not. -/
theorem validate_ofModel_loop :
    ∃ g, (Graph.ofModel loopModel ⟨0⟩).1 = .ok g ∧ (g.validate = .ok () ↔ loopBlueprint.Valid) ∧
      g.validate ≠ .ok () := by
  have hok : ∃ g, (Graph.ofModel loopModel ⟨0⟩).1 = .ok g := ⟨_, rfl⟩
  obtain ⟨g, hg⟩ := hok
  obtain ⟨bp, _, hunique, hvalid⟩ := validate_ofModel_iff hg
  cases hunique loopBlueprint readFrom_loopModel
  exact ⟨g, hg, hvalid, fun hvalidate => loopBlueprint_not_valid (hvalid.mp hvalidate)⟩

end Graph

end TensorGraph
