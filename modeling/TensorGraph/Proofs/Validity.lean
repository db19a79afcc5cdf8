import TensorGraph.Proofs.NodeTable
import TensorGraph.Proofs.PortIndex
import TensorGraph.Proofs.Search

/-!
# What validation accepts

`Graph.WellFormed` says in words of its own what a valid graph is: distinct edge ids, edges between
existing ports, no cycle. `validate_eq_ok_iff` shows that validation accepts exactly the well-formed
graphs. Later modules reason about well-formedness and never open the search for faults.
-/

namespace TensorGraph

/-- Two nodes have equally many input ports and equally many output ports. -/
def Node.SamePorts (n m : Node) : Prop :=
  m.inputs.length = n.inputs.length ∧ m.outputs.length = n.outputs.length

namespace Graph

/-- A graph that is fit to be transformed and planned. -/
structure WellFormed (g : Graph) : Prop where
  edgeIds_nodup : (g.edges.map Edge.id).Nodup
  source_port : ∀ e ∈ g.edges,
    ∃ n, g.nodes.find? e.source.node = some n ∧ IsPort e.source.index n.outputs.length
  target_port : ∀ e ∈ g.edges,
    ∃ n, g.nodes.find? e.target.node = some n ∧ IsPort e.target.index n.inputs.length
  acyclic : g.Acyclic

/-- An edge of a `WellFormed` graph ends in nodes of the graph. -/
theorem WellFormed.closed {g : Graph} (h : g.WellFormed) : g.Closed := by
  intro e he
  obtain ⟨n, hn, _⟩ := h.source_port e he
  obtain ⟨m, hm, _⟩ := h.target_port e he
  exact ⟨NodeTable.mem_ids_of_find? hn, NodeTable.mem_ids_of_find? hm⟩

/-! ### Faults of edges -/

/-- `sourceFault` finds no fault exactly if the source of the edge is an output port. -/
theorem sourceFault_eq_ok_nil_iff {g : Graph} {e : Edge} :
    g.sourceFault e = .ok [] ↔
      ∃ n, g.nodes.find? e.source.node = some n ∧ IsPort e.source.index n.outputs.length := by
  unfold sourceFault IsPort
  cases hfind : g.nodes.find? e.source.node with
  | none => simp
  | some n =>
    cases hport : namesPort e.source.index n.outputs.length with
    | error _ => simp [hport, bind, Except.bind]
    | ok b => cases b <;> simp [hport, bind, Except.bind, pure, Except.pure]

/-- `targetFault` finds no fault exactly if the target of the edge is an input port. -/
theorem targetFault_eq_ok_nil_iff {g : Graph} {e : Edge} :
    g.targetFault e = .ok [] ↔
      ∃ n, g.nodes.find? e.target.node = some n ∧ IsPort e.target.index n.inputs.length := by
  unfold targetFault IsPort
  cases hfind : g.nodes.find? e.target.node with
  | none => simp
  | some n =>
    cases hport : namesPort e.target.index n.inputs.length with
    | error _ => simp [hport, bind, Except.bind]
    | ok b => cases b <;> simp [hport, bind, Except.bind, pure, Except.pure]

/-- `edgeFaults` finds nothing exactly if the first edge adds no fault, and the others have none. -/
private theorem edgeFaults_cons_eq_ok_nil_iff {g : Graph} {seen : List String} {e : Edge}
    {rest : List Edge} :
    g.edgeFaults seen (e :: rest) = .ok [] ↔
      e.id ∉ seen ∧ g.sourceFault e = .ok [] ∧ g.targetFault e = .ok [] ∧
        g.edgeFaults (e.id :: seen) rest = .ok [] := by
  rw [edgeFaults]
  -- each of the checks can fail, and all are made before the answer
  cases hs : g.sourceFault e with
  | error _ => simp [bind, Except.bind]
  | ok source =>
    cases ht : g.targetFault e with
    | error _ => simp [bind, Except.bind]
    | ok target =>
      cases hr : g.edgeFaults (e.id :: seen) rest with
      | error _ => simp [bind, Except.bind]
      | ok others =>
        by_cases hseen : e.id ∈ seen <;> simp [bind, Except.bind, pure, Except.pure, hseen]

/-- `edgeFaults` finds nothing exactly if the ids of the edges are distinct and new, and every edge
runs from an output port to an input port. -/
theorem edgeFaults_eq_ok_nil_iff {g : Graph} {seen : List String} {edges : List Edge} :
    g.edgeFaults seen edges = .ok [] ↔
      (edges.map Edge.id).Nodup ∧ (∀ e ∈ edges, e.id ∉ seen) ∧
        ∀ e ∈ edges, g.sourceFault e = .ok [] ∧ g.targetFault e = .ok [] := by
  induction edges generalizing seen with
  | nil => simp [edgeFaults]
  | cons e rest ih =>
    -- an id is new among those of the rest and of the edges seen before
    rw [edgeFaults_cons_eq_ok_nil_iff, ih, List.map_cons, List.nodup_cons, List.forall_mem_cons,
      List.forall_mem_cons]
    simp only [List.mem_cons, not_or, List.mem_map, not_exists, not_and]
    constructor
    · intro h
      obtain ⟨hnew, hs, ht, hnodup, hseen, hends⟩ := h
      exact ⟨⟨fun x hx => (hseen x hx).1, hnodup⟩, ⟨hnew, fun x hx => (hseen x hx).2⟩, ⟨hs, ht⟩,
        hends⟩
    · intro h
      obtain ⟨⟨hne, hnodup⟩, ⟨hnew, hseen⟩, ⟨hs, ht⟩, hends⟩ := h
      exact ⟨hnew, hs, ht, hnodup, fun x hx => ⟨hne x hx, hseen x hx⟩, hends⟩

/-- Where `edgeFaults` finds nothing no edge dangles. -/
private theorem closed_of_edgeFaults {g : Graph} (h : g.edgeFaults [] g.edges = .ok []) :
    g.Closed := by
  rw [edgeFaults_eq_ok_nil_iff] at h
  simp only [sourceFault_eq_ok_nil_iff, targetFault_eq_ok_nil_iff] at h
  intro e he
  obtain ⟨⟨n, hn, _⟩, m, hm, _⟩ := h.2.2 e he
  exact ⟨NodeTable.mem_ids_of_find? hn, NodeTable.mem_ids_of_find? hm⟩

/-! ### Validation -/

/-- `validate` accepts exactly the graphs in which `edgeFaults` and `findCycle` find nothing. -/
theorem validate_eq_ok_iff_search {g : Graph} :
    g.validate = .ok () ↔ g.edgeFaults [] g.edges = .ok [] ∧ g.findCycle = none := by
  unfold validate
  split
  · rename_i hfaults
    simp [hfaults]
  · rename_i hfaults
    cases hcycle : g.findCycle <;> simp [hfaults]
  · -- there are faults, so neither side holds
    rename_i faults hne hfaults
    simp only [hfaults, Except.ok.injEq, reduceCtorEq, false_iff, not_and]
    intro hnil
    exact absurd hnil (by simpa using hne)

/-- `validate` accepts exactly the `WellFormed` graphs. -/
theorem validate_eq_ok_iff {g : Graph} : g.validate = .ok () ↔ g.WellFormed := by
  rw [validate_eq_ok_iff_search]
  constructor
  · intro h
    obtain ⟨hfaults, hcycle⟩ := h
    -- without faults no edge dangles, so the search for a cycle can be trusted
    have hcycle := (findCycle_eq_none_iff (closed_of_edgeFaults hfaults)).mp hcycle
    rw [edgeFaults_eq_ok_nil_iff] at hfaults
    simp only [sourceFault_eq_ok_nil_iff, targetFault_eq_ok_nil_iff] at hfaults
    obtain ⟨hnodup, _, hends⟩ := hfaults
    exact ⟨hnodup, fun e he => (hends e he).1, fun e he => (hends e he).2, hcycle⟩
  · intro h
    -- both parts of validation are read off well-formedness
    rw [edgeFaults_eq_ok_nil_iff]
    simp only [sourceFault_eq_ok_nil_iff, targetFault_eq_ok_nil_iff]
    refine ⟨⟨h.edgeIds_nodup, by simp, fun e he => ⟨h.source_port e he, h.target_port e he⟩⟩, ?_⟩
    exact (findCycle_eq_none_iff h.closed).mpr h.acyclic

/-- `validate` accepts a graph without faulty edges if each edge leads up in some rank. -/
theorem validate_of_rank {g : Graph} (rank : String → Nat)
    (hfaults : g.edgeFaults [] g.edges = .ok [])
    (hrank : ∀ e ∈ g.edges, rank e.source.node < rank e.target.node) : g.validate = .ok () := by
  have hcycle := (findCycle_eq_none_iff (closed_of_edgeFaults hfaults)).mpr
    (acyclic_of_rank rank hrank)
  exact validate_eq_ok_iff_search.mpr ⟨hfaults, hcycle⟩

/-- `validate` accepts a graph without faulty edges if each edge leads to a node that was put in
later. -/
theorem validate_of_forward {g : Graph} (hfaults : g.edgeFaults [] g.edges = .ok [])
    (hforward : ∀ e ∈ g.edges,
      g.nodes.ids.idxOf e.source.node < g.nodes.ids.idxOf e.target.node) :
    g.validate = .ok () :=
  validate_of_rank (fun id => g.nodes.ids.idxOf id) hfaults hforward

/-! ### Parts of a well-formed graph -/

/-- A graph is `WellFormed` if its edges are edges of a `WellFormed` graph and end in the same nodes
there. -/
theorem WellFormed.of_subset {g h : Graph} (hg : g.WellFormed)
    (hnodup : (h.edges.map Edge.id).Nodup) (hedges : h.edges ⊆ g.edges)
    (hsource : ∀ e ∈ h.edges, ∀ n, g.nodes.find? e.source.node = some n →
      h.nodes.find? e.source.node = some n)
    (htarget : ∀ e ∈ h.edges, ∀ n, g.nodes.find? e.target.node = some n →
      h.nodes.find? e.target.node = some n) :
    h.WellFormed where
  edgeIds_nodup := hnodup
  source_port := by
    intro e he
    -- the edge was there, and so were the nodes at its ends
    obtain ⟨n, hn, hport⟩ := hg.source_port e (hedges he)
    exact ⟨n, hsource e he n hn, hport⟩
  target_port := by
    intro e he
    obtain ⟨n, hn, hport⟩ := hg.target_port e (hedges he)
    exact ⟨n, htarget e he n hn, hport⟩
  acyclic := by
    refine hg.acyclic.mono ?_
    intro u v hfeeds
    obtain ⟨e, he, hends⟩ := hfeeds
    exact ⟨e, hedges he, hends⟩

/-- A graph stays `WellFormed` when nodes and edges are dropped, as long as every edge that stays
keeps both its ends. -/
theorem WellFormed.restrict {g : Graph} (hg : g.WellFormed) (keep : Node → Bool)
    (keepEdge : Edge → Bool)
    (hsource : ∀ e ∈ g.edges, keepEdge e = true → ∀ n, g.nodes.find? e.source.node = some n →
      keep n = true)
    (htarget : ∀ e ∈ g.edges, keepEdge e = true → ∀ n, g.nodes.find? e.target.node = some n →
      keep n = true) :
    ({ g with nodes := g.nodes.filter keep, edges := g.edges.filter keepEdge } :
      Graph).WellFormed := by
  refine hg.of_subset (hg.edgeIds_nodup.sublist (List.filter_sublist.map Edge.id))
    (List.filter_subset_self _) ?_ ?_
  · intro e he n hn
    -- an edge that is kept has both of its ends kept
    obtain ⟨hmem, hkeep⟩ := List.mem_filter.mp he
    exact NodeTable.find?_filter_eq_some_iff.mpr ⟨hn, hsource e hmem hkeep n hn⟩
  · intro e he n hn
    obtain ⟨hmem, hkeep⟩ := List.mem_filter.mp he
    exact NodeTable.find?_filter_eq_some_iff.mpr ⟨hn, htarget e hmem hkeep n hn⟩

/-- A graph stays `WellFormed` when nodes and edges are changed in place, as long as nodes keep
their ports and edges keep their ids and ends. -/
theorem WellFormed.update {g h : Graph} (hg : g.WellFormed) (f : Edge → Edge)
    (hedges : h.edges = g.edges.map f)
    (hf : ∀ e, (f e).id = e.id ∧ (f e).source = e.source ∧ (f e).target = e.target)
    (hnodes : ∀ id n, g.nodes.find? id = some n →
      ∃ m, h.nodes.find? id = some m ∧ n.SamePorts m) : h.WellFormed where
  edgeIds_nodup := by
    have hids : h.edges.map Edge.id = g.edges.map Edge.id := by
      rw [hedges, List.map_map]
      exact List.map_congr_left fun e _ => (hf e).1
    rw [hids]
    exact hg.edgeIds_nodup
  source_port := by
    intro e he
    rw [hedges] at he
    obtain ⟨e₀, he₀, rfl⟩ := List.mem_map.mp he
    obtain ⟨n, hn, hport⟩ := hg.source_port e₀ he₀
    obtain ⟨m, hm, hports⟩ := hnodes _ n hn
    rw [(hf e₀).2.1]
    -- as many output ports as before, so the index still names one
    exact ⟨m, hm, hports.2 ▸ hport⟩
  target_port := by
    intro e he
    rw [hedges] at he
    obtain ⟨e₀, he₀, rfl⟩ := List.mem_map.mp he
    obtain ⟨n, hn, hport⟩ := hg.target_port e₀ he₀
    obtain ⟨m, hm, hports⟩ := hnodes _ n hn
    rw [(hf e₀).2.2]
    exact ⟨m, hm, hports.1 ▸ hport⟩
  acyclic := by
    refine hg.acyclic.mono ?_
    intro u v hfeeds
    obtain ⟨e, he, hu, hv⟩ := hfeeds
    rw [hedges] at he
    -- an edge of the new graph has the ends of the old edge that it comes from
    obtain ⟨e₀, he₀, rfl⟩ := List.mem_map.mp he
    rw [(hf e₀).2.1] at hu
    rw [(hf e₀).2.2] at hv
    exact ⟨e₀, he₀, hu, hv⟩

/-- A graph stays `WellFormed` when its nodes and edges are put in another order. -/
theorem WellFormed.of_perm {g h : Graph} (hg : g.WellFormed)
    (hnodes : h.nodes.toList.Perm g.nodes.toList) (hedges : h.edges.Perm g.edges) :
    h.WellFormed := by
  have hfind : ∀ id n, g.nodes.find? id = some n → h.nodes.find? id = some n := by
    intro id n hn
    rw [NodeTable.find?_eq_some_iff] at hn ⊢
    exact ⟨hnodes.mem_iff.mpr hn.1, hn.2⟩
  exact hg.of_subset ((hedges.map Edge.id).nodup_iff.mpr hg.edgeIds_nodup) hedges.subset
    (fun _ _ n hn => hfind _ n hn) (fun _ _ n hn => hfind _ n hn)

/-! ### An example -/

/-- A node of `scaledLayer`, with as many input ports as given and one output port. -/
def layerNode (id : String) (op : OpKind) (arity : Nat) : Node :=
  { id := id
    op := op
    name := .str id
    inputs := List.replicate arity ⟨.str "in", none⟩
    outputs := [⟨.str "out", some ⟨.float32, [2, 2]⟩⟩] }

/-- An edge of `scaledLayer`. -/
def layerEdge (id source target : String) (port : Int) : Edge :=
  ⟨id, ⟨source, .int 0⟩, ⟨target, .int port⟩, none⟩

/-- A dense layer whose weights are the product of two constants, one of which is its bias too. -/
def scaledLayer : Graph where
  id := "g_1"
  nodes :=
    ⟨[layerNode "x_2" .input 0, layerNode "w_3" .constant 0, layerNode "c_4" .constant 0,
      layerNode "k_5" .mul 2, layerNode "m_6" .matMul 2, layerNode "a_7" .add 2,
      layerNode "r_8" .relu 1, layerNode "y_9" .output 1], by decide⟩
  edges :=
    [layerEdge "e_10" "w_3" "k_5" 0, layerEdge "e_11" "c_4" "k_5" 1,
     layerEdge "e_12" "x_2" "m_6" 0, layerEdge "e_13" "k_5" "m_6" 1,
     layerEdge "e_14" "m_6" "a_7" 0, layerEdge "e_15" "c_4" "a_7" 1,
     layerEdge "e_16" "a_7" "r_8" 0, layerEdge "e_17" "r_8" "y_9" 0]

theorem validate_scaledLayer : scaledLayer.validate = .ok () :=
  validate_of_forward rfl (by decide)

end Graph

end TensorGraph
