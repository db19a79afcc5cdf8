import TensorGraph.Proofs.Validity

/-!
# What a graph computes

A rule that finds the value of a node from the values of the nodes that feed it has exactly one
solution on a well-formed graph: one sweep over the topological order finds it (`sweep_solves`), and
it is the only one (`Solves.unique`). The meaning of a graph is the solution of such a rule, for any
interpretation of the operators and any values of the inputs and constants.
-/

namespace TensorGraph.Graph

universe u

/-! ### Induction along edges -/

/-- What stands before a node in `topologicalOrder` is all that it depends on. -/
private theorem mem_of_topologicalOrder {g : Graph} (hg : g.WellFormed) {before after : List Node}
    {n : Node} (horder : g.topologicalOrder = before ++ n :: after) {id : String}
    (h : Relation.TransGen g.Feeds id n.id) : id ∈ before.map Node.id := by
  induction h using Relation.TransGen.head_induction_on with
  | single hfeeds =>
    obtain ⟨e, he, rfl, htarget⟩ := hfeeds
    exact source_mem_of_topologicalOrder hg.closed hg.acyclic horder
      (List.mem_filter.mpr ⟨he, by simpa using htarget⟩)
  | head hfeeds _ ih =>
    -- the node that it feeds stands before n, and so does what feeds that one
    obtain ⟨e, he, rfl, htarget⟩ := hfeeds
    rw [← htarget] at ih
    obtain ⟨m, hm, hid⟩ := List.mem_map.mp ih
    obtain ⟨first, between, rfl⟩ := List.append_of_mem hm
    rw [List.append_assoc, List.cons_append] at horder
    have hfirst := source_mem_of_topologicalOrder hg.closed hg.acyclic horder
      (List.mem_filter.mpr ⟨he, by simpa using hid.symm⟩)
    rw [List.map_append]
    exact List.mem_append_left _ hfirst

/-- In a `WellFormed` graph, what holds of a node as soon as it holds of all nodes that it depends
on holds of every node. -/
theorem WellFormed.induction {g : Graph} (hg : g.WellFormed) {P : Node → Prop}
    (hstep : ∀ n ∈ g.nodes.toList,
      (∀ m ∈ g.nodes.toList, Relation.TransGen g.Feeds m.id n.id → P m) → P n) :
    ∀ n ∈ g.nodes.toList, P n := by
  -- by induction along the topological order
  have hall : ∀ before after, g.topologicalOrder = before ++ after → ∀ n ∈ before, P n := by
    intro before
    induction before using List.reverseRecOn with
    | nil =>
      intro _ _ n hn
      cases hn
    | append_singleton before n ih =>
      intro after horder m hm
      rw [List.append_assoc, List.singleton_append] at horder
      have hbefore := ih (n :: after) horder
      have hmem : ∀ k ∈ before ++ n :: after, k ∈ g.nodes.toList := fun k hk =>
        g.topologicalOrder_perm.mem_iff.mp (horder ▸ hk)
      cases List.mem_append.mp hm with
      | inl hold => exact hbefore m hold
      | inr hlast =>
        rw [List.mem_singleton.mp hlast]
        refine hstep n (hmem n (List.mem_append_right _ List.mem_cons_self)) ?_
        intro k hk hreach
        -- what n depends on stands before it
        obtain ⟨p, hp, hid⟩ := List.mem_map.mp (mem_of_topologicalOrder hg horder hreach)
        exact NodeTable.eq_of_id_eq (hmem p (List.mem_append_left _ hp)) hk hid ▸ hbefore p hp
  intro n hn
  exact hall g.topologicalOrder [] (List.append_nil _).symm n
    (g.topologicalOrder_perm.mem_iff.mpr hn)

/-! ### Rules and their solutions -/

section
variable {V : Type u}

/-- Go through nodes in turn and give each the value that a rule finds from the values so far. -/
def sweep (rule : (String → V) → Node → V) (values : String → V) : List Node → String → V
  | [] => values
  | n :: rest => sweep rule (fun id => if id = n.id then rule values n else values id) rest

/-- The rule looks at the nodes that feed a node and at no others. -/
def Local (g : Graph) (rule : (String → V) → Node → V) : Prop :=
  ∀ n values others, (∀ e ∈ g.inputEdges n.id, values e.source.node = others e.source.node) →
    rule values n = rule others n

/-- Every node has the value that the rule finds. -/
def Solves (g : Graph) (rule : (String → V) → Node → V) (values : String → V) : Prop :=
  ∀ n ∈ g.nodes.toList, values n.id = rule values n

variable {g : Graph} {rule : (String → V) → Node → V}

/-- A `sweep` over two lists is one after the other. -/
private theorem sweep_append (rule : (String → V) → Node → V) (values : String → V)
    (before after : List Node) :
    sweep rule values (before ++ after) = sweep rule (sweep rule values before) after := by
  induction before generalizing values with
  | nil => rfl
  | cons n rest ih => exact ih _

/-- A `sweep` leaves the values of other nodes alone. -/
private theorem sweep_of_not_mem {values : String → V} {nodes : List Node} {id : String}
    (h : id ∉ nodes.map Node.id) : sweep rule values nodes id = values id := by
  induction nodes generalizing values with
  | nil => rfl
  | cons n rest ih =>
    rw [List.map_cons, List.mem_cons, not_or] at h
    rw [sweep, ih h.2, if_neg h.1]

/-- A `sweep` over `topologicalOrder` `Solves` a `Local` rule. -/
theorem sweep_solves (hg : g.WellFormed) (hlocal : g.Local rule) (start : String → V) :
    g.Solves rule (sweep rule start g.topologicalOrder) := by
  intro n hn
  obtain ⟨before, after, horder⟩ := List.append_of_mem (g.topologicalOrder_perm.mem_iff.mpr hn)
  have hnodup := g.topologicalOrder_ids_nodup
  rw [horder, List.map_append, List.map_cons] at hnodup
  obtain ⟨_, hlater, hacross⟩ := List.nodup_append.mp hnodup
  -- the value of n is set when the sweep comes to it, and not changed after that
  have hnew := (List.nodup_cons.mp hlater).1
  have hsplit := sweep_append rule start before (n :: after)
  rw [← horder] at hsplit
  rw [hsplit, sweep, sweep_of_not_mem hnew, if_pos rfl]
  -- what feeds n stands before it and keeps its value from then on
  apply hlocal
  intro e he
  have hsource := source_mem_of_topologicalOrder hg.closed hg.acyclic horder he
  have hne : e.source.node ≠ n.id := hacross _ hsource _ List.mem_cons_self
  have hafter : e.source.node ∉ after.map Node.id := fun hmem =>
    hacross _ hsource _ (List.mem_cons_of_mem _ hmem) rfl
  rw [sweep_of_not_mem hafter, if_neg hne]

/-- Where two assignments of values both solve a `Local` rule, they agree, if they do so on
everything that the nodes there depend on. -/
theorem unique_within (hg : g.WellFormed) (hlocal : g.Local rule) {values others : String → V}
    {S : Node → Prop} (hdown : ∀ m k, S m → Relation.TransGen g.Feeds k.id m.id → S k)
    (hvalues : ∀ m ∈ g.nodes.toList, S m → values m.id = rule values m)
    (hothers : ∀ m ∈ g.nodes.toList, S m → others m.id = rule others m) :
    ∀ m ∈ g.nodes.toList, S m → values m.id = others m.id := by
  refine hg.induction (P := fun m => S m → values m.id = others m.id) ?_
  intro m hm hbefore hS
  -- both solutions give m what the rule finds from the nodes that feed it
  rw [hvalues m hm hS, hothers m hm hS]
  apply hlocal
  intro e he
  obtain ⟨he, htarget⟩ := mem_inputEdges.mp he
  obtain ⟨p, hp⟩ := NodeTable.mem_ids_iff.mp (hg.closed e he).1
  have hid := NodeTable.id_eq_of_find? hp
  have hfeeds : Relation.TransGen g.Feeds p.id m.id := .single ⟨e, he, hid.symm, htarget⟩
  rw [← hid]
  exact hbefore p (NodeTable.mem_of_find? hp) hfeeds (hdown m p hS hfeeds)

/-- No two assignments of values `Solves` a `Local` rule. -/
theorem Solves.unique (hg : g.WellFormed) (hlocal : g.Local rule) {values others : String → V}
    (hvalues : g.Solves rule values) (hothers : g.Solves rule others) {n : Node}
    (hn : n ∈ g.nodes.toList) : values n.id = others n.id :=
  unique_within hg hlocal (S := fun _ => True) (fun _ _ _ _ => trivial) (fun m hm _ => hvalues m hm)
    (fun m hm _ => hothers m hm) n hn trivial

end

/-! ### Meaning -/

/-- What operators do: from a kind, its attributes and the values at the input ports, some of which
may be missing, to the values at the output ports. -/
abbrev Interpretation (V : Type u) := OpKind → Attributes → List (Option V) → List V

/-- Values at the output ports of inputs and constants, by id. -/
abbrev Assignment (V : Type u) := String → List V

variable {V : Type u}

/-- The value at an output port that an edge leaves. -/
def portValue (values : String → List V) (source : Endpoint) : Option V :=
  match source.index.integral? with
  | some i => if 0 ≤ i then (values source.node)[i.toNat]? else none
  | none => none

/-- The values at the input ports of a node: at each port, what the first edge into it brings. -/
def arriving (g : Graph) (values : String → List V) (n : Node) : List (Option V) :=
  (List.range n.inputs.length).map fun i =>
    ((g.inputEdges n.id).find? fun e => e.target.index.integral? = some (i : Int)).bind
      fun e => portValue values e.source

/-- The values at the output ports of a node. -/
def nodeValue (I : Interpretation V) (given : Assignment V) (g : Graph) (values : String → List V)
    (n : Node) : List V :=
  match n.op with
  | .input => given n.id
  | .constant => given n.id
  | op => I op n.attrs (g.arriving values n)

/-- The values at the output ports of all nodes. -/
def evaluate (I : Interpretation V) (given : Assignment V) (g : Graph) : String → List V :=
  sweep (nodeValue I given g) (fun _ => []) g.topologicalOrder

/-- `portValue` depends on the node and the index only. -/
theorem portValue_congr {values others : String → List V} {s t : Endpoint}
    (hnode : values s.node = others t.node) (hindex : s.index = t.index) :
    portValue values s = portValue others t := by
  simp only [portValue, hnode, hindex]

/-- `arriving` at a node depends on the nodes that feed it only. -/
private theorem arriving_congr {g : Graph} {values others : String → List V} {n : Node}
    (h : ∀ e ∈ g.inputEdges n.id, values e.source.node = others e.source.node) :
    g.arriving values n = g.arriving others n := by
  apply List.map_congr_left
  intro i _
  cases hfind : (g.inputEdges n.id).find? fun e => e.target.index.integral? = some (i : Int) with
  | none => rfl
  | some e =>
    exact portValue_congr (h e (List.mem_of_find?_eq_some hfind)) rfl

theorem nodeValue_local (I : Interpretation V) (given : Assignment V) (g : Graph) :
    g.Local (nodeValue I given g) := by
  intro n values others h
  simp only [nodeValue, arriving_congr h]

/-- `nodeValue` of a constant is what is given for it. -/
theorem nodeValue_of_constant (I : Interpretation V) (given : Assignment V) (g : Graph)
    (values : String → List V) {n : Node} (hop : n.op = .constant) :
    nodeValue I given g values n = given n.id := by
  simp only [nodeValue, hop]

/-- `evaluate` of a `WellFormed` graph `Solves` what its operators give. -/
theorem evaluate_solves (I : Interpretation V) (given : Assignment V) {g : Graph}
    (hg : g.WellFormed) : g.Solves (nodeValue I given g) (g.evaluate I given) :=
  sweep_solves hg (nodeValue_local I given g) _

/-- Whatever `Solves` the operators of a `WellFormed` graph is `evaluate`. -/
theorem evaluate_eq {I : Interpretation V} {given : Assignment V} {g : Graph} (hg : g.WellFormed)
    {values : String → List V} (h : g.Solves (nodeValue I given g) values) {n : Node}
    (hn : n ∈ g.nodes.toList) : g.evaluate I given n.id = values n.id :=
  (evaluate_solves I given hg).unique hg (nodeValue_local I given g) h hn

/-- `evaluate` depends on what is given for the inputs and constants of the graph only. -/
theorem evaluate_congr (I : Interpretation V) {given other : Assignment V} {g : Graph}
    (hg : g.WellFormed) (h : ∀ id ∈ g.nodes.ids, given id = other id) {n : Node}
    (hn : n ∈ g.nodes.toList) : g.evaluate I given n.id = g.evaluate I other n.id := by
  apply evaluate_eq hg _ hn
  intro m hm
  rw [evaluate_solves I other hg m hm]
  simp only [nodeValue, h m.id (List.mem_map_of_mem hm)]

end TensorGraph.Graph
