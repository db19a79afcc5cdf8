import TensorGraph.Proofs.Conforming
import TensorGraph.Proofs.FusionRun

/-!
# The ports of a fused node

A fused node takes over the input ports of the first node of its chain, with the edges into them,
and gets one more port for each edge from outside into a later node
(`length_inputs_of_contractEdges`). Each of these ports is fed by the edge that it was made for and
by no other (`countP_leadsTo_of_contractEdges`). In a graph that keeps to the conventions a later
node has one edge for each of its ports, and one of these edges comes from the chain. So each later
node adds fewer ports than it has itself (`Fuses.length_inputs_le`), and the catalogue leaves room
for these.
-/

namespace TensorGraph.Graph

/-! ### Edges into ports -/

/-- What is `whole?` is `integral?`, and the same number. -/
theorem integral?_of_whole? {d : Datum} {i : Int} (h : d.whole? = some i) :
    d.integral? = some i := by
  cases d with
  | bool => exact h
  | int => exact h
  | _ => cases h

/-- Whether an edge leads to an input port. -/
def leadsTo (id : String) (index : Nat) (e : Edge) : Bool :=
  e.target.node = id ∧ e.target.index.integral? = some (index : Int)

private theorem length_edgesInto (g : Graph) (id : String) (index : Nat) :
    (g.edgesInto id index).length = g.edges.countP (leadsTo id index) :=
  List.countP_eq_length_filter.symm

/-- In a `WellFormed` graph that is `Indexed`, the index at which an edge ends is the position of a
port. -/
private theorem Indexed.exists_port {g : Graph} (hindexed : g.Indexed) (hg : g.WellFormed)
    {n : Node} (hn : n ∈ g.nodes.toList) {e : Edge} (he : e ∈ g.inputEdges n.id) :
    ∃ i < n.inputs.length, e.target.index.integral? = some (i : Int) := by
  obtain ⟨he, htarget⟩ := mem_inputEdges.mp he
  obtain ⟨i, hi⟩ := hindexed e he
  obtain ⟨m, hm, hport⟩ := hg.target_port e he
  rw [htarget, NodeTable.find?_of_mem hn] at hm
  cases hm
  -- the index is an integer, and within the ports as the edge is that of a well-formed graph
  obtain ⟨hnonneg, hlt⟩ := (isPort_iff_of_whole? hi).mp hport
  refine ⟨i.toNat, by omega, ?_⟩
  rw [integral?_of_whole? hi, Int.toNat_of_nonneg hnonneg]

/-- No more edges lead to a node that is `Supplied` than it has ports. -/
private theorem Supplied.length_inputEdges_le {g : Graph} (hg : g.WellFormed) (hindexed : g.Indexed)
    {n : Node} (hn : n ∈ g.nodes.toList) (h : g.Supplied n) :
    (g.inputEdges n.id).length ≤ n.inputs.length := by
  -- every edge leads into some port
  have hports : ∀ e ∈ g.inputEdges n.id,
      ∃ i ∈ List.range n.inputs.length, leadsTo n.id i e = true := by
    intro e he
    obtain ⟨i, hi, hindex⟩ := hindexed.exists_port hg hn he
    exact ⟨i, List.mem_range.mpr hi, by simp [leadsTo, hindex, (mem_inputEdges.mp he).2]⟩
  -- the edges are counted port by port, with one for each
  calc (g.inputEdges n.id).length
      ≤ ((List.range n.inputs.length).map fun i =>
          (g.inputEdges n.id).countP (leadsTo n.id i)).sum := length_le_sum_countP hports
    _ ≤ ((List.range n.inputs.length).map fun _ => 1).sum := by
        refine List.sum_le_sum fun i hi => ?_
        rw [← h.fed_once i (List.mem_range.mp hi), length_edgesInto]
        exact List.filter_sublist.countP_le
    _ = n.inputs.length := by simp

/-! ### Ports that are made for edges -/

section
variable {g : Graph} {chain : List String} {first last fused : String}

/-- `contractEdges` leads one edge to each port that is new, none else from the ports of the first
node on. -/
private theorem countP_leadsTo_of_contractEdges {least : Nat} {inputs : List Port} {es : List Edge}
    {c : Contraction} (h : g.contractEdges chain first last fused inputs es = .ok c)
    (hle : least ≤ inputs.length) (hold : ∀ e ∈ es, e.target.node ≠ fused)
    (hentry : ∀ e ∈ es, ∀ i : Nat, leadsTo first i e = true → i < least) {i : Nat}
    (hi : least ≤ i) :
    c.edges.countP (leadsTo fused i) =
      if inputs.length ≤ i ∧ i < c.inputs.length then 1 else 0 := by
  induction es generalizing inputs c with
  | nil =>
    cases h
    rw [if_neg (by dsimp only; omega)]
    rfl
  | cons e rest ih =>
    obtain ⟨hnew, hold⟩ := List.forall_mem_cons.mp hold
    obtain ⟨hfirst, hentry⟩ := List.forall_mem_cons.mp hentry
    cases contractStep_of_contractEdges h with
    | drop _ hrest => exact ih hrest hle hold hentry
    | move new tail hmoves hrest hc =>
      have hnone : leadsTo fused i new = false := by
        obtain ⟨_, htarget⟩ | ⟨hnode, htarget⟩ | ⟨_, _, _, hlt, _⟩ := (hmoves 0).target_eq
        · simp [leadsTo, htarget, hnew]
        · -- the edge leads to a port of the first node, and those come before
          have hearly := hfirst i
          simp only [leadsTo, hnode, htarget] at hearly ⊢
          by_contra hleads
          exact absurd (hearly (by simpa using hleads)) (by omega)
        · omega
      rw [hc]
      show (new :: tail.edges).countP _ = if _ ∧ i < tail.inputs.length then 1 else 0
      rw [List.countP_cons_of_neg (by simp [hnone])]
      exact ih hrest hle hold hentry
    | attach port tail hrole _ hrest hc =>
      -- the edge leads to the port that comes next, and none of the later edges does
      have hrest' := ih hrest (by rw [List.length_append]; omega) hold hentry
      have hlength := length_inputs_le_of_contractEdges hrest
      rw [List.length_append, List.length_singleton] at hrest' hlength
      rw [hc]
      show (_ :: tail.edges).countP _ =
        if inputs.length ≤ i ∧ i < tail.inputs.length then 1 else 0
      have hleads : leadsTo fused i (e.withTarget fused (some (.int inputs.length))) = true ↔
          inputs.length = i := by
        simp only [leadsTo, Edge.withTarget, Option.getD_some, Datum.integral?, true_and,
          Option.some.injEq, Int.natCast_inj, decide_eq_true_eq]
      rw [List.countP_cons, hrest', if_congr hleads rfl rfl]
      by_cases hnext : inputs.length = i
      · rw [if_neg (by omega), if_pos hnext, if_pos (by omega)]
      · rw [if_neg hnext, Nat.add_zero]
        exact if_congr (by omega) rfl rfl

end

/-! ### One fusion -/

namespace Fuses

variable {g h : Graph} {pattern : FusionPattern} {chain : List Node} {first last new : Node}
variable (hf : g.Fuses pattern chain first last new h)
include hf

/-- The edges and the new node come from one run of `contractEdges`. -/
theorem exists_contraction : ∃ c, g.contractEdges (chain.map Node.id) first.id last.id new.id
    first.inputs g.edges = .ok c ∧ c.inputs = new.inputs ∧ c.edges = h.edges := by
  obtain ⟨c, name, hc, _, hh⟩ := contract_eq_ok hf.contract_eq
  refine ⟨c, hc, ?_, by rw [hh]⟩
  -- the node that the contraction makes has the id of the new one
  have hmem : fusedNode chain first last pattern new.id name c.inputs ∈ h.nodes.toList := by
    rw [hh]
    exact NodeTable.mem_of_find? (NodeTable.find?_insert _ _ _ |>.trans (if_pos rfl))
  obtain heq | ⟨hold, _⟩ := hf.mem_nodes_iff.mp hmem
  · exact congrArg Node.inputs heq
  · exact absurd (List.mem_map_of_mem hold) hf.new_id

section
variable (hg : g.WellFormed)
include hg

/-- A fusion leaves `edgesInto` a port of a node outside the chain as they were, but for their
sources. -/
theorem edgesInto_outside {id : String} (hid : id ∈ g.nodes.ids) (hout : id ∉ chain.map Node.id)
    (i : Nat) :
    List.Forall₂ (g.MovesTo chain first last new) (g.edgesInto id i) (h.edgesInto id i) := by
  have hnew := hf.ne_new hid
  refine hf.filter_lands hg ?_ ?_
  · -- edges within the chain do not lead here
    intro old _ _ htarget
    have hne : old.target.node ≠ id := fun heq => hout (heq ▸ htarget)
    simp [hne]
  · intro old _ moved hlands
    -- an edge that leads here has not been moved, and none is moved to here
    obtain ⟨_, heq⟩ | ⟨hfirst, heq⟩ | ⟨hin, _, _, _, _, heq, _⟩ := hlands.target_cases
    · rw [heq]
    · have hne : first.id ≠ id := fun heq => hout (heq ▸ List.mem_map_of_mem hf.first_mem)
      simp [heq, hfirst, hne, hnew.symm]
    · have hne : old.target.node ≠ id := fun heq => hout (heq ▸ hin)
      simp [heq, hne, hnew.symm]

/-- `edgesInto` a port that the new node has from the first one are those from before. -/
theorem edgesInto_entry {i : Nat} (hi : i < first.inputs.length) :
    List.Forall₂ (g.MovesTo chain first last new) (g.edgesInto first.id i)
      (h.edgesInto new.id i) := by
  refine hf.filter_lands hg ?_ ?_
  · intro old hold hsource htarget
    -- no edge of the chain leads to its first node
    obtain ⟨_, hout⟩ | ⟨_, _, hne⟩ := hf.source_cases hg hold hsource
    · exact absurd htarget hout
    · simp [hne]
  · intro old hold moved hlands
    obtain ⟨hout, heq⟩ | ⟨hfirst, heq⟩ | ⟨_, hne, j, _, hle, heq, _⟩ := hlands.target_cases
    · have hne : old.target.node ≠ first.id := fun heq =>
        hout (heq ▸ List.mem_map_of_mem hf.first_mem)
      have hne' := hf.ne_new (hg.closed old hold).2
      simp [heq, hne, hne']
    · simp [heq, hfirst]
    · -- a port that was made for an edge comes after those of the first node
      have hlate : (j : Int) ≠ i := by omega
      simp [heq, hne, Datum.integral?, hlate]

/-- Nodes outside the chain stay `Supplied`. -/
theorem supplied_outside {n : Node} (hn : n ∈ g.nodes.toList) (hout : n.id ∉ chain.map Node.id)
    (hs : g.Supplied n) : h.Supplied n where
  arity := hs.arity
  fed_once := by
    intro i hi
    rw [← (hf.edgesInto_outside hg (List.mem_map_of_mem hn) hout i).length_eq]
    exact hs.fed_once i hi

/-- A later node that is `Supplied` has fewer edges from outside than ports, since the chain feeds
one of them. -/
private theorem countP_side_lt (hindexed : g.Indexed) {n : Node} (hn : n ∈ chain.tail)
    (hs : g.Supplied n) :
    (g.inputEdges n.id).countP (fun e => edgeRole (chain.map Node.id) first.id last.id e = .side) <
      n.inputs.length := by
  have hmem := hf.unbranched.mem_nodes n (List.mem_of_mem_tail hn)
  refine Nat.lt_of_lt_of_le ?_ (hs.length_inputEdges_le hg hindexed hmem)
  have hlater : n.id ∈ (chain.map Node.id).tail := by
    rw [← List.map_tail]
    exact List.mem_map_of_mem hn
  obtain ⟨u, hnext⟩ := exists_neighbour_before hlater
  have hu := (mem_of_mem_neighbours hnext).1
  obtain ⟨e, hout, htarget⟩ := rel_of_mem_neighbours hf.unbranched.links hnext
  obtain ⟨he, hsource⟩ := mem_outputEdges.mp (hout ▸ List.mem_singleton_self e)
  have hlink : edgeRole (chain.map Node.id) first.id last.id e = .inner :=
    (hf.edgeRole_eq_inner_iff hg he).mpr ⟨hsource ▸ hu, htarget ▸ List.mem_of_mem_tail hlater⟩
  -- if all edges came from outside, so would the link
  refine Nat.lt_of_le_of_ne List.countP_le_length fun hall => ?_
  have hside := List.countP_eq_length.mp hall e (mem_inputEdges.mpr ⟨he, htarget⟩)
  simp [hlink] at hside

/-- The new node has the `inputs` of the first one, and of each later node at most all ports
but one. -/
private theorem length_inputs_le (hindexed : g.Indexed) (hs : ∀ n ∈ chain, g.Supplied n) :
    new.inputs.length ≤
      first.inputs.length + (chain.tail.map fun n => n.inputs.length - 1).sum := by
  obtain ⟨c, hc, hinputs, _⟩ := hf.exists_contraction
  rw [← hinputs, length_inputs_of_contractEdges hc, List.countP_eq_length_filter]
  apply Nat.add_le_add_left
  -- each port is made for an edge into one of the later nodes
  have hlater : ∀ e ∈ g.edges.filter (fun e =>
      edgeRole (chain.map Node.id) first.id last.id e = .side), ∃ n ∈ chain.tail,
        decide (e.target.node = n.id) = true := by
    intro e he
    obtain ⟨_, htarget, hne⟩ :=
      edgeRole_eq_side_iff.mp (of_decide_eq_true (List.mem_filter.mp he).2)
    obtain ⟨n, hn, hid⟩ := List.mem_map.mp htarget
    obtain ⟨rest, hchain⟩ := List.head?_eq_some_iff.mp hf.head_eq
    rw [hchain, List.mem_cons] at hn
    obtain rfl | hn := hn
    · exact absurd hid.symm hne
    · exact ⟨n, by rwa [hchain, List.tail_cons], by simp [hid]⟩
  refine Nat.le_trans (length_le_sum_countP hlater) (List.sum_le_sum fun n hn => ?_)
  have hlt := hf.countP_side_lt hg hindexed hn (hs n (List.mem_of_mem_tail hn))
  rw [inputEdges, List.countP_filter] at hlt
  rw [List.countP_filter]
  simp only [Bool.and_comm] at hlt ⊢
  omega

/-- Only one edge leads `edgesInto` each of the ports that the new node does not have from the
first one. -/
private theorem length_edgesInto_extra (hindexed : g.Indexed) {i : Nat}
    (hle : first.inputs.length ≤ i) (hlt : i < new.inputs.length) :
    (h.edgesInto new.id i).length = 1 := by
  obtain ⟨c, hc, hinputs, hedges⟩ := hf.exists_contraction
  have hmem := hf.unbranched.mem_nodes first hf.first_mem
  -- no edge into the first node can be taken for one into an extra port
  have hentry : ∀ e ∈ g.edges, ∀ j : Nat, leadsTo first.id j e = true →
      j < first.inputs.length := by
    intro e he j hleads
    obtain ⟨htarget, hindex⟩ := of_decide_eq_true hleads
    obtain ⟨k, hk, hport⟩ := hindexed.exists_port hg hmem (mem_inputEdges.mpr ⟨he, htarget⟩)
    rw [hindex, Option.some.injEq, Int.natCast_inj] at hport
    omega
  have hcount := countP_leadsTo_of_contractEdges hc (Nat.le_refl _)
    (fun e he => hf.ne_new (hg.closed e he).2) hentry hle
  rw [hinputs, hedges, if_pos ⟨hle, hlt⟩] at hcount
  rw [length_edgesInto, hcount]

/-- The new node is `Supplied` if its kind leaves room for the ports of the chain. -/
theorem supplied_new (hindexed : g.Indexed) (hs : ∀ n ∈ chain, g.Supplied n)
    (hleast : pattern.fused.signature.leastInputs ≤ first.op.signature.leastInputs)
    (hmost : first.op.signature.mostInputs +
      (pattern.ops.tail.map fun kind => kind.signature.mostInputs - 1).sum ≤
        pattern.fused.signature.mostInputs) : h.Supplied new where
  arity := by
    obtain ⟨hfirstLeast, hfirstMost⟩ := (hs first hf.first_mem).arity_bounds
    have hprefix := hf.inputs_prefix.length_le
    have hle := hf.length_inputs_le hg hindexed hs
    -- a later node has no more ports than its kind allows
    have hroom : (chain.tail.map fun n => n.inputs.length - 1).sum ≤
        (pattern.ops.tail.map fun kind => kind.signature.mostInputs - 1).sum := by
      rw [← hf.kinds, ← List.map_tail, List.map_map]
      refine List.sum_le_sum fun n hn => ?_
      rw [Function.comp_apply]
      have hbound := (hs n (List.mem_of_mem_tail hn)).arity_bounds.2
      omega
    rw [hf.new_op, Signature.accepts, Bool.and_eq_true, decide_eq_true_eq, decide_eq_true_eq]
    omega
  fed_once := by
    intro i hi
    by_cases hentry : i < first.inputs.length
    · rw [← (hf.edgesInto_entry hg hentry).length_eq]
      exact (hs first hf.first_mem).fed_once i hentry
    · exact hf.length_edgesInto_extra hg hindexed (by omega) hi

omit hg in
/-- A fusion leaves a graph `Indexed`: moved edges are told by integers where they lead to, as they
were before. -/
theorem indexed (hindexed : g.Indexed) : h.Indexed := by
  intro moved hmoved
  obtain ⟨old, hold, hlands⟩ := hf.exists_old_edge hmoved
  obtain ⟨_, heq⟩ | ⟨_, heq⟩ | ⟨_, _, i, _, _, heq, _⟩ := hlands.target_cases
  · rw [heq]
    exact hindexed old hold
  · rw [heq]
    exact hindexed old hold
  · -- an edge from the side has a new index, which is a number
    rw [heq]
    exact ⟨i, rfl⟩

end

end Fuses

end TensorGraph.Graph
