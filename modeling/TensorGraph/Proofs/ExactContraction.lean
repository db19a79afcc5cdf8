import TensorGraph.Proofs.FusionPorts

/-!
# Fusing a chain is contracting it

What one fusion does to the edges of a graph, and to its paths (`ContractsTo`). Of the edges exactly
the links of the chain go: one for each pair of neighbours in it, since the only edge out of a node
of the chain leads to the next one (`Fuses.links_perm`). All others stay in their order and keep
what does not lie in the chain. The edges into later nodes of the chain come to the ports behind
those of the first node, one port after the other (`Fuses.later_targets`). Paths between nodes
outside the chain are neither made nor lost, and the new node takes the place that the last node of
the chain had on them.

The edges at later nodes are what makes this work out: a path into the middle of a chain goes on to
its end, as no node before the end has another way out.
-/

namespace TensorGraph

/-- The nodes that an edge runs from and to. -/
def Edge.ends (e : Edge) : String × String := (e.source.node, e.target.node)

namespace Graph

/-! ### Ports for edges into later nodes -/

/-- `contractEdges` leads the edges into later nodes to the ports that are appended, in their
order. -/
private theorem sideTargets_of_contractEdges {g : Graph} {chain : List String}
    {first last fused : String} {inputs : List Port} {es : List Edge} {c : Contraction}
    (h : g.contractEdges chain first last fused inputs es = .ok c) :
    ((((es.filter fun e => edgeRole chain first last e != .inner).zip c.edges).filter fun p =>
      edgeRole chain first last p.1 = .side).map fun p => p.2.target) =
        (List.range' inputs.length (c.inputs.length - inputs.length)).map fun i =>
          ⟨fused, .int (i : Nat)⟩ := by
  induction es generalizing inputs c with
  | nil =>
    cases h
    simp
  | cons e rest ih =>
    cases contractStep_of_contractEdges h with
    | drop hrole hrest => simpa [hrole] using ih hrest
    | move new tail hmoves hrest hc =>
      have hside : edgeRole chain first last e ≠ .side := ne_side_of_moves hmoves
      have hinner : edgeRole chain first last e ≠ .inner := by
        intro hrole
        have hmove := hmoves 0
        rw [hrole] at hmove
        exact hmove
      rw [hc]
      show _ = (List.range' inputs.length (tail.inputs.length - inputs.length)).map _
      rw [← ih hrest]
      simp [hside, hinner, Contraction.cons]
    | attach port tail hrole _ hrest hc =>
      -- the port of this edge comes first, those of the later edges follow it
      have hlength := length_inputs_le_of_contractEdges hrest
      have hports := ih hrest
      rw [List.length_append, List.length_singleton] at hlength hports
      have hcount : tail.inputs.length - inputs.length =
          tail.inputs.length - (inputs.length + 1) + 1 := by omega
      rw [hc]
      show _ = (List.range' inputs.length (tail.inputs.length - inputs.length)).map _
      rw [hcount, List.range'_succ, List.map_cons, ← hports]
      simp [hrole, Contraction.cons, Edge.withTarget]

/-! ### What a contraction is -/

/-- What becomes of an edge when a chain is contracted to a new node: it keeps its id and its type,
and an end that does not lie in the chain. An edge out of the chain leaves its last node, and keeps
the port it comes from; an edge into the first node keeps the port that it leads to. -/
structure Carried (chain : List String) (first last new : String) (old moved : Edge) : Prop where
  id_eq : moved.id = old.id
  type_eq : moved.type = old.type
  source_outside : old.source.node ∉ chain → moved.source = old.source
  source_inside : old.source.node ∈ chain →
    old.source.node = last ∧ moved.source = ⟨new, old.source.index⟩
  target_outside : old.target.node ∉ chain → moved.target = old.target
  target_first : old.target.node = first → moved.target = ⟨new, old.target.index⟩
  target_later : old.target.node ∈ chain → old.target.node ≠ first → moved.target.node = new

/-- The second graph is the first one with a chain contracted to a new node. -/
structure ContractsTo (g : Graph) (chain : List Node) (first last new : Node)
    (h : Graph) : Prop where
  /-- The new node comes last, behind the nodes outside the chain. -/
  nodes_eq : h.nodes.toList =
    (g.nodes.toList.filter fun n => n.id ∉ chain.map Node.id) ++ [new]
  /-- The edges that go are the links: one for each pair of neighbours in the chain. -/
  links_perm :
    ((g.edges.filter fun e => e.ends ∈ neighbours (chain.map Node.id)).map Edge.ends).Perm
      (neighbours (chain.map Node.id))
  /-- All other edges stay, in their order. -/
  edges_carried : List.Forall₂ (Carried (chain.map Node.id) first.id last.id new.id)
    (g.edges.filter fun e => e.ends ∉ neighbours (chain.map Node.id)) h.edges
  /-- The new node has the ports of the first one, and behind them one for each edge into a later
  node. -/
  inputs_prefix : first.inputs <+: new.inputs
  later_targets :
    ((((g.edges.filter fun e => e.ends ∉ neighbours (chain.map Node.id)).zip h.edges).filter
      fun p => p.1.target.node ∈ (chain.map Node.id).tail).map fun p => p.2.target) =
        (List.range' first.inputs.length (new.inputs.length - first.inputs.length)).map fun i =>
          ⟨new.id, .int (i : Nat)⟩
  /-- Nodes outside the chain reach each other as before. -/
  reaches_iff : ∀ u ∈ g.nodes.ids, u ∉ chain.map Node.id →
    ∀ v ∈ g.nodes.ids, v ∉ chain.map Node.id →
    (Relation.ReflTransGen h.Feeds u v ↔ Relation.ReflTransGen g.Feeds u v)
  /-- They reach the new node if they reached the last node of the chain, and the other way
  round. -/
  reaches_new_iff : ∀ u ∈ g.nodes.ids, u ∉ chain.map Node.id →
    (Relation.ReflTransGen h.Feeds u new.id ↔ Relation.ReflTransGen g.Feeds u last.id)
  new_reaches_iff : ∀ v ∈ g.nodes.ids, v ∉ chain.map Node.id →
    (Relation.ReflTransGen h.Feeds new.id v ↔ Relation.ReflTransGen g.Feeds last.id v)

/-! ### A fusion is a contraction -/

namespace Fuses

variable {g h : Graph} {pattern : FusionPattern} {chain : List Node} {first last new : Node}
variable (hf : g.Fuses pattern chain first last new h) (hg : g.WellFormed)
include hf

/-- An edge that `MovesTo` another is `Carried` over, each end lying either outside the chain or at
one of its nodes. -/
theorem carried {old moved : Edge} (hlands : g.MovesTo chain first last new old moved) :
    Carried (chain.map Node.id) first.id last.id new.id old moved where
  id_eq := hlands.1.id_type_eq.1
  type_eq := hlands.1.id_type_eq.2
  source_outside := by
    intro hout
    -- a source outside is not moved, and one inside is that of the last node
    obtain ⟨_, heq⟩ | ⟨hlast, _⟩ := hlands.1.source_eq
    · exact heq
    · exact absurd (hlast ▸ List.mem_map_of_mem hf.last_mem) hout
  source_inside := by
    intro hin
    obtain ⟨hout, _⟩ | hexit := hlands.1.source_eq
    · exact absurd hin hout
    · exact hexit
  target_outside := by
    intro hout
    -- three kinds of targets: outside, the first node, and later ones
    obtain ⟨_, heq⟩ | ⟨hfirst, _⟩ | ⟨hin, _⟩ := hlands.target_cases
    · exact heq
    · exact absurd (hfirst ▸ List.mem_map_of_mem hf.first_mem) hout
    · exact absurd hin hout
  target_first := by
    intro hfirst
    obtain ⟨hout, _⟩ | ⟨_, heq⟩ | ⟨_, hne, _⟩ := hlands.target_cases
    · exact absurd (hfirst ▸ List.mem_map_of_mem hf.first_mem) hout
    · exact heq
    · exact absurd hfirst hne
  target_later := by
    intro hin hne
    obtain ⟨hout, _⟩ | ⟨hfirst, _⟩ | ⟨_, _, i, _, _, heq, _⟩ := hlands.target_cases
    · exact absurd hin hout
    · exact absurd hfirst hne
    · rw [heq]

include hg

/-- The edges that go with the chain, by `edgeRole`, are those between `neighbours`. -/
private theorem edgeRole_eq_inner_iff_link {e : Edge} (he : e ∈ g.edges) :
    edgeRole (chain.map Node.id) first.id last.id e = .inner ↔
      e.ends ∈ neighbours (chain.map Node.id) := by
  rw [hf.edgeRole_eq_inner_iff hg he]
  constructor
  · intro h
    obtain ⟨hsource, htarget⟩ := h
    obtain ⟨_, hout⟩ | ⟨hne, _⟩ := hf.source_cases hg he hsource
    · exact absurd htarget hout
    · have hids : (chain.map Node.id).getLast? = some last.id := by simp [hf.last_eq]
      obtain ⟨v, hnext⟩ := exists_neighbour_after hids hsource hne
      -- the only edge out of the source leads to its neighbour
      obtain ⟨e', hout, hv⟩ := rel_of_mem_neighbours hf.unbranched.links hnext
      have hmem : e ∈ g.outputEdges e.source.node := mem_outputEdges.mpr ⟨he, rfl⟩
      rw [hout, List.mem_singleton] at hmem
      rw [Edge.ends, hmem, hv, ← hmem]
      exact hnext
  · intro hlink
    obtain ⟨hsource, htarget⟩ := mem_of_mem_neighbours hlink
    exact ⟨hsource, List.mem_of_mem_tail htarget⟩

/-- The edges that stay, by `edgeRole`, are those that are no links. -/
private theorem filter_not_inner :
    (g.edges.filter fun e => edgeRole (chain.map Node.id) first.id last.id e != .inner) =
      g.edges.filter fun e => e.ends ∉ neighbours (chain.map Node.id) := by
  apply List.filter_congr
  intro e he
  rw [Bool.eq_iff_iff, bne_iff_ne, decide_eq_true_iff, ne_eq, hf.edgeRole_eq_inner_iff_link hg he]

/-- There is one link for each pair of `neighbours` in the chain. -/
private theorem links_perm :
    ((g.edges.filter fun e => e.ends ∈ neighbours (chain.map Node.id)).map Edge.ends).Perm
      (neighbours (chain.map Node.id)) := by
  rw [List.perm_iff_count]
  intro pair
  rw [List.count_eq_countP, List.countP_map, List.countP_filter]
  by_cases hpair : pair ∈ neighbours (chain.map Node.id)
  · -- the edges between the two are among those out of the first, of which there is one
    obtain ⟨e, hout, htarget⟩ := rel_of_mem_neighbours hf.unbranched.links hpair
    have hone : g.edges.countP (fun e => e.ends = pair) =
        (g.outputEdges pair.1).countP fun e => e.target.node = pair.2 := by
      rw [outputEdges, List.countP_filter]
      apply List.countP_congr
      intro e _
      simp [Edge.ends, Prod.ext_iff, and_comm]
    rw [List.count_eq_one_of_mem (nodup_neighbours (hf.ids_nodup hg)) hpair]
    calc g.edges.countP _ = g.edges.countP (fun e => e.ends = pair) := by
          apply List.countP_congr
          intro e _
          simp only [Function.comp_apply, Bool.and_eq_true, beq_iff_eq, decide_eq_true_eq]
          exact ⟨fun h => h.1, fun h => ⟨h, h ▸ hpair⟩⟩
      _ = 1 := by rw [hone, hout]; simp [htarget]
  · rw [List.count_eq_zero_of_not_mem hpair, List.countP_eq_zero]
    intro e _ hboth
    simp only [Function.comp_apply, Bool.and_eq_true, beq_iff_eq, decide_eq_true_eq] at hboth
    exact hpair (hboth.1 ▸ hboth.2)

/-- The edges into later nodes of a chain that `Fuses` come to the ports behind those of the first
node, in their order. -/
private theorem later_targets :
    ((((g.edges.filter fun e => e.ends ∉ neighbours (chain.map Node.id)).zip h.edges).filter
      fun p => p.1.target.node ∈ (chain.map Node.id).tail).map fun p => p.2.target) =
        (List.range' first.inputs.length (new.inputs.length - first.inputs.length)).map fun i =>
          ⟨new.id, .int (i : Nat)⟩ := by
  obtain ⟨c, hc, hinputs, hedges⟩ := hf.exists_contraction
  have hports := sideTargets_of_contractEdges hc
  rw [hinputs, hedges, hf.filter_not_inner hg] at hports
  rw [← hports]
  congr 1
  apply List.filter_congr
  intro p hp
  -- an edge that stays leads to a later node of the chain if it is given a port of its own
  obtain ⟨he, hlink⟩ := List.mem_filter.mp (List.of_mem_zip hp).1
  obtain ⟨rest, hchain⟩ := List.head?_eq_some_iff.mp hf.head_eq
  have hnodup := hf.ids_nodup hg
  have hinner : ¬ (p.1.source.node ∈ chain.map Node.id ∧ p.1.target.node ∈ chain.map Node.id) := by
    rw [← hf.edgeRole_eq_inner_iff hg he, hf.edgeRole_eq_inner_iff_link hg he]
    simpa using hlink
  have hlater : p.1.target.node ∈ (chain.map Node.id).tail ↔
      p.1.target.node ∈ chain.map Node.id ∧ p.1.target.node ≠ first.id := by
    rw [hchain, List.map_cons, List.nodup_cons] at hnodup
    rw [hchain, List.map_cons, List.tail_cons, List.mem_cons]
    constructor
    · intro hin
      exact ⟨Or.inr hin, fun heq => hnodup.1 (heq ▸ hin)⟩
    · intro hin
      exact hin.1.resolve_left hin.2
  rw [Bool.eq_iff_iff, decide_eq_true_iff, decide_eq_true_iff, edgeRole_eq_side_iff, hlater]
  constructor
  · intro hin
    exact ⟨fun hsource => hinner ⟨hsource, hin.1⟩, hin⟩
  · intro hrole
    exact hrole.2

/-- A graph that `Fuses` is one that `ContractsTo` the other. A path is carried over in both
directions, with the new node in the place of the nodes of the chain. -/
private theorem contractsTo : g.ContractsTo chain first last new h where
  nodes_eq := by
    -- what is not on the chain stays, in the order of the table
    rw [hf.nodes_eq]
    congr 1
    apply List.filter_congr
    intro n _
    rw [decide_not, List.contains_eq_mem]
  links_perm := hf.links_perm hg
  edges_carried := by
    rw [← hf.filter_not_inner hg]
    exact hf.edges_land.imp fun _ _ hlands => hf.carried hlands
  inputs_prefix := hf.inputs_prefix
  later_targets := hf.later_targets hg
  reaches_iff := by
    -- the new node stands for the whole chain, so paths go on through it
    intro u hu huout v hv hvout
    constructor
    · intro hreach
      have hold := hf.reaches_of_fused hg hreach
      rwa [if_neg (hf.ne_new hu), if_neg (hf.ne_new hv)] at hold
    · intro hreach
      have hnew := hf.reaches_contractId hg hreach
      rwa [contractId_of_not_mem huout, contractId_of_not_mem hvout] at hnew
  reaches_new_iff := by
    intro u hu huout
    constructor
    · intro hreach
      -- to reach the new node is to reach the last node of the chain
      have hold := hf.reaches_of_fused hg hreach
      rwa [if_neg (hf.ne_new hu), if_pos rfl] at hold
    · intro hreach
      have hnew := hf.reaches_contractId hg hreach
      rwa [contractId_of_not_mem huout, contractId_of_mem (List.mem_map_of_mem hf.last_mem)] at hnew
  new_reaches_iff := by
    intro v hv hvout
    constructor
    · intro hreach
      -- what the new node reaches, the last node reaches
      have hold := hf.reaches_of_fused hg hreach
      rwa [if_pos rfl, if_neg (hf.ne_new hv)] at hold
    · intro hreach
      have hnew := hf.reaches_contractId hg hreach
      rwa [contractId_of_mem (List.mem_map_of_mem hf.last_mem), contractId_of_not_mem hvout] at hnew

end Fuses

/-- `fuseChain` on a chain that is found in a valid graph, to a node with an id that is new,
contracts the chain as `ContractsTo` says, whatever the pattern: exactly the links of the chain go,
all other edges stay in their order, with their ids, types, ends outside the chain and ports, edges
into later nodes coming to ports of their own behind those of the first node, and paths outside the
chain are what they were. And `fuseChain` does give a graph, if names are texts and port indices
integers. -/
theorem fuseChain_contracts_exactly {g : Graph} {start : String} {ops : List OpKind}
    {chain : List Node} {ids : IdSource} (pattern : FusionPattern) (hvalid : g.validate = .ok ())
    (hops : ops ≠ []) (hfind : g.findChain start ops = some chain)
    (hnew : (ids.next "fused").1 ∉ g.nodes.ids) :
    (∀ h, (g.fuseChain chain pattern ids).1 = .ok h → ∃ first last new,
      chain.head? = some first ∧ chain.getLast? = some last ∧ new.id = (ids.next "fused").1 ∧
        g.ContractsTo chain first last new h) ∧
      (g.Plain → ∃ h, (g.fuseChain chain pattern ids).1 = .ok h) := by
  have hg := validate_eq_ok_iff.mp hvalid
  have hchain := (findChain_unbranched hops hfind).2
  have hkinds := map_op_of_findChain hfind
  constructor
  · intro h hok
    -- only the name and the new kind of a pattern matter once the chain has been found
    have hkinds' : chain.map Node.op = ({ pattern with ops := ops } : FusionPattern).ops := hkinds
    obtain ⟨_, first, last, new, hid, hf⟩ := exists_fuses_of_unbranched hnew hchain hkinds' hok
    exact ⟨first, last, new, hf.head_eq, hf.last_eq, hid, hf.contractsTo hg⟩
  · intro hplain
    have hne : chain ≠ [] := by
      rintro rfl
      exact hops hkinds.symm
    exact fuseChain_eq_ok hg hplain hchain hne pattern ids

/-- In `scaledLayer` the matrix product and the sum are a chain, and the constant that is added
comes in at its later node. -/
theorem fuseChain_scaledLayer_contracts_exactly :
    scaledLayer.validate = .ok () ∧
      scaledLayer.findChain "m_6" [.matMul, .add] =
        some [layerNode "m_6" .matMul 2, layerNode "a_7" .add 2] ∧
      (IdSource.next ⟨17⟩ "fused").1 ∉ scaledLayer.nodes.ids ∧
      ∃ h first last new,
        (scaledLayer.fuseChain [layerNode "m_6" .matMul 2, layerNode "a_7" .add 2]
          ⟨.str "MatMul + Add", [.matMul, .add], .fusedMatMulAdd⟩ ⟨17⟩).1 = .ok h ∧
        scaledLayer.ContractsTo [layerNode "m_6" .matMul 2, layerNode "a_7" .add 2]
          first last new h := by
  have hfind : scaledLayer.findChain "m_6" [.matMul, .add] =
      some [layerNode "m_6" .matMul 2, layerNode "a_7" .add 2] := by decide
  have hnew := freshFor_scaledLayer.next_not_mem "fused"
  -- the chain is a match, and the next id is new
  obtain ⟨hcontracts, hexists⟩ := fuseChain_contracts_exactly
    ⟨.str "MatMul + Add", [.matMul, .add], .fusedMatMulAdd⟩ validate_scaledLayer
    (by simp) hfind hnew
  obtain ⟨h, hok⟩ := hexists plain_scaledLayer
  obtain ⟨first, last, new, _, _, _, hto⟩ := hcontracts h hok
  exact ⟨validate_scaledLayer, hfind, hnew, h, first, last, new, hok, hto⟩

end Graph

end TensorGraph
