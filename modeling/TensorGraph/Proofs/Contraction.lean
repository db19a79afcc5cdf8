import TensorGraph.Proofs.Fusion
import TensorGraph.Proofs.Lists
import TensorGraph.Proofs.Liveness

/-!
# What a fusion does to a graph

`Fuses` says all there is to say about one fusion: the nodes outside the chain stay in their order
and the new node comes last; the edges stay in their order, each moved by its role (`Lands`), and
only the links of the chain go. Sending the chain to the new node (`contractId`) turns edges into
edges, and sending the new node to the last node of the chain turns edges into paths. Hence a node
is live after the fusion exactly if it was live before (`Fuses.live_iff`).
-/

namespace TensorGraph

namespace Graph

/-! ### Edges in order -/

variable {g : Graph} {chain : List String} {first last fused : String}

/-- An edge moves by its role; an edge into a later node of the chain comes to the port that was
made for it. -/
def Lands (g : Graph) (chain : List String) (first last fused : String) (least : Nat)
    (inputs : List Port) (old new : Edge) : Prop :=
  (edgeRole chain first last old).Moves fused least inputs.length old new ∧
    (edgeRole chain first last old = .side → ∃ (i : Nat) (port : Port),
      new.target.index = .int i ∧ inputs[i]? = some port ∧ g.sidePort old = .ok port)

/-- Where an edge that `Lands` leads, and what is known of the port that is made for an edge into a
later node of the chain. -/
theorem Lands.target_cases {least : Nat} {inputs : List Port} {old new : Edge}
    (h : g.Lands chain first last fused least inputs old new) :
    (old.target.node ∉ chain ∧ new.target = old.target) ∨
      (old.target.node = first ∧ new.target = ⟨fused, old.target.index⟩) ∨
      (old.target.node ∈ chain ∧ old.target.node ≠ first ∧ ∃ (i : Nat) (port : Port), least ≤ i ∧
        new.target = ⟨fused, .int i⟩ ∧ inputs[i]? = some port ∧ g.sidePort old = .ok port) := by
  obtain ⟨hmoves, hside⟩ := h
  by_cases hrole : edgeRole chain first last old = .side
  · obtain ⟨_, hin, hne⟩ := edgeRole_eq_side_iff.mp hrole
    rw [hrole] at hmoves
    obtain ⟨i, hleast, _, rfl⟩ := hmoves
    obtain ⟨j, port, hindex, hport, hok⟩ := hside hrole
    -- the index of the moved edge is the position of its port
    cases hindex
    exact Or.inr (Or.inr ⟨hin, hne, i, port, hleast, rfl, hport, hok⟩)
  · -- for the other roles there is nothing to know but where the edge leads
    have hspec := edgeRole_spec chain first last old
    cases hother : edgeRole chain first last old with
    | outside =>
      rw [hother] at hmoves hspec
      cases hmoves
      exact Or.inl ⟨hspec.2, rfl⟩
    | entry =>
      rw [hother] at hmoves hspec
      cases hmoves
      exact Or.inr (Or.inl ⟨hspec.2, rfl⟩)
    | exit =>
      rw [hother] at hmoves hspec
      cases hmoves
      exact Or.inl ⟨hspec.2, rfl⟩
    | side => exact absurd hother hrole
    | inner =>
      rw [hother] at hmoves
      cases hmoves

/-- `contractEdges` puts the ports that it adds after those of the first node. -/
private theorem inputs_prefix_of_contractEdges {inputs : List Port} {es : List Edge}
    {c : Contraction} (h : g.contractEdges chain first last fused inputs es = .ok c) :
    inputs <+: c.inputs := by
  induction es generalizing inputs c with
  | nil =>
    cases h
    exact List.prefix_refl _
  | cons e rest ih =>
    cases contractStep_of_contractEdges h with
    | drop _ hrest => exact ih hrest
    | move new tail _ hrest hc =>
      -- a moved edge brings no port
      have hprefix := ih hrest
      rw [hc]
      exact hprefix
    | attach port tail _ _ hrest hc =>
      -- an edge from the side brings one port, after those that were there
      have hprefix := ih hrest
      rw [hc]
      exact (List.prefix_append _ _).trans hprefix

/-- The edges that `contractEdges` leaves are the old ones without those that go with the chain, in
their order, and each `Lands` by its role. -/
theorem lands_of_contractEdges {inputs : List Port} {es : List Edge} {c : Contraction}
    (h : g.contractEdges chain first last fused inputs es = .ok c) :
    List.Forall₂ (g.Lands chain first last fused inputs.length c.inputs)
      (es.filter fun e => edgeRole chain first last e != .inner) c.edges := by
  induction es generalizing inputs c with
  | nil =>
    cases h
    exact .nil
  | cons e rest ih =>
    cases contractStep_of_contractEdges h with
    | drop hrole hrest => simpa [hrole] using ih hrest
    | move new tail hmoves hrest hc =>
      -- only inner edges have no place to move to
      have hinner : edgeRole chain first last e ≠ .inner := by
        intro hrole
        have hmove := hmoves 0
        rw [hrole] at hmove
        exact hmove
      rw [List.filter_cons_of_pos (by simpa using hinner), hc]
      exact .cons ⟨hmoves _, fun hrole => absurd hrole (ne_side_of_moves hmoves)⟩ (ih hrest)
    | attach port tail hrole hport hrest hc =>
      -- the port comes next, and ports that come later do not push it away
      obtain ⟨extra, hextra⟩ := inputs_prefix_of_contractEdges hrest
      have hat : tail.inputs[inputs.length]? = some port := by
        rw [← hextra]
        simp
      have hlt : inputs.length < tail.inputs.length := (List.getElem?_eq_some_iff.mp hat).1
      rw [List.filter_cons_of_pos (by simp [hrole]), hc]
      refine .cons ⟨?_, fun _ => ⟨inputs.length, port, rfl, hat, hport⟩⟩ ?_
      · rw [hrole]
        exact ⟨inputs.length, Nat.le_refl _, hlt, rfl⟩
      · refine (ih hrest).imp fun old new hlands => ⟨hlands.1.mono ?_, hlands.2⟩
        simp

/-! ### One fusion -/

section
variable {h : Graph} {pattern : FusionPattern} {chain : List Node} {first last new : Node}

/-- An edge becomes another one when a chain is contracted to a new node, which has the ports of the
first node and maybe more. -/
abbrev MovesTo (g : Graph) (chain : List Node) (first last new : Node) : Edge → Edge → Prop :=
  g.Lands (chain.map Node.id) first.id last.id new.id first.inputs.length new.inputs

/-- The second graph is the first one with an unbranched chain, of the kinds of a pattern,
contracted to a new node. -/
structure Fuses (g : Graph) (pattern : FusionPattern) (chain : List Node) (first last new : Node)
    (h : Graph) : Prop where
  unbranched : g.Unbranched chain
  kinds : chain.map Node.op = pattern.ops
  head_eq : chain.head? = some first
  last_eq : chain.getLast? = some last
  new_id : new.id ∉ g.nodes.ids
  contract_eq : g.contract chain first last pattern new.id = .ok h
  new_eq : new = fusedNode chain first last pattern new.id new.name new.inputs
  name_eq : fusedName chain = .ok new.name
  inputs_prefix : first.inputs <+: new.inputs
  nodes_eq : h.nodes.toList =
    (g.nodes.toList.filter fun n => !(chain.map Node.id).contains n.id) ++ [new]
  edges_land : List.Forall₂ (g.MovesTo chain first last new)
    (g.edges.filter fun e => edgeRole (chain.map Node.id) first.id last.id e != .inner) h.edges

/-- `fuseChain` with an id that is new contracts an `Unbranched` chain to a node with that id, as
`Fuses` says. -/
theorem exists_fuses_of_unbranched {ids : IdSource} (hnew : (ids.next "fused").1 ∉ g.nodes.ids)
    (hchain : g.Unbranched chain) (hkinds : chain.map Node.op = pattern.ops)
    (hok : (g.fuseChain chain pattern ids).1 = .ok h) :
    (g.fuseChain chain pattern ids).2 = (ids.next "fused").2 ∧
      ∃ first last new, new.id = (ids.next "fused").1 ∧ g.Fuses pattern chain first last new h := by
  unfold fuseChain at hok ⊢
  split at hok
  · rename_i first last hfirst hlast
    obtain ⟨c, name, hc, hname, hh⟩ := contract_eq_ok hok
    refine ⟨rfl, first, last, fusedNode chain first last pattern (ids.next "fused").1 name c.inputs,
      rfl, hchain, hkinds, hfirst, hlast, hnew, hok, rfl, hname, inputs_prefix_of_contractEdges hc,
      ?_, ?_⟩
    · rw [hh]
      apply NodeTable.toList_insert
      -- no node with the new id is left, since there was none
      intro hmem
      obtain ⟨m, hm, hid⟩ := List.mem_map.mp hmem
      exact hnew (List.mem_map.mpr ⟨m, (NodeTable.mem_toList_filter.mp hm).1, hid⟩)
    · rw [hh]
      exact lands_of_contractEdges hc
  · cases hok

/-- `fuseChain` with a fresh id contracts the chain that was matched to a node with that id, as
`Fuses` says. -/
theorem exists_fuses {patterns : List FusionPattern} {ids : IdSource}
    (hfresh : ids.FreshFor g.nodes) (hmatch : g.firstMatch patterns = .ok (some (pattern, chain)))
    (hok : (g.fuseChain chain pattern ids).1 = .ok h) :
    pattern ∈ patterns ∧ (g.fuseChain chain pattern ids).2 = (ids.next "fused").2 ∧
      ∃ first last new, new.id = (ids.next "fused").1 ∧ g.Fuses pattern chain first last new h := by
  obtain ⟨hmem, _, n, _, hfind⟩ := findChain_of_firstMatch hmatch
  exact ⟨hmem, exists_fuses_of_unbranched (hfresh.next_not_mem "fused")
    (firstMatch_unbranched hmatch) (map_op_of_findChain hfind) hok⟩

namespace Fuses

variable (hf : g.Fuses pattern chain first last new h)
include hf

theorem first_mem : first ∈ chain := List.mem_of_mem_head? hf.head_eq

theorem last_mem : last ∈ chain := List.mem_of_getLast? hf.last_eq

/-- The new node has the kind `fused` of the pattern. -/
theorem new_op : new.op = pattern.fused := congrArg Node.op hf.new_eq

/-- Where a graph `Fuses`, its nodes are then those outside the chain and the new one. -/
theorem mem_nodes_iff {n : Node} :
    n ∈ h.nodes.toList ↔ n = new ∨ n ∈ g.nodes.toList ∧ n.id ∉ chain.map Node.id := by
  rw [hf.nodes_eq]
  simp only [List.mem_append, List.mem_filter, List.mem_singleton, Bool.not_eq_true',
    List.contains_eq_mem, decide_eq_false_iff_not]
  exact Or.comm

theorem ne_new {id : String} (hid : id ∈ g.nodes.ids) : id ≠ new.id :=
  fun heq => hf.new_id (heq ▸ hid)

/-- A node that shares its id with one of a chain that `Fuses` is that node. -/
theorem mem_chain_of_id_mem {n : Node} (hn : n ∈ g.nodes.toList) (hid : n.id ∈ chain.map Node.id) :
    n ∈ chain := by
  obtain ⟨m, hm, heq⟩ := List.mem_map.mp hid
  exact NodeTable.eq_of_id_eq (hf.unbranched.mem_nodes m hm) hn heq ▸ hm

/-- A chain that `Fuses` in a `WellFormed` graph does not come back to itself. -/
theorem ids_nodup (hg : g.WellFormed) : (chain.map Node.id).Nodup := by
  have hchain : (chain.map Node.id).IsChain (Relation.TransGen g.Feeds) :=
    hf.unbranched.links.imp fun _ _ hlink => .single hlink.feeds
  refine (List.isChain_iff_pairwise.mp hchain).imp ?_
  intro u v huv heq
  exact hg.acyclic u (heq ▸ huv)

end Fuses

namespace Fuses

variable (hf : g.Fuses pattern chain first last new h) (hg : g.WellFormed)
include hf hg

/-- An edge out of a chain that `Fuses` leaves its last node; every other edge that starts in the
chain is one of its links and leads to a node after the first. -/
theorem source_cases {e : Edge} (he : e ∈ g.edges) (hsource : e.source.node ∈ chain.map Node.id) :
    (e.source.node = last.id ∧ e.target.node ∉ chain.map Node.id) ∨
      (e.source.node ≠ last.id ∧ e.target.node ∈ chain.map Node.id ∧ e.target.node ≠ first.id) := by
  by_cases hlast : e.source.node = last.id
  · -- an edge from the last node back into the chain would close a cycle
    refine Or.inl ⟨hlast, fun htarget => ?_⟩
    obtain ⟨n, hn, hid⟩ := List.mem_map.mp htarget
    have hback := hf.unbranched.reaches_last hf.last_eq n hn
    rw [hid] at hback
    exact hg.acyclic last.id (.head' ⟨e, he, hlast, rfl⟩ hback)
  · have hids : (chain.map Node.id).getLast? = some last.id := by simp [hf.last_eq]
    obtain ⟨v, hnext⟩ := exists_neighbour_after hids hsource hlast
    have hv := (mem_of_mem_neighbours hnext).2
    obtain ⟨e', hout, htarget⟩ := rel_of_mem_neighbours hf.unbranched.links hnext
    have hee : e = e' := by
      have hmem : e ∈ g.outputEdges e.source.node := mem_outputEdges.mpr ⟨he, rfl⟩
      rw [hout] at hmem
      exact List.mem_singleton.mp hmem
    subst hee
    refine Or.inr ⟨hlast, ?_, ?_⟩
    · rw [htarget]
      exact List.mem_of_mem_tail hv
    · -- the first id stands before the tail and does not come again in it
      have hnodup := hf.ids_nodup hg
      obtain ⟨rest, hchain⟩ := List.head?_eq_some_iff.mp hf.head_eq
      rw [hchain, List.map_cons] at hv hnodup
      rw [htarget]
      exact fun heq => (List.nodup_cons.mp hnodup).1 (heq ▸ hv)

/-- The edges that go, by `edgeRole`, are those with both ends in the chain. -/
theorem edgeRole_eq_inner_iff {e : Edge} (he : e ∈ g.edges) :
    edgeRole (chain.map Node.id) first.id last.id e = .inner ↔
      e.source.node ∈ chain.map Node.id ∧ e.target.node ∈ chain.map Node.id := by
  have hcases := hf.source_cases hg he
  unfold edgeRole
  simp only [List.contains_eq_mem, decide_eq_true_eq]
  by_cases htarget : e.target.node ∈ chain.map Node.id
  · by_cases hsource : e.source.node ∈ chain.map Node.id
    · simp only [htarget, hsource, ↓reduceIte, and_self]
    · rw [if_pos htarget, if_neg hsource]
      split <;> simp [hsource]
  · by_cases hsource : e.source.node ∈ chain.map Node.id
    · -- such an edge leaves the last node
      obtain ⟨hlast, _⟩ | ⟨_, hin, _⟩ := hcases hsource
      · rw [if_neg htarget, if_pos hsource, if_pos hlast]
        simp [htarget]
      · exact absurd hin htarget
    · rw [if_neg htarget, if_neg hsource]
      simp [hsource]

end Fuses

/-- Where a node is found after a fusion: the chain is found in the new node. -/
def contractId (chain : List Node) (new : Node) (id : String) : String :=
  if id ∈ chain.map Node.id then new.id else id

theorem contractId_of_mem {id : String} (hid : id ∈ chain.map Node.id) :
    contractId chain new id = new.id := if_pos hid

theorem contractId_of_not_mem {id : String} (hid : id ∉ chain.map Node.id) :
    contractId chain new id = id := if_neg hid

namespace Fuses

variable (hf : g.Fuses pattern chain first last new h)
include hf

/-- An edge that `MovesTo` another has its ends under `contractId` there. -/
theorem ends_of_lands {old moved : Edge} (hlands : g.MovesTo chain first last new old moved) :
    moved.source.node = contractId chain new old.source.node ∧
      moved.target.node = contractId chain new old.target.node := by
  constructor
  · -- the source stays, or is the last node of the chain
    obtain ⟨hout, heq⟩ | ⟨hlast, heq⟩ := hlands.1.source_eq
    · rw [heq, contractId_of_not_mem hout]
    · have hin : old.source.node ∈ chain.map Node.id := by
        rw [hlast]
        exact List.mem_map_of_mem hf.last_mem
      rw [heq, contractId_of_mem hin]
  · -- the target stays, or is the first node of the chain, or another one
    obtain ⟨hout, heq⟩ | ⟨hfirst, heq⟩ | ⟨hin, _, _, _, heq⟩ := hlands.1.target_eq
    · rw [heq, contractId_of_not_mem hout]
    · have hin : old.target.node ∈ chain.map Node.id := by
        rw [hfirst]
        exact List.mem_map_of_mem hf.first_mem
      rw [heq, contractId_of_mem hin]
    · rw [heq, contractId_of_mem hin]

/-- Every edge of the new graph is one that an old one `MovesTo`. -/
theorem exists_old_edge {moved : Edge} (hmoved : moved ∈ h.edges) :
    ∃ old ∈ g.edges, g.MovesTo chain first last new old moved := by
  obtain ⟨old, hold, hlands⟩ := exists_of_mem_right hf.edges_land hmoved
  exact ⟨old, (List.mem_filter.mp hold).1, hlands⟩

/-- Where a graph `Fuses`, an output node that is there afterwards was there before, and the other
way round. -/
private theorem output_mem_iff (hops : ∀ kind ∈ pattern.ops, kind ≠ .output)
    (hfused : pattern.fused ≠ .output) {n : Node} (hop : n.op = .output) :
    n ∈ h.nodes.toList ↔ n ∈ g.nodes.toList := by
  rw [hf.mem_nodes_iff]
  constructor
  · intro hn
    obtain rfl | hn := hn
    · -- the new node is no model output
      exact absurd (hf.new_op.symm.trans hop) hfused
    · exact hn.1
  · intro hn
    -- a model output is none of the kinds of the pattern, so it is not on the chain
    refine Or.inr ⟨hn, fun hid => ?_⟩
    have hkind : n.op ∈ pattern.ops := by
      rw [← hf.kinds]
      exact List.mem_map_of_mem (hf.mem_chain_of_id_mem hn hid)
    exact hops _ hkind hop

section
variable (hg : g.WellFormed)
include hg

/-- Every old edge that is no link of the chain `MovesTo` one of the new graph. -/
theorem exists_new_edge {old : Edge} (hold : old ∈ g.edges)
    (hlink : ¬ (old.source.node ∈ chain.map Node.id ∧ old.target.node ∈ chain.map Node.id)) :
    ∃ moved ∈ h.edges, g.MovesTo chain first last new old moved := by
  have hrole := mt (hf.edgeRole_eq_inner_iff hg hold).mp hlink
  exact exists_of_mem_left hf.edges_land (List.mem_filter.mpr ⟨hold, by simpa using hrole⟩)

/-- The old edges that pass a test and the edges to which old ones have `MovesTo` and that pass
another are side by side, if the tests agree and the links of the chain fail. -/
theorem filter_lands {p q : Edge → Bool}
    (hlink : ∀ old ∈ g.edges, old.source.node ∈ chain.map Node.id →
      old.target.node ∈ chain.map Node.id → p old = false)
    (hpq : ∀ old ∈ g.edges, ∀ moved, g.MovesTo chain first last new old moved → p old = q moved) :
    List.Forall₂ (g.MovesTo chain first last new) (g.edges.filter p) (h.edges.filter q) := by
  -- what is dropped runs within the chain, and does not pass the test
  have hkept : g.edges.filter p = (g.edges.filter fun e =>
      edgeRole (chain.map Node.id) first.id last.id e != .inner).filter p := by
    rw [List.filter_filter]
    apply List.filter_congr
    intro e he
    by_cases hinner : edgeRole (chain.map Node.id) first.id last.id e = .inner
    · obtain ⟨hsource, htarget⟩ := (hf.edgeRole_eq_inner_iff hg he).mp hinner
      rw [hlink e he hsource htarget, Bool.false_and]
    · simp [hinner]
  rw [hkept]
  exact forall₂_filter hf.edges_land fun old hold => hpq old (List.mem_filter.mp hold).1

/-- Where there was a path before a fusion there is one after it, between the ids under
`contractId`. -/
theorem reaches_contractId {u v : String} (hreach : Relation.ReflTransGen g.Feeds u v) :
    Relation.ReflTransGen h.Feeds (contractId chain new u) (contractId chain new v) := by
  induction hreach with
  | refl => exact .refl
  | tail _ hstep ih =>
    obtain ⟨e, he, rfl, rfl⟩ := hstep
    by_cases hlink : e.source.node ∈ chain.map Node.id ∧ e.target.node ∈ chain.map Node.id
    · -- both ends of a link are found in the new node
      rw [contractId_of_mem hlink.1] at ih
      rw [contractId_of_mem hlink.2]
      exact ih
    · obtain ⟨moved, hmoved, hlands⟩ := hf.exists_new_edge hg he hlink
      obtain ⟨hsource, htarget⟩ := hf.ends_of_lands hlands
      exact .tail ih ⟨moved, hmoved, hsource, htarget⟩

/-- Where there is a path after a graph `Fuses` there was one before it, to or from the last node of
the chain in place of the new node. -/
theorem reaches_of_fused {u v : String} (hreach : Relation.ReflTransGen h.Feeds u v) :
    Relation.ReflTransGen g.Feeds (if u = new.id then last.id else u)
      (if v = new.id then last.id else v) := by
  induction hreach with
  | refl => exact .refl
  | tail _ hstep ih =>
    exact ih.trans (transGen_of_contract hg.closed hf.unbranched hf.head_eq hf.last_eq hf.new_id
      hf.contract_eq hstep).to_reflTransGen

/-- A node is `Live` after a fusion, under `contractId`, exactly if it was live before. -/
theorem live_iff (hops : ∀ kind ∈ pattern.ops, kind ≠ .output) (hfused : pattern.fused ≠ .output)
    {id : String} (hid : id ∈ g.nodes.ids) : h.Live (contractId chain new id) ↔ g.Live id := by
  constructor
  · intro hlive
    obtain ⟨n, hn, hop, hreach⟩ := hlive
    have hn' := (hf.output_mem_iff hops hfused hop).mp hn
    have hback := hf.reaches_of_fused hg hreach
    rw [if_neg (hf.ne_new (List.mem_map_of_mem hn'))] at hback
    refine ⟨n, hn', hop, ?_⟩
    by_cases hin : id ∈ chain.map Node.id
    · -- a node of the chain reaches the output through the last one
      obtain ⟨m, hm, rfl⟩ := List.mem_map.mp hin
      rw [contractId_of_mem hin, if_pos rfl] at hback
      exact (hf.unbranched.reaches_last hf.last_eq m hm).trans hback
    · rwa [contractId_of_not_mem hin, if_neg (hf.ne_new hid)] at hback
  · intro hlive
    obtain ⟨n, hn, hop, hreach⟩ := hlive
    have hn' := (hf.output_mem_iff hops hfused hop).mpr hn
    refine ⟨n, hn', hop, ?_⟩
    have hforth := hf.reaches_contractId hg hreach
    -- the output node lies outside the chain
    obtain rfl | ⟨_, hout⟩ := hf.mem_nodes_iff.mp hn'
    · exact absurd (List.mem_map_of_mem hn) hf.new_id
    · rwa [contractId_of_not_mem hout] at hforth

end

end Fuses

end

end Graph

end TensorGraph
