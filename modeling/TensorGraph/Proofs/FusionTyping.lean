import TensorGraph.Proofs.CarriedTypes
import TensorGraph.Proofs.FusionPorts
import TensorGraph.Proofs.FusionRun

/-!
# Fused formulas agree with the chains they replace

Take a graph that carries the types that its formulas give. When a chain is fused, give the new node
the type of the last node of the chain and leave all others as they are. Every port is reached by
the type that reached it before, since the edges into it are the same and in the same order. The
formula of the new node is that of the first node of the chain, and it reads the same operands; the
later nodes pass that type on. So the assignment fits and the graph carries it already, and
inferring types after fusing changes nothing (`fuse_keeps_types`).

A sum passes on the type of its first operand. So all this needs that a product which is fused with
a sum is the first operand of it or has its type; otherwise types do change
(`fuse_biasFirst_changes_types`).
-/

namespace TensorGraph

namespace Graph

/-! ### What reaches a port -/

private theorem typeInto_eq_head? (g : Graph) (types : TypeAssignment) (id : String) (i : Nat) :
    g.typeInto types id i = (g.edgesInto id i).head?.bind fun e => types e.source.node := by
  rw [typeInto, firstInto, edgesInto, List.head?_filter]

/-- At a node that is `Supplied`, the type that an edge brings is what reaches its port. -/
theorem Supplied.typeInto_eq {g : Graph} (hg : g.WellFormed) {n : Node} (h : g.Supplied n)
    (hn : n ∈ g.nodes.toList) {e : Edge} (he : e ∈ g.edges) (htarget : e.target.node = n.id)
    {i : Int} (hindex : e.target.index.whole? = some i) (types : TypeAssignment) :
    0 ≤ i ∧ i < n.inputs.length ∧ g.typeInto types n.id i.toNat = types e.source.node := by
  obtain ⟨m, hm, hport⟩ := hg.target_port e he
  rw [htarget, NodeTable.find?_of_mem hn] at hm
  cases hm
  obtain ⟨hnonneg, hlt⟩ := (isPort_iff_of_whole? hindex).mp hport
  -- the edge is the only one into this port
  obtain ⟨only, honly⟩ := List.length_eq_one_iff.mp (h.fed_once i.toNat (by omega))
  have hmem : e ∈ g.edgesInto n.id i.toNat := by
    refine mem_edgesInto.mpr ⟨he, htarget, ?_⟩
    rw [integral?_of_whole? hindex, Int.toNat_of_nonneg hnonneg]
  rw [honly, List.mem_singleton] at hmem
  refine ⟨hnonneg, hlt, ?_⟩
  rw [typeInto_eq_head?, honly, hmem]
  rfl

/-! ### One fusion -/

/-- Where a product goes to a sum and nowhere else, it is the first operand of the sum or has its
type. -/
def ProductsMatch (g : Graph) (types : TypeAssignment) : Prop :=
  ∀ m ∈ g.nodes.toList, ∀ a ∈ g.nodes.toList, m.op = .matMul → a.op = .add →
    ∀ e, g.outputEdges m.id = [e] → e.target.node = a.id →
      e.target.index.whole? = some 0 ∨ types m.id = types a.id

/-- The types after a fusion: the new node has that of the last node of the chain. -/
def fusedTypes (types : TypeAssignment) (last new : Node) : TypeAssignment := fun id =>
  if id = new.id then types last.id else types id

/-- A graph in which the fusions of the usual patterns keep types. -/
structure Fusible (g : Graph) (types : TypeAssignment) : Prop where
  plain : g.Plain
  supplied : ∀ n ∈ g.nodes.toList, n.op ∈ chainKinds → g.Supplied n
  typed : g.TypedBy types
  carries : g.Carries types
  products : g.ProductsMatch types

private theorem fusedTypes_new (types : TypeAssignment) (last new : Node) :
    fusedTypes types last new new.id = types last.id := if_pos rfl

namespace Fuses

variable {g h : Graph} {pattern : FusionPattern} {chain : List Node} {first last new : Node}
variable (hf : g.Fuses pattern chain first last new h) (types : TypeAssignment)
include hf

private theorem fusedTypes_old {id : String} (hid : id ∈ g.nodes.ids) :
    fusedTypes types last new id = types id := if_neg (hf.ne_new hid)

section
variable (hg : g.WellFormed)
include hg

/-- Under `fusedTypes` a moved edge brings the type that it brought before. -/
private theorem fusedTypes_source {old moved : Edge} (hold : old ∈ g.edges)
    (hlands : g.MovesTo chain first last new old moved) :
    fusedTypes types last new moved.source.node = types old.source.node := by
  obtain ⟨_, heq⟩ | ⟨hlast, heq⟩ := hlands.1.source_eq
  · rw [heq, hf.fusedTypes_old types (hg.closed old hold).1]
  · rw [heq, hlast]
    exact fusedTypes_new types last new

/-- Under `fusedTypes` edges side by side bring the same type first. -/
private theorem head?_bind_fusedTypes {olds moveds : List Edge} (hmem : ∀ old ∈ olds, old ∈ g.edges)
    (hlands : List.Forall₂ (g.MovesTo chain first last new) olds moveds) :
    (moveds.head?.bind fun e => fusedTypes types last new e.source.node) =
      olds.head?.bind fun e => types e.source.node := by
  cases hlands with
  | nil => rfl
  | cons hhead _ => exact hf.fusedTypes_source types hg (hmem _ List.mem_cons_self) hhead

/-- `outputEdges` of a node outside the chain are those from before. -/
private theorem outputEdges_outside {id : String} (hid : id ∈ g.nodes.ids)
    (hout : id ∉ chain.map Node.id) :
    List.Forall₂ (g.MovesTo chain first last new) (g.outputEdges id) (h.outputEdges id) := by
  have hnew := hf.ne_new hid
  refine hf.filter_lands hg ?_ ?_
  · -- edges within the chain do not start here
    intro old _ hsource _
    have hne : old.source.node ≠ id := fun heq => hout (heq ▸ hsource)
    simp [hne]
  · intro old _ moved hlands
    -- an edge that starts here has not been moved, and none is moved to here
    obtain ⟨_, heq⟩ | ⟨hlast, heq⟩ := hlands.1.source_eq
    · rw [heq]
    · have hne : last.id ≠ id := fun heq => hout (heq ▸ List.mem_map_of_mem hf.last_mem)
      simp [heq, hlast, hne, hnew.symm]

/-- Outside the chain `typeInto` is the same for all ports. -/
private theorem typeInto_outside {id : String} (hid : id ∈ g.nodes.ids)
    (hout : id ∉ chain.map Node.id) (i : Nat) :
    h.typeInto (fusedTypes types last new) id i = g.typeInto types id i := by
  rw [typeInto_eq_head?, typeInto_eq_head?]
  exact hf.head?_bind_fusedTypes types hg (fun e he => (mem_edgesInto.mp he).1)
    (hf.edgesInto_outside hg hid hout i)

/-- `typeInto` is the same for the ports that the new node has from the first one. -/
private theorem typeInto_entry {i : Nat} (hi : i < first.inputs.length) :
    h.typeInto (fusedTypes types last new) new.id i = g.typeInto types first.id i := by
  rw [typeInto_eq_head?, typeInto_eq_head?]
  exact hf.head?_bind_fusedTypes types hg (fun e he => (mem_edgesInto.mp he).1)
    (hf.edgesInto_entry hg hi)

end

end Fuses

/-! ### Formulas along a chain -/

private theorem inferConvolution_congr {attrs : Attributes} {xs ys : InputTypes}
    (h : xs.first = ys.first) : inferConvolution attrs xs = inferConvolution attrs ys := by
  unfold inferConvolution
  rw [h]

private theorem inferMatrixProduct_congr {xs ys : InputTypes} (hfirst : xs.first = ys.first)
    (hsecond : xs.second = ys.second) : inferMatrixProduct xs = inferMatrixProduct ys := by
  unfold inferMatrixProduct
  rw [hfirst, hsecond]

/-- The kinds that a chain goes on with. -/
def PassesOn (kind : OpKind) : Prop := kind = .batchNorm ∨ kind = .relu ∨ kind = .add

private theorem PassesOn.mem_chainKinds {kind : OpKind} (h : PassesOn kind) :
    kind ∈ chainKinds := by
  rcases h with rfl | rfl | rfl <;> decide

/-- What `PassesOn` has the type of its first operand, by `Node.infer`. -/
private theorem PassesOn.infer_eq {n : Node} (h : PassesOn n.op) (xs : InputTypes) :
    n.infer xs = .ok xs.first := by
  apply infer_eq_first
  rcases h with hop | hop | hop <;>
    · rw [hop]
      decide

/-- A chain goes on with a node that has one operand, or from a product to a sum. -/
def GoesOn (kind next : OpKind) : Prop :=
  (next = .batchNorm ∨ next = .relu) ∨ (kind = .matMul ∧ next = .add)

private theorem defaults_goOn : ∀ p ∈ FusionPattern.defaults, p.ops.IsChain GoesOn := by
  unfold GoesOn
  decide

namespace Fusible

variable {g : Graph} {types : TypeAssignment} (hs : g.Fusible types) (hg : g.WellFormed)
include hs hg

/-- In a `Fusible` graph a node that a chain goes on with has the type of what feeds its first
port. -/
private theorem types_eq_of_first_port {n : Node} (hn : n ∈ g.nodes.toList)
    (hop : PassesOn n.op) {e : Edge} (he : e ∈ g.edges) (htarget : e.target.node = n.id)
    (hindex : e.target.index.whole? = some 0) : types n.id = types e.source.node := by
  obtain ⟨_, hpos, hreach⟩ :=
    (hs.supplied n hn hop.mem_chainKinds).typeInto_eq hg hn he htarget hindex types
  have hfits : n.infer (g.arrivingTypes types n) = .ok (types n.id) := hs.typed n hn
  rw [hop.infer_eq, first_arrivingTypes g types (by omega)] at hfits
  exact (Except.ok.inj hfits).symm.trans hreach

/-- In a `Fusible` graph a node with a single port passes on the type of the node that `Links`
to it. -/
private theorem types_eq_of_links {u : String} {n : Node} (hn : n ∈ g.nodes.toList)
    (hop : n.op = .batchNorm ∨ n.op = .relu) (hlink : g.Links u n.id) : types n.id = types u := by
  obtain ⟨e, hout, htarget⟩ := hlink
  have hmem : e ∈ g.outputEdges u := by simp [hout]
  obtain ⟨he, hsource⟩ := mem_outputEdges.mp hmem
  obtain ⟨i, hi⟩ := hs.plain.index_int e he
  have hpasses : PassesOn n.op := hop.imp_right Or.inl
  have hsupplied := hs.supplied n hn hpasses.mem_chainKinds
  -- there is one port, so the edge leads to it
  have hone : n.inputs.length ≤ 1 := by
    have hmost := hsupplied.arity_bounds.2
    rcases hop with hop | hop <;>
      · rw [hop] at hmost
        exact hmost
  obtain ⟨hnonneg, hlt, _⟩ := hsupplied.typeInto_eq hg hn he htarget hi types
  have hzero : i = 0 := by omega
  rw [← hsource]
  exact hs.types_eq_of_first_port hg hn hpasses he htarget (hzero ▸ hi)

/-- In a `Fusible` graph a sum has the type of the product that goes to it and nowhere else. -/
private theorem types_eq_of_product {m a : Node} (hm : m ∈ g.nodes.toList) (ha : a ∈ g.nodes.toList)
    (hmop : m.op = .matMul) (haop : a.op = .add) (hlink : g.Links m.id a.id) :
    types a.id = types m.id := by
  obtain ⟨e, hout, htarget⟩ := hlink
  have hmem : e ∈ g.outputEdges m.id := by simp [hout]
  obtain ⟨he, hsource⟩ := mem_outputEdges.mp hmem
  cases hs.products m hm a ha hmop haop e hout htarget with
  | inl hzero =>
    -- the product comes in at the first port, whose type an addition takes
    rw [← hsource]
    exact hs.types_eq_of_first_port hg ha (Or.inr (Or.inr haop)) he htarget hzero
  | inr hsame => exact hsame.symm

/-- In a `Fusible` graph the type of the first node goes through a chain. -/
private theorem types_last {chain : List Node} {first last : Node}
    (hmem : ∀ n ∈ chain, n ∈ g.nodes.toList) (hlinks : (chain.map Node.id).IsChain g.Links)
    (hkinds : (chain.map Node.op).IsChain GoesOn) (hfirst : chain.head? = some first)
    (hlast : chain.getLast? = some last) :
    types last.id = types first.id := by
  induction chain generalizing first with
  | nil => cases hfirst
  | cons a rest ih =>
    cases hfirst
    obtain ⟨ha, hrest⟩ := List.forall_mem_cons.mp hmem
    cases rest with
    | nil =>
      cases hlast
      rfl
    | cons b rest =>
      rw [List.getLast?_cons_cons] at hlast
      simp only [List.map_cons, List.isChain_cons_cons] at hlinks hkinds
      -- the rest of the chain passes on the type of b, and b that of a
      rw [ih hrest hlinks.2 hkinds.2 rfl hlast]
      have hb := hrest b List.mem_cons_self
      cases hkinds.1 with
      | inl hop => exact hs.types_eq_of_links hg hb hop hlinks.1
      | inr hop => exact hs.types_eq_of_product hg ha hb hop.1 hop.2 hlinks.1

end Fusible

namespace Fuses

variable {g h : Graph} {pattern : FusionPattern} {chain : List Node} {first last new : Node}
variable (hf : g.Fuses pattern chain first last new h)
variable {types : TypeAssignment} (hs : g.Fusible types) (hg : g.WellFormed)
variable (hpattern : pattern ∈ FusionPattern.defaults)

section
include hf

private theorem new_attrs : new.attrs = first.attrs := (congrArg Node.attrs hf.new_eq).trans rfl

private theorem new_outputs : new.outputs = last.outputs :=
  (congrArg Node.outputs hf.new_eq).trans rfl

/-- The `inputs` that the new node has from the first one stand where they stood. -/
private theorem inputs_entry {i : Nat} (hi : i < first.inputs.length) :
    new.inputs[i]? = first.inputs[i]? := by
  obtain ⟨extra, hextra⟩ := hf.inputs_prefix
  rw [← hextra, List.getElem?_append_left hi]

end

section
include hf hpattern

private theorem op_mem_chainKinds {n : Node} (hn : n ∈ chain) : n.op ∈ chainKinds := by
  refine (defaults_kinds pattern hpattern).1 n.op ?_
  rw [← hf.kinds]
  exact List.mem_map_of_mem hn

/-- A node with a kind in `chainKinds` was there before. -/
private theorem mem_of_op_mem {n : Node} (hn : n ∈ h.nodes.toList) (hop : n.op ∈ chainKinds) :
    n ∈ g.nodes.toList ∧ n.id ∉ chain.map Node.id := by
  obtain rfl | hn := hf.mem_nodes_iff.mp hn
  · rw [hf.new_op] at hop
    exact absurd hop (defaults_kinds pattern hpattern).2
  · exact hn

end

section
include hf hs hg hpattern

/-- In a `Fusible` graph the last node of the chain has the type of the first one. -/
private theorem types_last_eq : types last.id = types first.id := by
  refine hs.types_last hg hf.unbranched.mem_nodes hf.unbranched.links ?_ hf.head_eq hf.last_eq
  rw [hf.kinds]
  exact defaults_goOn pattern hpattern

/-- `Node.infer` gives for the new node what it gave for the first node. -/
private theorem infer_new : new.infer (h.arrivingTypes (fusedTypes types last new) new) =
    first.infer (g.arrivingTypes types first) := by
  have hsupplied := hs.supplied first (hf.unbranched.mem_nodes first hf.first_mem)
    (hf.op_mem_chainKinds hpattern hf.first_mem)
  have hle : first.inputs.length ≤ new.inputs.length := hf.inputs_prefix.length_le
  have hpos : 1 ≤ first.inputs.length :=
    hsupplied.inputs_pos ((defaults_computing pattern hpattern).1 first.op
      (hf.kinds ▸ List.mem_map_of_mem hf.first_mem))
  -- both formulas look at the first operand
  have hfirst : (h.arrivingTypes (fusedTypes types last new) new).first =
      (g.arrivingTypes types first).first := by
    rw [first_arrivingTypes _ _ (hpos.trans hle), first_arrivingTypes _ _ hpos]
    exact hf.typeInto_entry types hg (by omega)
  have hkind : some first.op = pattern.ops.head? := by
    rw [← hf.kinds, List.head?_map, hf.head_eq]
    rfl
  have hop := hf.new_op
  simp only [FusionPattern.defaults, List.mem_cons, List.not_mem_nil, or_false] at hpattern
  rcases hpattern with rfl | rfl | rfl
  · rw [Node.infer, Node.infer, hop, Option.some.inj hkind, hf.new_attrs]
    exact inferConvolution_congr hfirst
  · rw [Node.infer, Node.infer, hop, Option.some.inj hkind, hf.new_attrs]
    exact inferConvolution_congr hfirst
  · -- a product also looks at the second one
    have hproduct : first.op = .matMul := Option.some.inj hkind
    have htwo : 2 ≤ first.inputs.length := by
      have hleast := hsupplied.arity_bounds.1
      rw [hproduct] at hleast
      exact hleast
    have hsecond : (h.arrivingTypes (fusedTypes types last new) new).second =
        (g.arrivingTypes types first).second := by
      rw [second_arrivingTypes _ _ (htwo.trans hle), second_arrivingTypes _ _ htwo]
      exact hf.typeInto_entry types hg (by omega)
    rw [Node.infer, Node.infer, hop, hproduct, hf.new_attrs]
    exact congrArg Except.ok (inferMatrixProduct_congr hfirst hsecond)

/-- After a fusion the graph is `TypedBy` the `fusedTypes`. -/
theorem typedBy : h.TypedBy (fusedTypes types last new) := by
  intro n hn
  obtain rfl | ⟨hold, hout⟩ := hf.mem_nodes_iff.mp hn
  · -- the new node
    rw [Fits, hf.infer_new hs hg hpattern, fusedTypes_new, hf.types_last_eq hs hg hpattern]
    exact hs.typed first (hf.unbranched.mem_nodes first hf.first_mem)
  · have hid : n.id ∈ g.nodes.ids := List.mem_map_of_mem hold
    exact (hs.typed n hold).of_typeInto (fun i _ => hf.typeInto_outside types hg hid hout i)
      (hf.fusedTypes_old types hid)

/-- A port that was made for an edge carries what the edge brings, by `fusedTypes`. -/
private theorem extra_port_carries {i : Nat} {port : Port} (hi : first.inputs.length ≤ i)
    (hport : new.inputs[i]? = some port) :
    (h.typeInto (fusedTypes types last new) new.id i).or port.type = port.type := by
  rw [typeInto]
  cases hinto : h.firstInto new.id i with
  | none => rfl
  | some moved =>
    have hmoved : moved ∈ h.edges := List.mem_of_find?_eq_some hinto
    have hends := List.find?_some hinto
    simp only [Bool.decide_and, Bool.and_eq_true, decide_eq_true_eq] at hends
    obtain ⟨htarget, hindex⟩ := hends
    obtain ⟨old, hold, hlands⟩ := hf.exists_old_edge hmoved
    obtain ⟨k, hk⟩ := hs.plain.index_int old hold
    rw [Option.bind_some, hf.fusedTypes_source types hg hold hlands]
    obtain ⟨_, heq⟩ | ⟨hfirst, heq⟩ | ⟨hin, _, j, made, _, heq, hmade, hside⟩ :=
      hlands.target_cases
    · -- an edge that did not move did not lead to the new node
      rw [heq] at htarget
      exact absurd htarget (hf.ne_new (hg.closed old hold).2)
    · -- an edge into the first node leads to one of its ports
      obtain ⟨m, hm, hisPort⟩ := hg.target_port old hold
      rw [hfirst, NodeTable.find?_of_mem (hf.unbranched.mem_nodes first hf.first_mem)] at hm
      cases hm
      rw [isPort_iff_of_whole? hk] at hisPort
      rw [heq, integral?_of_whole? hk] at hindex
      have hki : k = i := Option.some.inj hindex
      omega
    · rw [heq] at hindex
      have hji : (j : Int) = i := Option.some.inj hindex
      have hmade' : made = port := by
        rw [Int.ofNat_inj.mp hji, hport] at hmade
        exact (Option.some.inj hmade).symm
      -- the port is made of the one that the edge led to, and that port carries its type
      obtain ⟨owner, p, howner, hp, hside'⟩ := sidePort_eq_ok hg hold hk
      rw [hside', Except.ok.injEq] at hside
      have htype : port.type = p.type := by rw [← hmade', ← hside]
      have hmem := NodeTable.mem_of_find? howner
      have hid := NodeTable.id_eq_of_find? howner
      have hchain : owner ∈ chain := hf.mem_chain_of_id_mem hmem (hid ▸ hin)
      obtain ⟨_, _, hreach⟩ := (hs.supplied owner hmem
        (hf.op_mem_chainKinds hpattern hchain)).typeInto_eq hg hmem hold hid.symm hk types
      have hcarries := hs.carries.inputs owner hmem k.toNat p hp
      rw [hreach] at hcarries
      rw [htype]
      exact hcarries

/-- After a fusion the graph `Carries` the `fusedTypes`. -/
theorem carries : h.Carries (fusedTypes types last new) where
  inputs := by
    intro n hn i port hport
    obtain rfl | ⟨hold, hout⟩ := hf.mem_nodes_iff.mp hn
    · -- the ports of the first node come first, and then those of edges from the side
      by_cases hi : i < first.inputs.length
      · rw [hf.inputs_entry hi] at hport
        rw [hf.typeInto_entry types hg hi]
        exact hs.carries.inputs first (hf.unbranched.mem_nodes first hf.first_mem) i port hport
      · exact hf.extra_port_carries hs hg hpattern (by omega) hport
    · -- other nodes are fed as before
      rw [hf.typeInto_outside types hg (List.mem_map_of_mem hold) hout]
      exact hs.carries.inputs n hold i port hport
  outputs := by
    intro n hn port hport
    obtain rfl | ⟨hold, _⟩ := hf.mem_nodes_iff.mp hn
    · -- the new node has the outputs of the last one
      rw [hf.new_outputs] at hport
      rw [fusedTypes_new]
      exact hs.carries.outputs last (hf.unbranched.mem_nodes last hf.last_mem) port hport
    · rw [hf.fusedTypes_old types (List.mem_map_of_mem hold)]
      exact hs.carries.outputs n hold port hport
  edges := by
    intro moved hmoved
    -- an edge carries on the type of what it comes from
    obtain ⟨old, hold, hlands⟩ := hf.exists_old_edge hmoved
    rw [hf.fusedTypes_source types hg hold hlands, (EdgeRole.Moves.id_type_eq hlands.1).2]
    exact hs.carries.edges old hold

/-- After a fusion `ProductsMatch` still holds, as a product that goes to a sum did so before. -/
private theorem productsMatch : h.ProductsMatch (fusedTypes types last new) := by
  intro m hm a ha hmop haop e hout htarget
  obtain ⟨hm, hmout⟩ := hf.mem_of_op_mem hpattern hm (by rw [hmop]; decide)
  obtain ⟨ha, _⟩ := hf.mem_of_op_mem hpattern ha (by rw [haop]; decide)
  have hmid : m.id ∈ g.nodes.ids := List.mem_map_of_mem hm
  have haid : a.id ∈ g.nodes.ids := List.mem_map_of_mem ha
  have haligned := hf.outputEdges_outside hg hmid hmout
  rw [hout] at haligned
  obtain ⟨old, _, hlands, hnil, hold⟩ := List.forall₂_cons_right_iff.mp haligned
  rw [List.forall₂_nil_right_iff.mp hnil] at hold
  rw [hf.fusedTypes_old types hmid, hf.fusedTypes_old types haid]
  -- the edge leads to a node outside the chain, so it has not moved
  obtain ⟨_, heq⟩ | ⟨_, heq⟩ | ⟨_, _, _, _, _, heq, _⟩ := hlands.target_cases
  · rw [heq] at htarget ⊢
    exact hs.products m hm a ha hmop haop old hold htarget
  · rw [heq] at htarget
    exact absurd htarget.symm (hf.ne_new haid)
  · rw [heq] at htarget
    exact absurd htarget.symm (hf.ne_new haid)

/-- A fusion of one of `FusionPattern.defaults` leaves a graph `Fusible`. -/
private theorem fusible : h.Fusible (fusedTypes types last new) where
  plain := hs.plain.of_contract hf.contract_eq
  supplied := by
    intro n hn hop
    obtain ⟨hold, hout⟩ := hf.mem_of_op_mem hpattern hn hop
    exact hf.supplied_outside hg hold hout (hs.supplied n hold hop)
  typed := hf.typedBy hs hg hpattern
  carries := hf.carries hs hg hpattern
  products := hf.productsMatch hs hg hpattern

end

end Fuses

/-- `inferTypes` after `fuse` with the usual patterns changes nothing, in a graph that keeps to the
conventions and in which `inferTypes` changes nothing, if every product that goes to a sum and
nowhere else is the first operand of the sum or has its type. -/
theorem fuse_keeps_types {g : Graph} {ids : IdSource} (hg : g.Conforming) (hplain : g.Plain)
    (hfresh : ids.FreshFor g.nodes) (htyped : g.inferTypes = .ok g)
    (hproducts : ∀ types, g.TypedBy types → g.ProductsMatch types) :
    ∃ h, (fuse FusionPattern.defaults g ids).1 = .ok h ∧ h.inferTypes = .ok h := by
  -- a typed graph carries its types, and every fusion keeps that with the types of the last nodes
  obtain ⟨types, hfits, hcarries⟩ := (inferTypes_eq_self_iff hg.wellFormed).mp htyped
  have hs : g.Fusible types :=
    ⟨hplain, fun n hn _ => hg.supplied n hn, hfits, hcarries, hproducts types hfits⟩
  obtain ⟨h, hok⟩ := exists_fuse_defaults_eq_ok hg.wellFormed hfresh hplain
  have hrun := fuse_run (P := fun k => ∃ types, k.Fusible types) defaults_long ?_
    hg.wellFormed hfresh ⟨types, hs⟩ hok
  · obtain ⟨hwell, ⟨others, hothers⟩, _⟩ := hrun
    exact ⟨h, hok, (inferTypes_eq_self_iff hwell).mpr ⟨others, hothers.typed, hothers.carries⟩⟩
  · intro k pattern chain first last new h hk hpattern hf hkeeps
    obtain ⟨others, hothers⟩ := hkeeps
    exact ⟨_, hf.fusible hothers hk hpattern⟩

/-! ### The operands of a sum in either order -/

/-- A node whose ports carry types of the given dimensions. -/
def typedNode (id : String) (op : OpKind) (inputs outputs : List Shape) : Node :=
  { id := id
    op := op
    name := .str id
    inputs := inputs.map fun dims => ⟨.str "in", some ⟨.float32, dims⟩⟩
    outputs := outputs.map fun dims => ⟨.str "out", some ⟨.float32, dims⟩⟩ }

/-- An edge that carries a type of the given dimensions. -/
def typedEdge (id source target : String) (port : Int) (dims : Shape) : Edge :=
  ⟨id, ⟨source, .int 0⟩, ⟨target, .int port⟩, some ⟨.float32, dims⟩⟩

/-- The dimensions of the sum in `denseLayer`, which are those of its first operand. -/
def sumShape (biasFirst : Bool) : Shape := if biasFirst then [4] else [2, 4]

/-- A dense layer that adds a bias to a product, with the bias as the first or the second operand of
the sum. -/
def denseLayer (biasFirst : Bool) : Graph where
  id := "g_1"
  nodes :=
    ⟨[typedNode "x_2" .input [] [[2, 3]], typedNode "w_3" .constant [] [[3, 4]],
      typedNode "b_4" .constant [] [[4]], typedNode "m_5" .matMul [[2, 3], [3, 4]] [[2, 4]],
      typedNode "a_6" .add (if biasFirst then [[4], [2, 4]] else [[2, 4], [4]])
        [sumShape biasFirst],
      typedNode "y_7" .output [sumShape biasFirst] []], by cases biasFirst <;> decide⟩
  edges :=
    [typedEdge "e_8" "x_2" "m_5" 0 [2, 3], typedEdge "e_9" "w_3" "m_5" 1 [3, 4],
     typedEdge "e_10" "m_5" "a_6" (if biasFirst then 1 else 0) [2, 4],
     typedEdge "e_11" "b_4" "a_6" (if biasFirst then 0 else 1) [4],
     typedEdge "e_12" "a_6" "y_7" 0 (sumShape biasFirst)]

/-- The types of `denseLayer`. -/
def denseTypes (biasFirst : Bool) : TypeAssignment := fun id =>
  ([("x_2", [2, 3]), ("w_3", [3, 4]), ("b_4", [4]), ("m_5", [2, 4]), ("a_6", sumShape biasFirst),
    ("y_7", sumShape biasFirst)].lookup id).map fun dims => ⟨.float32, dims⟩

/-- `denseLayer` keeps to the conventions. -/
theorem conforming_denseLayer (biasFirst : Bool) : (denseLayer biasFirst).Conforming where
  valid := by
    refine validate_of_forward ?_ ?_
    · cases biasFirst <;> rfl
    · cases biasFirst <;> decide
  supplied := by
    intro n hn
    simp only [denseLayer, List.mem_cons, List.not_mem_nil, or_false] at hn
    rcases hn with rfl | rfl | rfl | rfl | rfl | rfl <;>
      exact ⟨by cases biasFirst <;> decide, by cases biasFirst <;> decide⟩

/-- `denseLayer` is `Plain`. -/
theorem plain_denseLayer (biasFirst : Bool) : (denseLayer biasFirst).Plain where
  name_text := by
    intro n hn
    simp only [denseLayer, List.mem_cons, List.not_mem_nil, or_false] at hn
    rcases hn with rfl | rfl | rfl | rfl | rfl | rfl <;> exact ⟨_, rfl⟩
  index_int := by
    intro e he
    simp only [denseLayer, List.mem_cons, List.not_mem_nil, or_false] at he
    rcases he with rfl | rfl | rfl | rfl | rfl <;> exact ⟨_, rfl⟩

/-- A source that has issued twelve ids is `FreshFor` the nodes of `denseLayer`. -/
theorem freshFor_denseLayer (biasFirst : Bool) :
    IdSource.FreshFor ⟨12⟩ (denseLayer biasFirst).nodes := by
  have hids : (denseLayer biasFirst).nodes.ids = [("x", 2), ("w", 3), ("b", 4), ("m", 5), ("a", 6),
      ("y", 7)].map fun entry => IdSource.idOf entry.1 entry.2 := by cases biasFirst <;> decide
  exact IdSource.freshFor_of_issued hids (by decide)

/-- `inferTypes` changes nothing in `denseLayer`. -/
private theorem inferTypes_denseLayer (biasFirst : Bool) :
    (denseLayer biasFirst).inferTypes = .ok (denseLayer biasFirst) := by
  refine (inferTypes_eq_self_iff (conforming_denseLayer biasFirst).wellFormed).mpr
    ⟨denseTypes biasFirst, ?_, ?_⟩
  · unfold TypedBy Fits
    cases biasFirst <;> decide
  · rw [← retyped_eq_self_iff]
    cases biasFirst <;> rfl

/-- In `denseLayer` with the product as first operand, inferring types after fusing changes
nothing. -/
theorem fuse_denseLayer_keeps_types :
    (denseLayer false).Conforming ∧ (denseLayer false).Plain ∧
      IdSource.FreshFor ⟨12⟩ (denseLayer false).nodes ∧
      (denseLayer false).inferTypes = .ok (denseLayer false) ∧
      (∀ types, (denseLayer false).TypedBy types → (denseLayer false).ProductsMatch types) ∧
      ∃ h, (fuse FusionPattern.defaults (denseLayer false) ⟨12⟩).1 = .ok h ∧
        h.inferTypes = .ok h := by
  have hproducts : ∀ types, (denseLayer false).TypedBy types →
      (denseLayer false).ProductsMatch types := by
    intro types _ m hm a _ hop _ e hout _
    -- the product leads to the first port of the addition
    have hlink : ∀ m ∈ (denseLayer false).nodes.toList, m.op = .matMul →
        (denseLayer false).outputEdges m.id = [typedEdge "e_10" "m_5" "a_6" 0 [2, 4]] := by decide
    rw [hlink m hm hop] at hout
    cases hout
    exact Or.inl rfl
  exact ⟨conforming_denseLayer false, plain_denseLayer false, freshFor_denseLayer false,
    inferTypes_denseLayer false, hproducts,
    fuse_keeps_types (conforming_denseLayer false) (plain_denseLayer false)
      (freshFor_denseLayer false) (inferTypes_denseLayer false) hproducts⟩

/-- What fusing makes of `denseLayer` with the bias as first operand. -/
def fusedDenseLayer : Graph where
  id := "g_1"
  nodes :=
    ⟨[typedNode "x_2" .input [] [[2, 3]], typedNode "w_3" .constant [] [[3, 4]],
      typedNode "b_4" .constant [] [[4]], typedNode "y_7" .output [[4]] [],
      { id := "fused_13"
        op := .fusedMatMulAdd
        name := .str "fused_m_5_a_6"
        inputs := [⟨.str "in", some ⟨.float32, [2, 3]⟩⟩, ⟨.str "in", some ⟨.float32, [3, 4]⟩⟩,
          ⟨.str "a_6.in", some ⟨.float32, [4]⟩⟩]
        outputs := [⟨.str "out", some ⟨.float32, [4]⟩⟩]
        annotations :=
          ⟨[("fused_from", .fusedFrom [⟨.matMul, .str "m_5"⟩, ⟨.add, .str "a_6"⟩]),
            ("pattern", .note (.str "MatMul + Add"))]⟩ }], by decide⟩
  edges :=
    [typedEdge "e_8" "x_2" "fused_13" 0 [2, 3], typedEdge "e_9" "w_3" "fused_13" 1 [3, 4],
     typedEdge "e_11" "b_4" "fused_13" 2 [4], typedEdge "e_12" "fused_13" "y_7" 0 [4]]

/-- `fuse` turns `denseLayer`, with the bias as first operand, into `fusedDenseLayer`. -/
theorem fuse_denseLayer :
    fuse FusionPattern.defaults (denseLayer true) ⟨12⟩ = (.ok fusedDenseLayer, ⟨13⟩) := by
  -- one chain matches, and after its fusion nothing does
  have hmatch : (denseLayer true).firstMatch FusionPattern.defaults = .ok (some
      (⟨.str "MatMul + Add", [.matMul, .add], .fusedMatMulAdd⟩,
        [typedNode "m_5" .matMul [[2, 3], [3, 4]] [[2, 4]],
          typedNode "a_6" .add [[4], [2, 4]] [[4]]])) := by decide
  calc fuse FusionPattern.defaults (denseLayer true) ⟨12⟩ =
        fuse FusionPattern.defaults fusedDenseLayer ⟨13⟩ :=
        fuse_eq_of_firstMatch hmatch rfl (by decide)
    _ = (.ok fusedDenseLayer, ⟨13⟩) := fuse_eq_self (by decide) ⟨13⟩

/-- In `denseLayer` with the bias as first operand the sum has the type of the bias, and the node
that replaces it the type of the product: inferring types after fusing does change the graph,
although it keeps to the conventions and inferring types did not change it before. -/
theorem fuse_biasFirst_changes_types :
    (denseLayer true).Conforming ∧ IdSource.FreshFor ⟨12⟩ (denseLayer true).nodes ∧
      (denseLayer true).inferTypes = .ok (denseLayer true) ∧
      (fuse FusionPattern.defaults (denseLayer true) ⟨12⟩).1 = .ok fusedDenseLayer ∧
      ∃ k, fusedDenseLayer.inferTypes = .ok k ∧ k ≠ fusedDenseLayer := by
  have hok : (fuse FusionPattern.defaults (denseLayer true) ⟨12⟩).1 = .ok fusedDenseLayer :=
    congrArg Prod.fst fuse_denseLayer
  have hwell : fusedDenseLayer.WellFormed :=
    (fuseWithin_wellFormed (conforming_denseLayer true).wellFormed (freshFor_denseLayer true) hok).1
  -- the product has two rows of four entries each
  have htyped : fusedDenseLayer.TypedBy fun id =>
      if id = "fused_13" ∨ id = "y_7" then some ⟨.float32, [2, 4]⟩ else denseTypes true id := by
    unfold TypedBy Fits
    decide
  exact ⟨conforming_denseLayer true, freshFor_denseLayer true, inferTypes_denseLayer true, hok,
    _, htyped.inferTypes_eq hwell, by decide⟩

end Graph

end TensorGraph
