import TensorGraph.Proofs.FreshIds
import TensorGraph.Proofs.Validity
import TensorGraph.Transform.Fusion

/-!
# Fusion keeps graphs well formed

A chain that a pattern matches is unbranched: the only edge out of each of its nodes leads to the
next one (`findChain_unbranched`). Contracting it moves every edge in one of four ways
(`EdgeRole.Moves`). Sending the new node back to the last node of the chain turns every moved edge
into a path of the old graph, so contraction makes no cycle (`transGen_of_contract`); ports are
found where they were or behind those of the first node. What one contraction keeps, fusing until no
pattern matches keeps.
-/

namespace TensorGraph.Graph

/-! ### Chains -/

/-- The only edge out of a node leads to another one. -/
def Links (g : Graph) (u v : String) : Prop := ∃ e, g.outputEdges u = [e] ∧ e.target.node = v

/-- A node `Feeds` what it `Links` to. -/
theorem Links.feeds {g : Graph} {u v : String} (h : g.Links u v) : g.Feeds u v := by
  obtain ⟨e, hout, htarget⟩ := h
  have hmem : e ∈ g.outputEdges u := by simp [hout]
  obtain ⟨hedge, hsource⟩ := mem_outputEdges.mp hmem
  exact ⟨e, hedge, hsource, htarget⟩

/-- Nodes of a graph, each linked to the next. -/
structure Unbranched (g : Graph) (chain : List Node) : Prop where
  mem_nodes : ∀ n ∈ chain, n ∈ g.nodes.toList
  links : (chain.map Node.id).IsChain g.Links

/-- A node `Links` to what `nextInChain` gives for it. -/
private theorem links_of_nextInChain {g : Graph} {id next : String}
    (h : g.nextInChain id = some next) : g.Links id next := by
  unfold nextInChain at h
  split at h
  · rename_i e hout
    simp only [Option.ite_none_right_eq_some, Option.some.injEq] at h
    exact ⟨e, hout, h.2⟩
  · cases h

/-- A chain from `findChain` starts at the given id and is `Unbranched`. -/
theorem findChain_unbranched {g : Graph} {id : String} {ops : List OpKind} {chain : List Node}
    (hops : ops ≠ []) (h : g.findChain id ops = some chain) :
    (chain.map Node.id).head? = some id ∧ g.Unbranched chain := by
  induction ops generalizing id chain with
  | nil => exact absurd rfl hops
  | cons kind rest ih =>
    rw [findChain] at h
    split at h
    · cases h
    · rename_i n hfind
      have hmem := NodeTable.mem_of_find? hfind
      have hid := NodeTable.id_eq_of_find? hfind
      split at h
      · cases h
      · split at h
        · -- the last kind: the chain is this node alone
          cases h
          refine ⟨by simp [hid], ⟨?_, ?_⟩⟩
          · intro m hm
            rw [List.mem_singleton.mp hm]
            exact hmem
          · exact List.isChain_singleton _
        · rename_i hrest
          split at h
          · cases h
          · -- more kinds follow: the chain goes on from the next node
            rename_i next hnext
            obtain ⟨tail, htail, rfl⟩ := Option.map_eq_some_iff.mp h
            have hne : rest ≠ [] := by simpa using hrest
            obtain ⟨hhead, htail'⟩ := ih hne htail
            refine ⟨by simp [hid], ⟨?_, ?_⟩⟩
            · intro m hm
              cases List.mem_cons.mp hm with
              | inl heq => exact heq ▸ hmem
              | inr hm => exact htail'.mem_nodes m hm
            · rw [List.map_cons, List.isChain_cons]
              refine ⟨fun y hy => ?_, htail'.links⟩
              -- the rest of the chain starts at the node that this one is linked to
              have hy' : y = next := by
                rw [hhead] at hy
                exact (Option.some.inj hy).symm
              rw [hid, hy']
              exact links_of_nextInChain hnext

/-- A chain from `findChain` has the kinds that were asked for. -/
theorem map_op_of_findChain {g : Graph} {id : String} {ops : List OpKind} {chain : List Node}
    (h : g.findChain id ops = some chain) : chain.map Node.op = ops := by
  induction ops generalizing id chain with
  | nil =>
    cases h
    rfl
  | cons kind rest ih =>
    rw [findChain] at h
    split at h
    · -- there is no node
      cases h
    · rename_i n _
      split at h
      · -- the node is of another kind
        cases h
      · rename_i hkind
        have hop : n.op = kind := by simpa using hkind
        split at h
        · rename_i hrest
          -- the pattern ends here
          cases h
          simp [hop, List.isEmpty_iff.mp hrest]
        · split at h
          · -- the chain ends before the pattern does
            cases h
          · obtain ⟨tail, htail, rfl⟩ := Option.map_eq_some_iff.mp h
            rw [List.map_cons, hop, ih htail]

/-- Every node of an `Unbranched` chain reaches the last one. -/
theorem Unbranched.reaches_last {g : Graph} {chain : List Node} {last : Node}
    (h : g.Unbranched chain) (hlast : chain.getLast? = some last) :
    ∀ n ∈ chain, Relation.ReflTransGen g.Feeds n.id last.id := by
  -- only the links matter, and they are inherited by the rest of the chain
  have hlinks := h.links
  clear h
  induction chain with
  | nil => cases hlast
  | cons m rest ih =>
    intro n hn
    cases rest with
    | nil =>
      have hmn : n = m := List.mem_singleton.mp hn
      have hml : m = last := by simpa using hlast
      rw [hmn, hml]
    | cons next rest =>
      rw [List.getLast?_cons_cons] at hlast
      rw [List.map_cons, List.map_cons, List.isChain_cons_cons] at hlinks
      have htail := ih hlast hlinks.2
      cases List.mem_cons.mp hn with
      | inl heq =>
        rw [heq]
        exact .head hlinks.1.feeds (htail next List.mem_cons_self)
      | inr hn => exact htail n hn

/-! ### Moving edges -/

/-- How an edge becomes another one when a chain is contracted. `least` is the number of input ports
that the new node takes over from the first node, `most` the number that it has in the end. -/
def EdgeRole.Moves (fused : String) (least most : Nat) (old new : Edge) : EdgeRole → Prop
  | .outside => new = old
  | .entry => new = old.withTarget fused none
  | .side => ∃ i, least ≤ i ∧ i < most ∧ new = old.withTarget fused (some (.int (i : Nat)))
  | .exit => new = old.withSource fused none
  | .inner => False

/-- An edge that `Moves` in some way moves in the same way when there is room for more ports. -/
theorem EdgeRole.Moves.mono {fused : String} {least most less : Nat} {old new : Edge}
    {role : EdgeRole} (h : role.Moves fused least most old new) (hle : less ≤ least) :
    role.Moves fused less most old new := by
  cases role with
  | side =>
    -- only edges from the side are bounded from below
    obtain ⟨i, hleast, hmost, hnew⟩ := h
    exact ⟨i, by omega, hmost, hnew⟩
  | outside => exact h
  | entry => exact h
  | exit => exact h
  | inner => exact h

/-- An edge that `Moves` keeps its id and its type. -/
theorem EdgeRole.Moves.id_type_eq {fused : String} {least most : Nat} {old new : Edge}
    {role : EdgeRole} (h : role.Moves fused least most old new) :
    new.id = old.id ∧ new.type = old.type := by
  cases role with
  | side =>
    obtain ⟨i, -, -, rfl⟩ := h
    exact ⟨rfl, rfl⟩
  | inner =>
    -- inner edges go
    cases h
  | outside =>
    cases h
    exact ⟨rfl, rfl⟩
  | entry =>
    cases h
    exact ⟨rfl, rfl⟩
  | exit =>
    cases h
    exact ⟨rfl, rfl⟩

variable {g : Graph} {chain : List String} {first last fused : String}

/-- What a contraction of several edges is, given that of the edges after the first. -/
inductive ContractStep (g : Graph) (chain : List String) (first last fused : String)
    (inputs : List Port) (e : Edge) (rest : List Edge) (c : Contraction) : Prop where
  /-- The first edge goes. -/
  | drop (hrole : edgeRole chain first last e = .inner)
      (hrest : g.contractEdges chain first last fused inputs rest = .ok c)
  /-- The first edge is moved and needs no port of its own. -/
  | move (new : Edge) (tail : Contraction)
      (hmoves : ∀ most, (edgeRole chain first last e).Moves fused inputs.length most e new)
      (hrest : g.contractEdges chain first last fused inputs rest = .ok tail)
      (hc : c = .cons new tail)
  /-- The first edge gets a port of its own. -/
  | attach (port : Port) (tail : Contraction) (hrole : edgeRole chain first last e = .side)
      (hport : g.sidePort e = .ok port)
      (hrest : g.contractEdges chain first last fused (inputs ++ [port]) rest = .ok tail)
      (hc : c = .cons (e.withTarget fused (some (.int inputs.length))) tail)

/-- `Contraction.cons` puts an edge before another contraction, and succeeds if that one does. -/
private theorem exists_of_map_cons {x : Except Error Contraction} {new : Edge} {c : Contraction}
    (h : x.map (.cons new) = .ok c) : ∃ tail, x = .ok tail ∧ c = .cons new tail := by
  cases x with
  | error _ => cases h
  | ok tail =>
    cases h
    exact ⟨tail, rfl, rfl⟩

/-- `contractEdges` takes a `ContractStep` at each edge. -/
theorem contractStep_of_contractEdges {inputs : List Port} {e : Edge} {rest : List Edge}
    {c : Contraction} (h : g.contractEdges chain first last fused inputs (e :: rest) = .ok c) :
    ContractStep g chain first last fused inputs e rest c := by
  rw [contractEdges] at h
  split at h
  · rename_i hrole
    exact .drop hrole h
  · rename_i hrole
    obtain ⟨tail, htail, hc⟩ := exists_of_map_cons h
    exact .move e tail (fun _ => by rw [hrole]; rfl) htail hc
  · rename_i hrole
    obtain ⟨tail, htail, hc⟩ := exists_of_map_cons h
    exact .move _ tail (fun _ => by rw [hrole]; rfl) htail hc
  · rename_i hrole
    obtain ⟨tail, htail, hc⟩ := exists_of_map_cons h
    exact .move _ tail (fun _ => by rw [hrole]; rfl) htail hc
  · -- an edge into a later node of the chain
    rename_i hrole
    split at h
    · cases h
    · rename_i port hport
      obtain ⟨tail, htail, hc⟩ := exists_of_map_cons h
      exact .attach port tail hrole hport htail hc

/-- An edge that `Moves` without a port of its own does not lead into a later node. -/
theorem ne_side_of_moves {least : Nat} {old new : Edge}
    (h : ∀ most, (edgeRole chain first last old).Moves fused least most old new) :
    edgeRole chain first last old ≠ .side := by
  intro hrole
  have hmove := h 0
  rw [hrole] at hmove
  obtain ⟨i, _, hlt, _⟩ := hmove
  omega

/-- `contractEdges` makes a new port for each edge from outside into a later node. -/
theorem length_inputs_of_contractEdges {inputs : List Port} {es : List Edge} {c : Contraction}
    (h : g.contractEdges chain first last fused inputs es = .ok c) :
    c.inputs.length =
      inputs.length + es.countP fun e => edgeRole chain first last e = .side := by
  induction es generalizing inputs c with
  | nil =>
    cases h
    rfl
  | cons e rest ih =>
    cases contractStep_of_contractEdges h with
    | drop hrole hrest => simp [ih hrest, hrole]
    | move new tail hmoves hrest hc =>
      -- a moved edge has another role
      have hrole : edgeRole chain first last e ≠ .side := ne_side_of_moves hmoves
      rw [hc]
      show tail.inputs.length = _
      simp [ih hrest, hrole]
    | attach port tail hrole _ hrest hc =>
      -- the port of the edge is one more input
      rw [hc]
      show tail.inputs.length = _
      simp [ih hrest, hrole]
      omega

/-- `contractEdges` takes no port away. -/
theorem length_inputs_le_of_contractEdges {inputs : List Port} {es : List Edge} {c : Contraction}
    (h : g.contractEdges chain first last fused inputs es = .ok c) :
    inputs.length ≤ c.inputs.length := by
  rw [length_inputs_of_contractEdges h]
  exact Nat.le_add_right _ _

/-- Every edge that `contractEdges` leaves is an old edge that `Moves` by its role. -/
theorem moves_of_mem_contractEdges {inputs : List Port} {es : List Edge} {c : Contraction}
    (h : g.contractEdges chain first last fused inputs es = .ok c) :
    ∀ new ∈ c.edges, ∃ old ∈ es,
      (edgeRole chain first last old).Moves fused inputs.length c.inputs.length old new := by
  induction es generalizing inputs c with
  | nil =>
    cases h
    intro new hnew
    cases hnew
  | cons e rest ih =>
    intro new hnew
    cases contractStep_of_contractEdges h with
    | drop _ hrest =>
      obtain ⟨old, hold, hmoves⟩ := ih hrest new hnew
      exact ⟨old, List.mem_cons_of_mem _ hold, hmoves⟩
    | move moved tail hmoves hrest hc =>
      rw [hc] at hnew ⊢
      cases List.mem_cons.mp hnew with
      | inl heq =>
        rw [heq]
        exact ⟨e, List.mem_cons_self, hmoves _⟩
      | inr hnew =>
        obtain ⟨old, hold, hmoves⟩ := ih hrest new hnew
        exact ⟨old, List.mem_cons_of_mem _ hold, hmoves⟩
    | attach port tail hrole _ hrest hc =>
      -- the new port stands behind those so far, and it is there to the end
      have hle := length_inputs_le_of_contractEdges hrest
      rw [List.length_append, List.length_singleton] at hle
      rw [hc] at hnew ⊢
      cases List.mem_cons.mp hnew with
      | inl heq =>
        refine ⟨e, List.mem_cons_self, ?_⟩
        rw [hrole]
        exact ⟨inputs.length, Nat.le_refl _, hle, heq⟩
      | inr hnew =>
        obtain ⟨old, hold, hmoves⟩ := ih hrest new hnew
        refine ⟨old, List.mem_cons_of_mem _ hold, hmoves.mono ?_⟩
        simp

/-- The ids of the edges that `contractEdges` leaves are among the old ones, in their order. -/
theorem edgeIds_sublist_of_contractEdges {inputs : List Port} {es : List Edge} {c : Contraction}
    (h : g.contractEdges chain first last fused inputs es = .ok c) :
    (c.edges.map Edge.id).Sublist (es.map Edge.id) := by
  induction es generalizing inputs c with
  | nil =>
    cases h
    exact List.Sublist.refl _
  | cons e rest ih =>
    cases contractStep_of_contractEdges h with
    | drop _ hrest => exact (ih hrest).cons _
    | move new tail hmoves hrest hc =>
      -- a moved edge keeps its id
      have hid : new.id = e.id := (hmoves 0).id_type_eq.1
      rw [hc]
      show (new.id :: tail.edges.map Edge.id).Sublist _
      rw [hid]
      exact (ih hrest).cons_cons _
    | attach port tail _ _ hrest hc =>
      rw [hc]
      exact (ih hrest).cons_cons _

/-! ### Contracting a chain -/

/-- What `edgeRole` says about the ends of an edge. -/
theorem edgeRole_spec (chain : List String) (first last : String) (e : Edge) :
    match edgeRole chain first last e with
    | .outside => e.source.node ∉ chain ∧ e.target.node ∉ chain
    | .entry => e.source.node ∉ chain ∧ e.target.node = first
    | .side => e.source.node ∉ chain ∧ e.target.node ∈ chain ∧ e.target.node ≠ first
    | .exit => e.source.node = last ∧ e.target.node ∉ chain
    | .inner => e.source.node ∈ chain := by
  unfold edgeRole
  -- whether either end is on the chain decides, and then which end of the chain it is
  by_cases htarget : e.target.node ∈ chain
  · by_cases hsource : e.source.node ∈ chain
    · simp [htarget, hsource]
    · by_cases hfirst : e.target.node = first
      · simp [hsource, hfirst, hfirst ▸ htarget]
      · simp [htarget, hsource, hfirst]
  · by_cases hsource : e.source.node ∈ chain
    · by_cases hlast : e.source.node = last
      · simp [htarget, hlast, hlast ▸ hsource]
      · simp [htarget, hsource, hlast]
    · simp [htarget, hsource]

/-- By `edgeRole` an edge gets a port of its own if it leads from outside into a later node of the
chain. -/
theorem edgeRole_eq_side_iff {e : Edge} :
    edgeRole chain first last e = .side ↔
      e.source.node ∉ chain ∧ e.target.node ∈ chain ∧ e.target.node ≠ first := by
  unfold edgeRole
  split_ifs <;> simp_all

/-- An edge that `Moves` comes from where it came from, or from the new node in place of the
last one. -/
theorem EdgeRole.Moves.source_eq {least most : Nat} {old new : Edge}
    (h : (edgeRole chain first last old).Moves fused least most old new) :
    (old.source.node ∉ chain ∧ new.source = old.source) ∨
      (old.source.node = last ∧ new.source = ⟨fused, old.source.index⟩) := by
  have hspec := edgeRole_spec chain first last old
  cases hrole : edgeRole chain first last old with
  | outside =>
    rw [hrole] at h hspec
    cases h
    exact Or.inl ⟨hspec.1, rfl⟩
  | entry =>
    rw [hrole] at h hspec
    cases h
    exact Or.inl ⟨hspec.1, rfl⟩
  | side =>
    rw [hrole] at h hspec
    obtain ⟨i, -, -, rfl⟩ := h
    exact Or.inl ⟨hspec.1, rfl⟩
  | exit =>
    -- the only edges that get a new source are those out of the chain
    rw [hrole] at h hspec
    cases h
    exact Or.inr ⟨hspec.1, rfl⟩
  | inner =>
    rw [hrole] at h
    cases h

/-- An edge that `Moves` leads to where it led, or to the new node: in place of the first node to
the same port, in place of a later one to a port of its own. -/
theorem EdgeRole.Moves.target_eq {least most : Nat} {old new : Edge}
    (h : (edgeRole chain first last old).Moves fused least most old new) :
    (old.target.node ∉ chain ∧ new.target = old.target) ∨
      (old.target.node = first ∧ new.target = ⟨fused, old.target.index⟩) ∨
      (old.target.node ∈ chain ∧
        ∃ i, least ≤ i ∧ i < most ∧ new.target = ⟨fused, .int (i : Nat)⟩) := by
  have hspec := edgeRole_spec chain first last old
  cases hrole : edgeRole chain first last old with
  | outside =>
    rw [hrole] at h hspec
    cases h
    exact Or.inl ⟨hspec.2, rfl⟩
  | entry =>
    -- into the first node: the port stays the same
    rw [hrole] at h hspec
    cases h
    exact Or.inr (Or.inl ⟨hspec.2, rfl⟩)
  | side =>
    -- into a later node: the port is one of those that come after
    rw [hrole] at h hspec
    obtain ⟨i, hleast, hmost, rfl⟩ := h
    exact Or.inr (Or.inr ⟨hspec.2.1, i, hleast, hmost, rfl⟩)
  | exit =>
    rw [hrole] at h hspec
    cases h
    exact Or.inl ⟨hspec.2, rfl⟩
  | inner =>
    rw [hrole] at h
    cases h

/-- `contract`, where it succeeds, puts the new node in place of the chain and moves the edges. -/
theorem contract_eq_ok {g h : Graph} {chain : List Node} {first last : Node}
    {pattern : FusionPattern} {id : String} (hok : g.contract chain first last pattern id = .ok h) :
    ∃ c name, g.contractEdges (chain.map Node.id) first.id last.id id first.inputs g.edges = .ok c ∧
      fusedName chain = .ok name ∧ h = { g with
        nodes := (g.nodes.filter fun n => !(chain.map Node.id).contains n.id).insert
          (fusedNode chain first last pattern id name c.inputs)
        edges := c.edges } := by
  simp only [contract] at hok
  split at hok
  · -- some edge could not be moved
    cases hok
  · rename_i c hc
    cases hname : fusedName chain with
    | error _ =>
      rw [hname] at hok
      cases hok
    | ok name =>
      rw [hname] at hok
      cases hok
      exact ⟨c, name, hc, rfl, rfl⟩

section Contract

variable {h : Graph} {nodes : List Node} {f l : Node} {pattern : FusionPattern} {id : String}

/-- After `contract` the new node is found under the new id; other ids outside the chain are found
as before. -/
private theorem find?_contract {c : Contraction} {name : Label} {key : String} {n : Node} :
    ((g.nodes.filter fun n => !(nodes.map Node.id).contains n.id).insert
        (fusedNode nodes f l pattern id name c.inputs)).find? key = some n ↔
      if key = id then n = fusedNode nodes f l pattern id name c.inputs
      else g.nodes.find? key = some n ∧ key ∉ nodes.map Node.id := by
  have hid : (fusedNode nodes f l pattern id name c.inputs).id = id := rfl
  rw [NodeTable.find?_insert, hid]
  by_cases hkey : key = id
  · rw [if_pos hkey, if_pos hkey, Option.some.injEq]
    exact eq_comm
  · rw [if_neg hkey, if_neg hkey, NodeTable.find?_filter_eq_some_iff]
    -- another node stays if it was not on the chain
    refine and_congr_right fun hfind => ?_
    rw [NodeTable.id_eq_of_find? hfind, Bool.not_eq_true', List.contains_eq_mem,
      decide_eq_false_iff_not]

/-- The ids after `contract` are old ones and the new one. -/
private theorem mem_ids_contract (hok : g.contract nodes f l pattern id = .ok h) {key : String}
    (hkey : key ∈ h.nodes.ids) : key = id ∨ key ∈ g.nodes.ids := by
  obtain ⟨c, name, -, -, rfl⟩ := contract_eq_ok hok
  obtain ⟨n, hn⟩ := NodeTable.mem_ids_iff.mp hkey
  have hn' := find?_contract.mp hn
  split at hn'
  · exact Or.inl ‹_›
  · exact Or.inr (NodeTable.mem_ids_of_find? hn'.1)

/-- Sending the new node back to the last node of the chain turns every edge that `contract` leaves
into a path. -/
theorem transGen_of_contract (hclosed : g.Closed) (hchain : g.Unbranched nodes)
    (hfirst : nodes.head? = some f) (hlast : nodes.getLast? = some l) (hnew : id ∉ g.nodes.ids)
    (hok : g.contract nodes f l pattern id = .ok h) {u v : String} (hfeeds : h.Feeds u v) :
    Relation.TransGen g.Feeds (if u = id then l.id else u) (if v = id then l.id else v) := by
  obtain ⟨c, name, hc, -, rfl⟩ := contract_eq_ok hok
  obtain ⟨new, hmem, rfl, rfl⟩ := hfeeds
  obtain ⟨old, hold, hmoves⟩ := moves_of_mem_contractEdges hc new hmem
  -- a source in the chain is its last node, which is what the new node stands for
  have hsource : (if new.source.node = id then l.id else new.source.node) = old.source.node := by
    obtain ⟨-, heq⟩ | ⟨hl, heq⟩ := hmoves.source_eq
    · have hne : old.source.node ≠ id := fun heq => hnew (heq ▸ (hclosed old hold).1)
      rw [heq, if_neg hne]
    · rw [heq, if_pos rfl, hl]
  -- a target in the chain goes on along the chain to its last node
  have htarget : Relation.ReflTransGen g.Feeds old.target.node
      (if new.target.node = id then l.id else new.target.node) := by
    obtain ⟨-, heq⟩ | ⟨hf, heq⟩ | ⟨hin, i, -, -, heq⟩ := hmoves.target_eq
    · have hne : old.target.node ≠ id := fun heq => hnew (heq ▸ (hclosed old hold).2)
      rw [heq, if_neg hne]
    · rw [heq, if_pos rfl, hf]
      exact hchain.reaches_last hlast f (List.mem_of_mem_head? hfirst)
    · obtain ⟨n, hn, hid⟩ := List.mem_map.mp hin
      rw [heq, if_pos rfl, ← hid]
      exact hchain.reaches_last hlast n hn
  rw [hsource]
  exact .head' ⟨old, hold, rfl, rfl⟩ htarget

/-- `contract` on an `Unbranched` chain of a `WellFormed` graph, with a new id, keeps the graph well
formed. -/
private theorem contract_wellFormed (hg : g.WellFormed) (hchain : g.Unbranched nodes)
    (hfirst : nodes.head? = some f) (hlast : nodes.getLast? = some l) (hnew : id ∉ g.nodes.ids)
    (hok : g.contract nodes f l pattern id = .ok h) : h.WellFormed := by
  have hacyclic : h.Acyclic :=
    hg.acyclic.of_map (fun key => if key = id then l.id else key) fun _ _ hfeeds =>
      transGen_of_contract hg.closed hchain hfirst hlast hnew hok hfeeds
  obtain ⟨c, name, hc, -, rfl⟩ := contract_eq_ok hok
  have hmoves := moves_of_mem_contractEdges hc
  have hports := length_inputs_le_of_contractEdges hc
  have hf : g.nodes.find? f.id = some f :=
    NodeTable.find?_of_mem (hchain.mem_nodes f (List.mem_of_mem_head? hfirst))
  have hl : g.nodes.find? l.id = some l :=
    NodeTable.find?_of_mem (hchain.mem_nodes l (List.mem_of_getLast? hlast))
  have hfused : ((g.nodes.filter fun n => !(nodes.map Node.id).contains n.id).insert
      (fusedNode nodes f l pattern id name c.inputs)).find? id =
        some (fusedNode nodes f l pattern id name c.inputs) :=
    find?_contract.mpr (by rw [if_pos rfl])
  refine ⟨hg.edgeIds_nodup.sublist (edgeIds_sublist_of_contractEdges hc), ?_, ?_, hacyclic⟩
  · intro new hmem
    obtain ⟨old, hold, hmove⟩ := hmoves new hmem
    obtain ⟨n, hn, hport⟩ := hg.source_port old hold
    obtain ⟨hout, heq⟩ | ⟨hl', heq⟩ := hmove.source_eq
    · have hne : old.source.node ≠ id := fun heq => hnew (heq ▸ NodeTable.mem_ids_of_find? hn)
      rw [heq]
      refine ⟨n, find?_contract.mpr ?_, hport⟩
      rw [if_neg hne]
      exact ⟨hn, hout⟩
    · -- the new node has the output ports of the last one
      rw [hl', hl, Option.some.injEq] at hn
      subst hn
      rw [heq]
      exact ⟨_, hfused, hport⟩
  · intro new hmem
    obtain ⟨old, hold, hmove⟩ := hmoves new hmem
    obtain ⟨n, hn, hport⟩ := hg.target_port old hold
    obtain ⟨hout, heq⟩ | ⟨hf', heq⟩ | ⟨-, i, -, hi, heq⟩ := hmove.target_eq
    · have hne : old.target.node ≠ id := fun heq => hnew (heq ▸ NodeTable.mem_ids_of_find? hn)
      rw [heq]
      refine ⟨n, find?_contract.mpr ?_, hport⟩
      rw [if_neg hne]
      exact ⟨hn, hout⟩
    · -- the input ports of the first node come first in the new one
      rw [hf', hf, Option.some.injEq] at hn
      subst hn
      rw [heq]
      exact ⟨_, hfused, hport.mono hports⟩
    · -- a port of its own lies behind those, and was counted
      rw [heq]
      exact ⟨_, hfused, isPort_int hi⟩

end Contract

/-! ### Fusing -/

/-- What `firstMatch` gives is found by `findChain` for the kinds of one of the patterns. -/
theorem findChain_of_firstMatch {g : Graph} {patterns : List FusionPattern}
    {pattern : FusionPattern} {chain : List Node}
    (h : g.firstMatch patterns = .ok (some (pattern, chain))) :
    pattern ∈ patterns ∧ pattern.ops ≠ [] ∧ ∃ n ∈ g.nodes.toList,
      g.findChain n.id pattern.ops = some chain := by
  induction patterns with
  | nil => cases h
  | cons p rest ih =>
    rw [firstMatch] at h
    cases hmatch : g.matchPattern p with
    | error _ =>
      rw [hmatch] at h
      cases h
    | ok found =>
      rw [hmatch] at h
      cases found with
      | none =>
        obtain ⟨hmem, hfound⟩ := ih h
        exact ⟨List.mem_cons_of_mem _ hmem, hfound⟩
      | some nodes =>
        cases h
        unfold matchPattern at hmatch
        split at hmatch
        · -- a pattern without kinds matches no chain
          split at hmatch <;> cases hmatch
        · rename_i kind tail hops
          obtain ⟨n, hn, hfind⟩ := List.exists_of_findSome?_eq_some (Except.ok.inj hmatch)
          simp only [Option.ite_none_right_eq_some] at hfind
          exact ⟨List.mem_cons_self, by simp [hops], n, hn, hfind.2⟩

/-- A chain that `firstMatch` gives is `Unbranched`. -/
theorem firstMatch_unbranched {g : Graph} {patterns : List FusionPattern} {pattern : FusionPattern}
    {chain : List Node} (h : g.firstMatch patterns = .ok (some (pattern, chain))) :
    g.Unbranched chain := by
  obtain ⟨_, hops, n, _, hfind⟩ := findChain_of_firstMatch h
  exact (findChain_unbranched hops hfind).2

/-- `fuseChain` keeps a graph `WellFormed` and the id source fresh for it. -/
theorem fuseChain_wellFormed {g h : Graph} {chain : List Node} {pattern : FusionPattern}
    {ids : IdSource} (hg : g.WellFormed) (hfresh : ids.FreshFor g.nodes)
    (hchain : g.Unbranched chain) (hok : (g.fuseChain chain pattern ids).1 = .ok h) :
    h.WellFormed ∧ (g.fuseChain chain pattern ids).2.FreshFor h.nodes := by
  unfold fuseChain at hok ⊢
  split at hok
  · rename_i first last hfirst hlast
    have hnew := hfresh.next_not_mem "fused"
    exact ⟨contract_wellFormed hg hchain hfirst hlast hnew hok,
      hfresh.next fun _ hid => mem_ids_contract hok hid⟩
  · cases hok

/-- `fuseWithin` any budget keeps a graph `WellFormed` and the id source fresh for it. -/
theorem fuseWithin_wellFormed {patterns : List FusionPattern} {g h : Graph} {ids : IdSource}
    {budget : Nat} (hg : g.WellFormed) (hfresh : ids.FreshFor g.nodes)
    (hok : (fuseWithin patterns g ids budget).1 = .ok h) :
    h.WellFormed ∧ (fuseWithin patterns g ids budget).2.FreshFor h.nodes := by
  -- whether a fusion makes the graph smaller or uses up some of the budget, the rest is the same
  fun_induction fuseWithin patterns g ids budget with
  | case1 => cases hok
  | case2 =>
    cases hok
    exact ⟨hg, hfresh⟩
  | case3 => cases hok
  | case4 g ids budget pattern chain hmatch next hnext hlt ih =>
    have hstep := fuseChain_wellFormed hg hfresh (firstMatch_unbranched hmatch) hnext
    exact ih hstep.1 hstep.2 hok
  | case5 g ids pattern chain hmatch next hnext hlt =>
    cases hok
    exact fuseChain_wellFormed hg hfresh (firstMatch_unbranched hmatch) hnext
  | case6 g ids pattern chain hmatch next hnext hlt left ih =>
    have hstep := fuseChain_wellFormed hg hfresh (firstMatch_unbranched hmatch) hnext
    exact ih hstep.1 hstep.2 hok

end TensorGraph.Graph
