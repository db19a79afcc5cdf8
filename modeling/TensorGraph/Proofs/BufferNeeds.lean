import TensorGraph.Memory.Plan
import TensorGraph.Proofs.Outcome
import TensorGraph.Proofs.Validity

/-!
# What buffers a graph needs

The needs of a graph are found in one sweep over its topological order. `NeedsUpTo` is the invariant
of that sweep: each need describes the node at the rank of its birth, needs come in order of birth,
and a node that shares a buffer has one input edge, which is also the only output edge of its
producer. Nodes that share one buffer therefore form an unbranched chain (`WritesInto.next`).
-/

namespace TensorGraph

/-! ### Ranks -/

/-- Ids being distinct, `rankIn` gives the position of a node. -/
private theorem rankIn_eq_some_iff {order : List Node} (hnodup : (order.map Node.id).Nodup)
    {id : String} {rank : Nat} :
    rankIn order id = some rank ↔ ∃ n, order[rank]? = some n ∧ n.id = id := by
  rw [rankIn, List.findIdx?_eq_some_iff_getElem]
  constructor
  · intro h
    obtain ⟨hlt, hid, _⟩ := h
    exact ⟨order[rank], List.getElem?_eq_getElem hlt, of_decide_eq_true hid⟩
  · intro h
    obtain ⟨n, hn, hid⟩ := h
    obtain ⟨hlt, hget⟩ := List.getElem?_eq_some_iff.mp hn
    refine ⟨hlt, by rw [hget, hid, decide_eq_true_iff], fun j hj hsame => ?_⟩
    -- an earlier node with the same id would stand at the same position
    have hids : (order.map Node.id)[j]? = (order.map Node.id)[rank]? := by
      rw [decide_eq_true_iff] at hsame
      rw [List.getElem?_map, List.getElem?_map, hn,
        List.getElem?_eq_getElem (Nat.lt_trans hj hlt), Option.map_some, Option.map_some, hsame,
        hid]
    have hjrank := (List.getElem?_inj (by rw [List.length_map]; omega) hnodup).mp hids
    omega

/-- Every node of a graph has a rank, found by `rankIn`. -/
theorem Graph.exists_rankIn (g : Graph) {id : String} (h : id ∈ g.nodes.ids) :
    ∃ rank, rankIn g.topologicalOrder id = some rank := by
  obtain ⟨n, hn, hid⟩ := List.mem_map.mp h
  obtain ⟨rank, hrank⟩ := List.getElem?_of_mem (g.topologicalOrder_perm.mem_iff.mpr hn)
  exact ⟨rank, (rankIn_eq_some_iff g.topologicalOrder_ids_nodup).mpr ⟨n, hrank, hid⟩⟩

/-- An edge of a `WellFormed` graph leads from a lower `rankIn` the order to a higher one. -/
theorem Graph.WellFormed.rankIn_lt {g : Graph} (hg : g.WellFormed) {e : Edge} (he : e ∈ g.edges)
    {i j : Nat} (hi : rankIn g.topologicalOrder e.source.node = some i)
    (hj : rankIn g.topologicalOrder e.target.node = some j) : i < j := by
  obtain ⟨n, hn, hid⟩ := (rankIn_eq_some_iff g.topologicalOrder_ids_nodup).mp hj
  obtain ⟨hlt, hget⟩ := List.getElem?_eq_some_iff.mp hn
  have horder : g.topologicalOrder =
      g.topologicalOrder.take j ++ n :: g.topologicalOrder.drop (j + 1) := by
    rw [← hget, List.getElem_cons_drop, List.take_append_drop]
  -- the source stands among the nodes before the target
  have hsource := Graph.source_mem_of_topologicalOrder hg.closed hg.acyclic horder
    (Graph.mem_inputEdges.mpr ⟨he, hid.symm⟩)
  obtain ⟨m, hm, hmid⟩ := List.mem_map.mp hsource
  obtain ⟨k, hk⟩ := List.getElem?_of_mem hm
  rw [List.getElem?_take] at hk
  split at hk
  · rename_i hkj
    have hki := (rankIn_eq_some_iff g.topologicalOrder_ids_nodup).mpr ⟨m, hk, hmid⟩
    rw [hi, Option.some.injEq] at hki
    omega
  · cases hk

/-! ### Last readers and last uses -/

/-- A `foldl` whose steps never go down ends above where it starts. -/
private theorem le_foldl_of_le {α : Type} {step : Nat → α → Nat} (hgrow : ∀ m x, m ≤ step m x)
    (xs : List α) (start : Nat) : start ≤ xs.foldl step start := by
  induction xs generalizing start with
  | nil => exact Nat.le_refl _
  | cons x rest ih => exact Nat.le_trans (hgrow start x) (ih (step start x))

/-- A `foldl` whose steps never go down ends above whatever one of its steps reaches. -/
theorem le_foldl_of_mem {α : Type} {step : Nat → α → Nat} (hgrow : ∀ m x, m ≤ step m x)
    {xs : List α} {x : α} {value : Nat} (hx : x ∈ xs) (hvalue : ∀ m, value ≤ step m x)
    (start : Nat) :
    value ≤ xs.foldl step start := by
  induction xs generalizing start with
  | nil => cases hx
  | cons y rest ih =>
    cases List.mem_cons.mp hx with
    | inl heq => exact Nat.le_trans (heq ▸ hvalue start) (le_foldl_of_le hgrow rest _)
    | inr hrest => exact ih hrest _

/-- The `lastReader` runs no earlier than the node: no buffer dies before it is born. -/
theorem birth_le_lastReader (g : Graph) (order : List Node) (id : String) (birth : Nat) :
    birth ≤ lastReader g order id birth :=
  le_foldl_of_le (fun _ _ => Nat.le_max_left _ _) _ _

/-- The target of an edge out of a node runs no later than the `lastReader` of the node. -/
theorem rank_le_lastReader {g : Graph} {order : List Node} {e : Edge} {rank : Nat} (birth : Nat)
    (he : e ∈ g.edges) (hrank : rankIn order e.target.node = some rank) :
    rank ≤ lastReader g order e.source.node birth := by
  apply le_foldl_of_mem (fun _ _ => Nat.le_max_left _ _) (Graph.mem_outputEdges.mpr ⟨he, rfl⟩)
  intro m
  rw [hrank, Option.getD_some]
  exact Nat.le_max_right _ _

/-- Looking at one more need never lowers `lastUse`. -/
private theorem le_lastUse_step (b : BufferNeed) (last : Nat) (c : BufferNeed) :
    last ≤ if c.shared = some b.node then max last c.death else last := by
  split
  · exact Nat.le_max_left _ _
  · exact Nat.le_refl _

/-- `lastUse` does not come before the last reader of the need's own node. -/
theorem death_le_lastUse (needs : List BufferNeed) (b : BufferNeed) : b.death ≤ lastUse needs b :=
  le_foldl_of_le (le_lastUse_step b) needs b.death

/-- `lastUse` does not come before the last reader of any node that shares the buffer. -/
private theorem sharer_death_le_lastUse {needs : List BufferNeed} {b c : BufferNeed}
    (hc : c ∈ needs) (hshared : c.shared = some b.node) : c.death ≤ lastUse needs b := by
  apply le_foldl_of_mem (le_lastUse_step b) hc
  intro m
  rw [if_pos hshared]
  exact Nat.le_max_right _ _

/-! ### The sweep over the order -/

/-- How a need belongs to a graph, given all needs: the node at its birth has a typed output, the
death is that of the last reader, and a buffer is shared along an edge that both its ends have to
themselves, by a node that can overwrite its input and asks for no bytes of its own. -/
structure BufferNeed.Describes (b : BufferNeed) (g : Graph) (needs : List BufferNeed) : Prop where
  at_birth : ∃ n t, g.topologicalOrder[b.birth]? = some n ∧ n.id = b.node ∧ n.op ≠ .output ∧
    n.outputType = some t ∧ (b.shared = none → t.byteCount = .ok b.size)
  death_eq : b.death = lastReader g g.topologicalOrder b.node b.birth
  sharing : ∀ root, b.shared = some root →
    ∃ e, g.inputEdges b.node = [e] ∧ g.outputEdges e.source.node = [e] ∧
      ∃ p ∈ needs, p.node = e.source.node ∧ p.birth < b.birth ∧ p.root = root
  overwriting : b.shared.isSome = true →
    ∃ n ∈ g.nodes.toList, n.id = b.node ∧ n.op.signature.inPlace = true
  size_of_shared : b.shared.isSome = true → b.size = 0

/-- A need still `Describes` its node when more needs are known. -/
theorem BufferNeed.Describes.mono {b : BufferNeed} {g : Graph} {needs more : List BufferNeed}
    (h : b.Describes g needs) (hsub : ∀ c ∈ needs, c ∈ more) : b.Describes g more := by
  refine ⟨h.at_birth, h.death_eq, fun root hroot => ?_, h.overwriting, h.size_of_shared⟩
  obtain ⟨e, hin, hout, p, hp, hspec⟩ := h.sharing root hroot
  exact ⟨e, hin, hout, p, hsub p hp, hspec⟩

/-- The needs found among the first nodes of the topological order. -/
structure NeedsUpTo (g : Graph) (rank : Nat) (needs : List BufferNeed) : Prop where
  describes : ∀ b ∈ needs, b.Describes g needs
  increasing : needs.Pairwise fun b c => b.birth < c.birth
  birth_lt : ∀ b ∈ needs, b.birth < rank
  complete : ∀ i n, i < rank → g.topologicalOrder[i]? = some n → n.op ≠ .output →
    n.outputType.isSome = true → ∃ b ∈ needs, b.node = n.id

private theorem needsUpTo_zero (g : Graph) : NeedsUpTo g 0 [] :=
  ⟨List.forall_mem_nil _, List.Pairwise.nil, List.forall_mem_nil _, fun _ _ hlt => by omega⟩

/-- `NeedsUpTo` goes on past a node that needs no buffer. -/
theorem NeedsUpTo.skip {g : Graph} {rank : Nat} {needs : List BufferNeed} {n : Node}
    (h : NeedsUpTo g rank needs) (hn : g.topologicalOrder[rank]? = some n)
    (hnone : n.op = .output ∨ n.outputType = none) : NeedsUpTo g (rank + 1) needs := by
  refine ⟨h.describes, h.increasing, fun b hb => Nat.lt_succ_of_lt (h.birth_lt b hb), ?_⟩
  -- at the new rank stands a node without a buffer
  intro i m hi hm hop htype
  by_cases hlast : i = rank
  · rw [hlast, hn, Option.some.injEq] at hm
    subst hm
    cases hnone with
    | inl houtput => exact absurd houtput hop
    | inr huntyped =>
      rw [huntyped] at htype
      cases htype
  · exact h.complete i m (by omega) hm hop htype

/-- `NeedsUpTo` goes on past a node when the need that describes it is added. -/
theorem NeedsUpTo.add {g : Graph} {rank : Nat} {needs : List BufferNeed} {n : Node} {b : BufferNeed}
    (h : NeedsUpTo g rank needs) (hn : g.topologicalOrder[rank]? = some n) (hbirth : b.birth = rank)
    (hnode : b.node = n.id) (hb : b.Describes g needs) :
    NeedsUpTo g (rank + 1) (needs ++ [b]) := by
  have hsub : ∀ c ∈ needs, c ∈ needs ++ [b] := fun c hc => List.mem_append_left _ hc
  refine ⟨?_, ?_, ?_, ?_⟩
  · -- old needs are described as before, and the new one by what is given
    intro c hc
    rw [List.mem_append, List.mem_singleton] at hc
    cases hc with
    | inl hold => exact (h.describes c hold).mono hsub
    | inr hnew => exact hnew ▸ hb.mono hsub
  · -- all old needs are born before this rank
    refine List.pairwise_append.mpr ⟨h.increasing, List.pairwise_singleton _ _, ?_⟩
    intro c hc d hd
    rw [List.mem_singleton.mp hd, hbirth]
    exact h.birth_lt c hc
  · intro c hc
    rw [List.mem_append, List.mem_singleton] at hc
    cases hc with
    | inl hold => exact Nat.lt_succ_of_lt (h.birth_lt c hold)
    | inr hnew =>
      rw [hnew, hbirth]
      exact Nat.lt_succ_self _
  · intro i m hi hm hop htype
    by_cases hlast : i = rank
    · rw [hlast, hn, Option.some.injEq] at hm
      exact ⟨b, List.mem_append_right _ List.mem_cons_self, hm ▸ hnode⟩
    · obtain ⟨c, hc, hid⟩ := h.complete i m (by omega) hm hop htype
      exact ⟨c, hsub c hc, hid⟩

/-- In an acyclic graph a buffer with a `sharedRoot` is shared with an earlier node, along an edge
that both ends have to themselves. -/
private theorem sharedRoot_eq_some {g : Graph} {needs : List BufferNeed} {n : Node} {root : String}
    (hacyclic : g.Acyclic) (h : sharedRoot g needs n = some root) :
    ∃ e, g.inputEdges n.id = [e] ∧ g.outputEdges e.source.node = [e] ∧
      ∃ p ∈ needs, p.node = e.source.node ∧ p.root = root := by
  rw [sharedRoot] at h
  split at h
  · rename_i e hin
    have he : e ∈ g.edges ∧ e.target.node = n.id :=
      Graph.mem_inputEdges.mp (hin ▸ List.mem_singleton.mpr rfl)
    simp only [Bool.and_eq_true, beq_iff_eq] at h
    split at h
    · rename_i hplace
      obtain ⟨f, hout⟩ := List.length_eq_one_iff.mp hplace.2
      have hef : e = f := by
        have hmem : e ∈ g.outputEdges e.source.node := Graph.mem_outputEdges.mpr ⟨he.1, rfl⟩
        rw [hout, List.mem_singleton] at hmem
        exact hmem
      split at h
      · -- the producer has a need, which is an earlier one
        rename_i p hfind
        have hp := List.find?_some hfind
        rw [decide_eq_true_iff] at hp
        exact ⟨e, hin, hef ▸ hout, p, List.mem_of_find?_eq_some hfind, hp, Option.some.inj h⟩
      · split at h
        · -- a node cannot be its own producer
          rename_i hself
          exact absurd (Relation.TransGen.single ⟨e, he.1, hself, he.2⟩) (hacyclic n.id)
        · cases h
    · cases h
  · cases h

/-- Only a node that can overwrite its input has a `sharedRoot`. -/
private theorem inPlace_of_sharedRoot {g : Graph} {needs : List BufferNeed} {n : Node}
    {root : String} (h : sharedRoot g needs n = some root) : n.op.signature.inPlace = true := by
  rw [sharedRoot] at h
  split at h
  · simp only [Bool.and_eq_true] at h
    split at h
    · -- the first of the two conditions
      rename_i hplace
      exact hplace.1
    · cases h
  · cases h

/-- `addNeed` passes a node if its output type has a number of bytes. -/
private theorem addNeed_eq_ok {n : Node}
    (hsize : ∀ t, n.outputType = some t → ∃ bytes, t.byteCount = .ok bytes) (g : Graph)
    (order : List Node) (needs : List BufferNeed) (rank : Nat) :
    ∃ more, addNeed g order needs rank n = .ok more := by
  unfold addNeed
  split
  · -- a model output has no buffer
    exact ⟨needs, rfl⟩
  · -- neither has a node without a type
    exact ⟨needs, rfl⟩
  · rename_i t htype _
    -- only a buffer of its own has to be measured
    obtain ⟨bytes, hbytes⟩ := hsize t htype
    cases sharedRoot g needs n with
    | some root => exact ⟨_, rfl⟩
    | none => exact ⟨_, by rw [hbytes]; rfl⟩

/-- `addNeed` takes `NeedsUpTo` one node further. -/
private theorem NeedsUpTo.of_addNeed {g : Graph} {rank : Nat} {needs more : List BufferNeed}
    {n : Node} (hacyclic : g.Acyclic) (h : NeedsUpTo g rank needs)
    (hn : g.topologicalOrder[rank]? = some n)
    (hok : addNeed g g.topologicalOrder needs rank n = .ok more) : NeedsUpTo g (rank + 1) more := by
  unfold addNeed at hok
  split at hok
  · rename_i hop
    cases hok
    exact h.skip hn (Or.inl hop)
  · rename_i htype _
    cases hok
    exact h.skip hn (Or.inr htype)
  · rename_i t htype hop
    cases hshared : sharedRoot g needs n with
    | some root =>
      -- the node shares the buffer of its producer, whose need is among those found before
      rw [hshared] at hok
      cases hok
      obtain ⟨e, hin, hout, p, hp, hnode, hroot⟩ := sharedRoot_eq_some hacyclic hshared
      have hmem := g.topologicalOrder_perm.mem_iff.mp (List.mem_of_getElem? hn)
      refine h.add hn rfl rfl ⟨⟨n, t, hn, rfl, hop, htype, nofun⟩, rfl, ?_,
        fun _ => ⟨n, hmem, rfl, inPlace_of_sharedRoot hshared⟩, fun _ => rfl⟩
      intro root' hroot'
      cases hroot'
      exact ⟨e, hin, hout, p, hp, hnode, h.birth_lt p hp, hroot⟩
    | none =>
      rw [hshared] at hok
      obtain ⟨bytes, hbytes, hmore⟩ := exists_of_bind_eq_ok hok
      cases hmore
      exact h.add hn rfl rfl ⟨⟨n, t, hn, rfl, hop, htype, fun _ => hbytes⟩, rfl, nofun, nofun,
        nofun⟩

/-- `needsFrom` goes through the rest of the order if output types have a number of bytes. -/
private theorem needsFrom_eq_ok {rest : List Node}
    (hsize : ∀ n ∈ rest, ∀ t, n.outputType = some t → ∃ bytes, t.byteCount = .ok bytes)
    (g : Graph) (order : List Node) (needs : List BufferNeed) (rank : Nat) :
    ∃ all, needsFrom g order needs rank rest = .ok all := by
  induction rest generalizing needs rank with
  | nil => exact ⟨needs, rfl⟩
  | cons n rest ih =>
    obtain ⟨hfirst, hrest⟩ := List.forall_mem_cons.mp hsize
    obtain ⟨more, hmore⟩ := addNeed_eq_ok hfirst g order needs rank
    obtain ⟨all, hall⟩ := ih hrest more (rank + 1)
    exact ⟨all, by rw [needsFrom, hmore]; exact hall⟩

/-- `needsFrom` takes `NeedsUpTo` to the end of the order. -/
private theorem NeedsUpTo.of_needsFrom {g : Graph} {rank : Nat} {needs all : List BufferNeed}
    {rest : List Node} (hacyclic : g.Acyclic) (h : NeedsUpTo g rank needs)
    (hrest : g.topologicalOrder.drop rank = rest)
    (hok : needsFrom g g.topologicalOrder needs rank rest = .ok all) :
    NeedsUpTo g g.topologicalOrder.length all := by
  induction rest generalizing rank needs with
  | nil =>
    -- at the end of the order, every rank has been passed
    cases hok
    have hlength := List.drop_eq_nil_iff.mp hrest
    refine ⟨h.describes, h.increasing, ?_, ?_⟩
    · intro b hb
      obtain ⟨n, _, hn, _⟩ := (h.describes b hb).at_birth
      exact (List.getElem?_eq_some_iff.mp hn).1
    · exact fun i n hi => h.complete i n (by omega)
  | cons n rest ih =>
    have hn : g.topologicalOrder[rank]? = some n := by
      rw [← List.head?_drop, hrest, List.head?_cons]
    have hdrop : g.topologicalOrder.drop (rank + 1) = rest := by
      rw [← List.tail_drop, hrest, List.tail_cons]
    obtain ⟨more, hmore, hall⟩ := exists_of_bind_eq_ok hok
    exact ih (h.of_addNeed hacyclic hn hmore) hdrop hall

/-- Whether a node needs a buffer: it has a typed output and is no output node. -/
def Node.isPlanned (n : Node) : Bool := n.op != .output && n.outputType.isSome

/-- `addNeed` adds one need, for the node that it passes, or none if that node needs no buffer. -/
private theorem map_node_addNeed {g : Graph} {order : List Node} {needs more : List BufferNeed}
    {rank : Nat} {n : Node} (hok : addNeed g order needs rank n = .ok more) :
    more.map BufferNeed.node =
      needs.map BufferNeed.node ++ ([n].filter Node.isPlanned).map Node.id := by
  unfold addNeed at hok
  split at hok
  · rename_i hop
    -- a model output has no buffer
    cases hok
    simp [Node.isPlanned, hop]
  · rename_i htype _
    -- neither has a node without a type
    cases hok
    simp [Node.isPlanned, htype]
  · rename_i t htype hop
    -- the node has a buffer, its own or one that it shares
    have hplanned : [n].filter Node.isPlanned = [n] := by
      simpa [Node.isPlanned, htype] using hop
    rw [hplanned]
    cases hshared : sharedRoot g needs n with
    | some root =>
      rw [hshared] at hok
      cases hok
      simp
    | none =>
      rw [hshared] at hok
      obtain ⟨bytes, -, hmore⟩ := exists_of_bind_eq_ok hok
      cases hmore
      simp

/-- `needsFrom` adds a need for each node that needs a buffer, in order. -/
private theorem map_node_needsFrom {g : Graph} {order : List Node} {needs all : List BufferNeed}
    {rank : Nat} {rest : List Node} (hok : needsFrom g order needs rank rest = .ok all) :
    all.map BufferNeed.node =
      needs.map BufferNeed.node ++ (rest.filter Node.isPlanned).map Node.id := by
  induction rest generalizing needs rank with
  | nil =>
    cases hok
    simp
  | cons n rest ih =>
    -- what the first node adds stands before what the rest adds
    obtain ⟨more, hmore, hall⟩ := exists_of_bind_eq_ok hok
    rw [ih hall, map_node_addNeed hmore, List.append_assoc, ← List.map_append, ← List.filter_append]
    rfl

/-- `bufferNeeds` of a graph, well formed or not, are those of its nodes that need a buffer, one for
each, in topological order. -/
theorem map_node_bufferNeeds {g : Graph} {needs : List BufferNeed}
    (hok : bufferNeeds g = .ok needs) :
    needs.map BufferNeed.node = (g.topologicalOrder.filter Node.isPlanned).map Node.id :=
  map_node_needsFrom hok

/-- The `bufferNeeds` of an acyclic graph are `NeedsUpTo` the end of its order. -/
theorem needsUpTo_of_bufferNeeds {g : Graph} (hacyclic : g.Acyclic) {needs : List BufferNeed}
    (hok : bufferNeeds g = .ok needs) : NeedsUpTo g g.topologicalOrder.length needs :=
  (needsUpTo_zero g).of_needsFrom hacyclic List.drop_zero hok

/-- `bufferNeeds` are found if every output type has a number of bytes. -/
theorem bufferNeeds_eq_ok {g : Graph}
    (hsize : ∀ n ∈ g.nodes.toList, ∀ t, n.outputType = some t → ∃ bytes, t.byteCount = .ok bytes) :
    ∃ needs, bufferNeeds g = .ok needs :=
  needsFrom_eq_ok (fun n hn => hsize n (g.topologicalOrder_perm.mem_iff.mp hn)) g _ [] 0

/-! ### Chains of nodes that share a buffer -/

section
variable {g : Graph} {rank : Nat} {needs : List BufferNeed}

/-- Under `NeedsUpTo` a need is known by the rank of its birth. -/
theorem NeedsUpTo.eq_of_birth_eq (h : NeedsUpTo g rank needs) {b c : BufferNeed} (hb : b ∈ needs)
    (hc : c ∈ needs) (hbirth : b.birth = c.birth) : b = c := by
  have hnodup : (needs.map BufferNeed.birth).Nodup := by
    rw [List.Nodup, List.pairwise_map]
    exact h.increasing.imp Nat.ne_of_lt
  exact List.inj_on_of_nodup_map hnodup hb hc hbirth

/-- Under `NeedsUpTo` the birth of a need is `rankIn` of its node. -/
theorem NeedsUpTo.rankIn_eq (h : NeedsUpTo g rank needs) {b : BufferNeed} (hb : b ∈ needs) :
    rankIn g.topologicalOrder b.node = some b.birth := by
  obtain ⟨n, _, hn, hid, _⟩ := (h.describes b hb).at_birth
  exact (rankIn_eq_some_iff g.topologicalOrder_ids_nodup).mpr ⟨n, hn, hid⟩

/-- Under `NeedsUpTo` a need is known by its node. -/
theorem NeedsUpTo.eq_of_node_eq (h : NeedsUpTo g rank needs) {b c : BufferNeed} (hb : b ∈ needs)
    (hc : c ∈ needs) (hnode : b.node = c.node) : b = c := by
  have hrank := h.rankIn_eq hb
  rw [hnode, h.rankIn_eq hc, Option.some.injEq] at hrank
  exact h.eq_of_birth_eq hb hc hrank.symm

/-- The need whose buffer a need writes into: its own, or that of its only producer, whose only
reader it is. -/
inductive WritesInto (g : Graph) (needs : List BufferNeed) : BufferNeed → BufferNeed → Prop
  | own {b : BufferNeed} (hb : b ∈ needs) (hown : b.shared = none) : WritesInto g needs b b
  | through {b p r : BufferNeed} {e : Edge} (hb : b ∈ needs) (hshared : b.shared = some r.node)
      (hin : g.inputEdges b.node = [e]) (hout : g.outputEdges e.source.node = [e])
      (hnode : p.node = e.source.node) (hbirth : p.birth < b.birth) (hp : WritesInto g needs p r) :
      WritesInto g needs b r

/-- What a need `WritesInto` has its buffer to itself and is born first. -/
theorem WritesInto.root {b r : BufferNeed} (h : WritesInto g needs b r) :
    r ∈ needs ∧ r.shared = none ∧ r.birth ≤ b.birth ∧ b.root = r.node := by
  induction h with
  | own hb hown => exact ⟨hb, hown, Nat.le_refl _, by rw [BufferNeed.root, hown, Option.getD_none]⟩
  | through hb hshared hin hout hnode hbirth _ ih =>
    obtain ⟨hr, hown, hle, _⟩ := ih
    exact ⟨hr, hown, by omega, by rw [BufferNeed.root, hshared, Option.getD_some]⟩

theorem WritesInto.mem {b r : BufferNeed} (h : WritesInto g needs b r) : b ∈ needs := by
  cases h with
  | own hb => exact hb
  | through hb => exact hb

/-- A buffer is in use until the last reader of every node that `WritesInto` it has run. -/
theorem WritesInto.death_le_lastUse {b r : BufferNeed} (h : WritesInto g needs b r) :
    b.death ≤ lastUse needs r := by
  cases h with
  | own => exact TensorGraph.death_le_lastUse needs b
  | through hb hshared => exact sharer_death_le_lastUse hb hshared

/-- Every need `WritesInto` a buffer. -/
theorem NeedsUpTo.exists_writesInto (h : NeedsUpTo g rank needs) {b : BufferNeed} (hb : b ∈ needs) :
    ∃ r, WritesInto g needs b r := by
  -- the producer of a need that shares its buffer is born earlier
  induction hbirth : b.birth using Nat.strongRecOn generalizing b with
  | ind birth ih =>
    cases hshared : b.shared with
    | none => exact ⟨b, .own hb hshared⟩
    | some root =>
      obtain ⟨e, hin, hout, p, hp, hnode, hlt, hroot⟩ := (h.describes b hb).sharing root hshared
      obtain ⟨r, hr⟩ := ih p.birth (hbirth ▸ hlt) hp rfl
      have hrnode : root = r.node := hroot ▸ hr.root.2.2.2
      exact ⟨r, .through hb (hrnode ▸ hshared) hin hout hnode hlt hr⟩

/-- Of two needs with `WritesInto` one buffer, the later one comes after the only reader of the
earlier one, or is that reader. -/
theorem WritesInto.next (h : NeedsUpTo g rank needs) {a b r : BufferNeed}
    (ha : WritesInto g needs a r) (hb : WritesInto g needs b r) (hlt : a.birth < b.birth) :
    ∃ c ∈ needs, ∃ e, c.shared.isSome = true ∧ g.inputEdges c.node = [e] ∧
      g.outputEdges a.node = [e] ∧ c.birth ≤ b.birth := by
  -- the two change places when the producer of b comes before a, so the induction is on both births
  induction htotal : a.birth + b.birth using Nat.strongRecOn generalizing a b with
  | ind total ih =>
    cases hb with
    | own =>
      -- a root is born before whatever writes into it
      have hle := ha.root.2.2.1
      omega
    | @through _ p _ e hbmem hshared hin hout hnode hbirth hp =>
      by_cases hap : a.birth < p.birth
      · obtain ⟨c, hc, f, hsome, hcin, hcout, hle⟩ := ih _ (by omega) ha hp hap rfl
        exact ⟨c, hc, f, hsome, hcin, hcout, by omega⟩
      · by_cases hpa : p.birth < a.birth
        · -- the only reader of p would come between p and b, but that reader is b
          obtain ⟨c, hc, f, _, hcin, hcout, hle⟩ := ih _ (by omega) hp ha hpa rfl
          rw [hnode, hout, List.cons.injEq] at hcout
          have hctarget : f.target.node = c.node :=
            (Graph.mem_inputEdges.mp (hcin ▸ List.mem_singleton.mpr rfl)).2
          have hbtarget : e.target.node = b.node :=
            (Graph.mem_inputEdges.mp (hin ▸ List.mem_singleton.mpr rfl)).2
          have hcb : c = b := h.eq_of_node_eq hc hbmem
            (hctarget.symm.trans (hcout.1 ▸ hbtarget))
          rw [hcb] at hle
          omega
        · have hsame : a = p := h.eq_of_birth_eq ha.mem hp.mem (by omega)
          refine ⟨b, hbmem, e, by rw [hshared]; rfl, hin, ?_, Nat.le_refl _⟩
          rw [hsame, hnode, hout]

end

end TensorGraph
