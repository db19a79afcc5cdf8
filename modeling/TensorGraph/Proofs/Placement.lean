import TensorGraph.Proofs.Arena
import TensorGraph.Proofs.BufferNeeds
import TensorGraph.Proofs.Outcome

/-!
# Where buffers are placed

Buffers are placed in order of birth. Before a buffer is placed, with reuse, those whose last use
lies before its birth go back to the arena, and no others (`Books.giveBackBefore`). So a buffer that
is still to be read is live in the arena when the next one is placed, and the arena keeps the two
apart (`Placed.add`). Nodes that share a buffer form a chain, so a value is only ever overwritten by
the one node that reads it (`MemoryPlan.keeps_values_until_read`).
-/

namespace TensorGraph

/-! ### The queue -/

/-- `enqueue` puts a buffer among those that wait. -/
private theorem enqueue_perm (w : Waiting) (queue : List Waiting) :
    (enqueue w queue).Perm (w :: queue) := by
  induction queue with
  | nil => exact List.Perm.refl _
  | cons v rest ih =>
    rw [enqueue]
    split
    · -- the new buffer comes behind one that precedes it
      exact (ih.cons v).trans (List.Perm.swap w v rest)
    · exact List.Perm.refl _

/-- The same buffer, for a node with another id. -/
def Waiting.rename (f : String → String) (w : Waiting) : Waiting := { w with node := f w.node }

/-- Of buffers at two offsets, the one that `Waiting.precedes` the other does so whatever their
nodes are. -/
private theorem Waiting.precedes_rename (f : String → String) {v w : Waiting}
    (hne : v.offset ≠ w.offset) :
    (v.rename f).precedes (w.rename f) = v.precedes w := by
  simp only [precedes, rename, beq_eq_false_iff_ne.mpr hne, Bool.false_and]
  rfl

/-- The nodes have no influence on the order of a queue in which no two buffers wait at one offset:
after any renaming, be it to one and the same id, `enqueue` puts a buffer at the same place. -/
theorem enqueue_rename (f : String → String) {w : Waiting} {queue : List Waiting}
    (hne : ∀ v ∈ queue, v.offset ≠ w.offset) :
    enqueue (w.rename f) (queue.map (Waiting.rename f)) =
      (enqueue w queue).map (Waiting.rename f) := by
  induction queue with
  | nil => rfl
  | cons v rest ih =>
    obtain ⟨hv, hrest⟩ := List.forall_mem_cons.mp hne
    rw [List.map_cons, enqueue, enqueue, Waiting.precedes_rename f hv, ih hrest]
    split <;> rfl

/-- `giveBackBefore` does not look at nodes. -/
theorem giveBackBefore_rename (f : String → String) (rank : Nat) (arena : Arena)
    (queue : List Waiting) :
    giveBackBefore rank arena (queue.map (Waiting.rename f)) =
      (giveBackBefore rank arena queue).map (Prod.map id (List.map (Waiting.rename f))) := by
  induction queue generalizing arena with
  | nil => rfl
  | cons w rest ih =>
    -- what the queue is asked for is not an id
    have hlast : (w.rename f).lastUse = w.lastUse := rfl
    have hoffset : (w.rename f).offset = w.offset := rfl
    rw [List.map_cons, giveBackBefore, giveBackBefore, hlast, hoffset]
    split
    · cases arena.release w.offset with
      | error cause => rfl
      | ok next => exact ih next
    · rfl

/-- The arena is sound, and every buffer that waits is live in it, at an offset of its own. -/
structure Books (arena : Arena) (queue : List Waiting) : Prop where
  sound : arena.Sound
  offsets_nodup : (queue.map Waiting.offset).Nodup
  live : ∀ w ∈ queue, ∃ b ∈ arena.live, b.offset = w.offset

/-- `giveBackBefore` a rank always succeeds. Buffers that are used later go on waiting, and the
blocks of those that wait stay live. -/
theorem Books.giveBackBefore {arena : Arena} {queue : List Waiting} (h : Books arena queue)
    (rank : Nat) :
    ∃ arena' queue', giveBackBefore rank arena queue = .ok (arena', queue') ∧ Books arena' queue' ∧
      (∀ w ∈ queue, rank ≤ w.lastUse → w ∈ queue') ∧
      ∀ w ∈ queue', w ∈ queue ∧ ∀ b ∈ arena.live, b.offset = w.offset → b ∈ arena'.live := by
  induction queue generalizing arena with
  | nil => exact ⟨arena, [], rfl, h, fun _ hw _ => hw, fun _ hw => ⟨hw, fun _ hb _ => hb⟩⟩
  | cons w rest ih =>
    rw [TensorGraph.giveBackBefore]
    by_cases hdue : w.lastUse < rank
    · -- the first buffer is due: its block is live, so it can be released
      rw [if_pos hdue]
      obtain ⟨hfirst, hrest⟩ := List.nodup_cons.mp h.offsets_nodup
      obtain ⟨b, hb, hoffset⟩ := h.live w List.mem_cons_self
      obtain ⟨next, hok, hfrees⟩ := h.sound.release_frees hb
      -- a block at another offset is not the one that is released
      have hstays : ∀ v ∈ rest, ∀ c ∈ arena.live, c.offset = v.offset → c ∈ next.live := by
        intro v hv c hc hcv
        have hmem := hfrees.live_perm.mem_iff.mp hc
        cases List.mem_cons.mp hmem with
        | inl heq =>
          rw [heq, hoffset] at hcv
          exact absurd (hcv ▸ List.mem_map_of_mem hv) hfirst
        | inr hlive => exact hlive
      have hbooks : Books next rest := by
        refine ⟨hfrees.sound, hrest, fun v hv => ?_⟩
        obtain ⟨c, hc, hcv⟩ := h.live v (List.mem_cons_of_mem _ hv)
        exact ⟨c, hstays v hv c hc hcv, hcv⟩
      obtain ⟨arena', queue', hrun, hbooks', hwait, hlive⟩ := ih hbooks
      refine ⟨arena', queue', ?_, hbooks', ?_, ?_⟩
      · rw [← hoffset, hok]
        exact hrun
      · intro v hv hlater
        cases List.mem_cons.mp hv with
        | inl heq =>
          rw [heq] at hlater
          omega
        | inr hold => exact hwait v hold hlater
      · intro v hv
        obtain ⟨hold, hkeeps⟩ := hlive v hv
        exact ⟨List.mem_cons_of_mem _ hold,
          fun c hc hcv => hkeeps c (hstays v hold c hc hcv) hcv⟩
    · -- the queue goes by last uses, so nothing behind the first buffer is looked at
      rw [if_neg hdue]
      exact ⟨arena, w :: rest, rfl, h, fun _ hv _ => hv, fun _ hv => ⟨hv, fun _ hb _ => hb⟩⟩

/-- `Arena.alloc` grants no block where a buffer waits. -/
theorem Books.offset_ne_of_alloc {arena next : Arena} {queue : List Waiting} (h : Books arena queue)
    {size : Int} {tag : Label} {offset : Nat} (hsize : 0 < size)
    (hok : arena.alloc size tag = .ok (offset, next)) : ∀ w ∈ queue, w.offset ≠ offset := by
  intro w hw hsame
  obtain ⟨b, hb, hoffset⟩ := h.live w hw
  exact (h.sound.grants_of_alloc hsize hok).offset_ne hb (hoffset.trans hsame)

/-- `Arena.alloc` grants a buffer, which waits from then on if it has bytes. What is live stays
live, and the new block is disjoint from all of it. -/
theorem Books.alloc {arena : Arena} {queue : List Waiting} (h : Books arena queue) {size : Int}
    (hsize : 0 ≤ size) (tag : Label) (last : Nat) (node : String) :
    ∃ offset next, arena.alloc size tag = .ok (offset, next) ∧
      Books next (if 0 < size then enqueue ⟨last, offset, node⟩ queue else queue) ∧
      (∀ b ∈ arena.live, b ∈ next.live) ∧
      (0 < size → ∃ block ∈ next.live, block.offset = offset ∧ size ≤ block.size ∧
        ∀ b ∈ arena.live, b.range.Disjoint block.range) := by
  by_cases hzero : size = 0
  · -- an empty buffer gets no block and does not wait
    refine ⟨arena.tail, arena, by rw [hzero, Arena.alloc_zero], ?_, fun _ hb => hb, by omega⟩
    rw [if_neg (by omega)]
    exact h
  · have hpos : 0 < size := by omega
    obtain ⟨offset, next, hok, hgrants⟩ := h.sound.alloc_grants hpos tag
    have hround := arena.alignment.le_roundUp size.toNat
    generalize arena.alignment.roundUp size.toNat = need at hgrants hround
    have hkeeps : ∀ b ∈ arena.live, b ∈ next.live := fun b hb =>
      hgrants.live_perm.mem_iff.mpr (List.mem_cons_of_mem _ hb)
    have hnew : ⟨offset, need, tag⟩ ∈ next.live :=
      hgrants.live_perm.mem_iff.mpr List.mem_cons_self
    refine ⟨offset, next, hok, ?_, hkeeps, fun _ => ⟨_, hnew, rfl, ?_, fun _ => hgrants.disjoint⟩⟩
    · rw [if_pos hpos]
      have hperm := enqueue_perm ⟨last, offset, node⟩ queue
      refine ⟨hgrants.sound, ?_, ?_⟩
      · rw [(hperm.map Waiting.offset).nodup_iff, List.map_cons, List.nodup_cons]
        refine ⟨fun hmem => ?_, h.offsets_nodup⟩
        obtain ⟨w, hw, hsame⟩ := List.mem_map.mp hmem
        exact h.offset_ne_of_alloc hpos hok w hw hsame
      · intro w hw
        cases List.mem_cons.mp (hperm.mem_iff.mp hw) with
        | inl heq => exact ⟨_, hnew, by rw [heq]⟩
        | inr hold =>
          obtain ⟨b, hb, hoffset⟩ := h.live w hold
          exact ⟨b, hkeeps b hb, hoffset⟩
    · show size ≤ (need : Int)
      omega

/-! ### Placing buffers -/

/-- Two buffers at offsets have no byte in common. -/
def BufferNeed.Apart (b c : BufferNeed) (i j : Nat) : Prop :=
  ∀ byte : Int, ¬ (i ≤ byte ∧ byte < i + b.size ∧ j ≤ byte ∧ byte < j + c.size)

/-- The buffers placed so far. A buffer that is used at the present rank or later waits in the queue
and has a block that is large enough; buffers whose lifetimes meet are apart. -/
structure Placed (needs done : List BufferNeed) (rank : Nat) (state : Placing) : Prop where
  books : Books state.arena state.queue
  placed : ∀ b ∈ done, ∃ i, state.offsets.get? b.node = some i
  held : ∀ b ∈ done, ∀ i, state.offsets.get? b.node = some i → 0 < b.size → rank ≤ lastUse needs b →
    ⟨lastUse needs b, i, b.node⟩ ∈ state.queue ∧ ∃ block ∈ state.arena.live, block.offset = i ∧
      b.size ≤ block.size
  apart : ∀ b ∈ done, ∀ c ∈ done, b.birth < c.birth → c.birth ≤ lastUse needs b → ∀ i j,
    state.offsets.get? b.node = some i → state.offsets.get? c.node = some j → b.Apart c i j

/-- When the next buffer is placed, with reuse, what is no longer used has been given back by
`giveBackBefore`. All that is still used has kept its place in the queue and its block. -/
theorem Placed.giveBack {needs done : List BufferNeed} {rank : Nat} {state : Placing}
    (h : Placed needs done rank state) (reuse : Bool) {next : Nat} (hnext : rank ≤ next) :
    ∃ arena queue, (if reuse then giveBackBefore next state.arena state.queue
        else .ok (state.arena, state.queue)) = .ok (arena, queue) ∧
      Placed needs done next ⟨arena, queue, state.offsets⟩ := by
  cases reuse with
  | false =>
    -- nothing is given back, and what was held is held still
    refine ⟨state.arena, state.queue, rfl, h.books, h.placed, ?_, h.apart⟩
    intro b hb i hi hsize hlast
    exact h.held b hb i hi hsize (hnext.trans hlast)
  | true =>
    -- what is used at the next rank or later stays in the queue, and its block stays live
    obtain ⟨arena, queue, hok, hbooks, hwait, hlive⟩ := h.books.giveBackBefore next
    refine ⟨arena, queue, hok, hbooks, h.placed, ?_, h.apart⟩
    intro b hb i hi hsize hlast
    obtain ⟨hqueue, block, hmem, hoffset, hfits⟩ := h.held b hb i hi hsize (hnext.trans hlast)
    have hqueue' := hwait _ hqueue hlast
    exact ⟨hqueue', block, (hlive _ hqueue').2 block hmem hoffset, hoffset, hfits⟩

/-- Buffers in blocks that are `Disjoint` are `Apart`. -/
private theorem BufferNeed.apart_of_disjoint {b c : BufferNeed} {x y : Block} (hx : b.size ≤ x.size)
    (hy : c.size ≤ y.size) (h : x.range.Disjoint y.range) : b.Apart c x.offset y.offset := by
  intro byte hbyte
  simp only [FreeRange.Disjoint, FreeRange.stop, Block.range] at h
  omega

/-- An empty buffer is `Apart` from every other. -/
private theorem BufferNeed.apart_of_empty {b c : BufferNeed} (h : ¬ (0 < b.size ∧ 0 < c.size))
    (i j : Nat) :
    b.Apart c i j := by
  intro byte hbyte
  omega

/-- A buffer that `Arena.alloc` gives a block at its birth is `Apart` from all those that are still
in use. -/
theorem Placed.add {needs done : List BufferNeed} {b : BufferNeed} {state : Placing}
    (h : Placed needs done b.birth state) (hsize : 0 ≤ b.size) (tag : Label)
    (hdone : ∀ c ∈ done, c.birth < b.birth ∧ c.node ≠ b.node) :
    ∃ offset arena, state.arena.alloc b.size tag = .ok (offset, arena) ∧
      Placed needs (done ++ [b]) b.birth ⟨arena,
        if 0 < b.size then enqueue ⟨lastUse needs b, offset, b.node⟩ state.queue else state.queue,
        state.offsets.set b.node offset⟩ := by
  obtain ⟨offset, arena, halloc, hbooks, hlive, hblock⟩ :=
    h.books.alloc hsize tag (lastUse needs b) b.node
  refine ⟨offset, arena, halloc, ?_⟩
  -- the offsets of the buffers placed before are what they were
  have hold : ∀ c ∈ done, (state.offsets.set b.node offset).get? c.node =
      state.offsets.get? c.node := by
    intro c hc
    rw [Dict.get?_set, if_neg (hdone c hc).2]
  have hnew : (state.offsets.set b.node offset).get? b.node = some offset := by
    rw [Dict.get?_set, if_pos rfl]
  refine ⟨hbooks, ?_, ?_, ?_⟩
  · -- every buffer has an offset
    intro c hc
    cases List.mem_append.mp hc with
    | inl hc =>
      obtain ⟨i, hi⟩ := h.placed c hc
      exact ⟨i, (hold c hc).trans hi⟩
    | inr hc =>
      rw [List.mem_singleton.mp hc]
      exact ⟨offset, hnew⟩
  · -- every buffer in use waits and has its block
    intro c hc i hi hcsize hlast
    cases List.mem_append.mp hc with
    | inl hc =>
      obtain ⟨hqueue, block, hmem, hspec⟩ := h.held c hc i (hold c hc ▸ hi) hcsize hlast
      refine ⟨?_, block, hlive block hmem, hspec⟩
      dsimp only
      split
      · exact (enqueue_perm _ _).mem_iff.mpr (List.mem_cons_of_mem _ hqueue)
      · exact hqueue
    | inr hc =>
      obtain rfl := List.mem_singleton.mp hc
      obtain rfl : offset = i := Option.some.inj (hnew.symm.trans hi)
      obtain ⟨block, hmem, hoffset, hfits, _⟩ := hblock hcsize
      refine ⟨?_, block, hmem, hoffset, hfits⟩
      dsimp only
      rw [if_pos hcsize]
      exact (enqueue_perm _ _).mem_iff.mpr List.mem_cons_self
  · intro c hc d hd hlt hlast i j hi hj
    -- the earlier of the two was placed before, as the new buffer is born last
    have hearlier : c ∈ done := by
      refine (List.mem_append.mp hc).resolve_right fun hc => ?_
      rw [List.mem_singleton.mp hc] at hlt
      cases List.mem_append.mp hd with
      | inl hd => exact absurd hlt (Nat.lt_asymm (hdone d hd).1)
      | inr hd => exact absurd hlt (by rw [List.mem_singleton.mp hd]; omega)
    have hi' : state.offsets.get? c.node = some i := hold c hearlier ▸ hi
    cases List.mem_append.mp hd with
    | inl hd => exact h.apart c hearlier d hd hlt hlast i j hi' (hold d hd ▸ hj)
    | inr hd =>
      obtain rfl := List.mem_singleton.mp hd
      obtain rfl : offset = j := Option.some.inj (hnew.symm.trans hj)
      by_cases hsizes : 0 < c.size ∧ 0 < d.size
      · obtain ⟨_, x, hx, hxoffset, hxfits⟩ := h.held c hearlier i hi' hsizes.1 hlast
        obtain ⟨y, _, hyoffset, hyfits, hdisjoint⟩ := hblock hsizes.2
        rw [← hxoffset, ← hyoffset]
        exact BufferNeed.apart_of_disjoint hxfits hyfits (hdisjoint x hx)
      · exact BufferNeed.apart_of_empty hsizes i offset

/-- The steps of `placeBuffer`: what is not used any more goes back, then the buffer is
asked for. -/
theorem placeBuffer_eq_bind (g : Graph) (needs : List BufferNeed) (reuse : Bool) (state : Placing)
    (b : BufferNeed) : placeBuffer g needs reuse state b =
      (if reuse then giveBackBefore b.birth state.arena state.queue
        else .ok (state.arena, state.queue)) >>= fun back =>
      back.1.alloc b.size (((g.nodes.find? b.node).map Node.name).getD (.str b.node)) >>= fun got =>
      .ok ⟨got.2, if 0 < b.size then enqueue ⟨lastUse needs b, got.1, b.node⟩ back.2 else back.2,
        state.offsets.set b.node got.1⟩ := by
  cases reuse <;> rfl

/-- `placeBuffer` gives back what is no longer used, if asked to, and then asks for space. -/
theorem placeBuffer_eq_ok_iff {g : Graph} {needs : List BufferNeed} {reuse : Bool}
    {state next : Placing} {b : BufferNeed} : placeBuffer g needs reuse state b = .ok next ↔
      ∃ arena queue offset arena', (if reuse then giveBackBefore b.birth state.arena state.queue
          else .ok (state.arena, state.queue)) = .ok (arena, queue) ∧
        arena.alloc b.size (((g.nodes.find? b.node).map Node.name).getD (.str b.node)) =
          .ok (offset, arena') ∧
        next = ⟨arena',
          if 0 < b.size then enqueue ⟨lastUse needs b, offset, b.node⟩ queue else queue,
          state.offsets.set b.node offset⟩ := by
  rw [placeBuffer_eq_bind]
  constructor
  · intro hok
    -- what can fail are the release of buffers and the request
    obtain ⟨⟨arena, queue⟩, hback, hok⟩ := exists_of_bind_eq_ok hok
    obtain ⟨⟨offset, arena'⟩, halloc, hok⟩ := exists_of_bind_eq_ok hok
    exact ⟨arena, queue, offset, arena', hback, halloc, (Except.ok.inj hok).symm⟩
  · rintro ⟨arena, queue, offset, arena', hback, halloc, rfl⟩
    rw [hback]
    show (arena.alloc _ _ >>= _) = _
    rw [halloc]
    rfl

/-- The `Books` stay in order when what is not used any more is given back, if asked to. -/
theorem Books.giveBack {state : Placing} (h : Books state.arena state.queue) (reuse : Bool)
    (rank : Nat) {arena : Arena} {queue : List Waiting}
    (hok : (if reuse then TensorGraph.giveBackBefore rank state.arena state.queue
      else .ok (state.arena, state.queue)) = .ok (arena, queue)) : Books arena queue := by
  cases reuse with
  | false =>
    -- nothing is given back
    cases hok
    exact h
  | true =>
    -- the release has not failed, so its result is the one that keeps the books
    obtain ⟨arena', queue', hrun, hbooks, -⟩ := h.giveBackBefore rank
    rw [if_pos rfl, hrun] at hok
    cases hok
    exact hbooks

/-- `placeBuffer` keeps the `Books` in order, whatever has been placed before. -/
theorem Books.placeBuffer {g : Graph} {needs : List BufferNeed} {reuse : Bool}
    {state next : Placing} {b : BufferNeed} (h : Books state.arena state.queue)
    (hok : placeBuffer g needs reuse state b = .ok next) : Books next.arena next.queue := by
  obtain ⟨arena, queue, offset, arena', hback, halloc, rfl⟩ := placeBuffer_eq_ok_iff.mp hok
  have hbooks := h.giveBack reuse b.birth hback
  obtain ⟨offset', next, halloc', hnext, -⟩ := hbooks.alloc (Arena.size_nonneg_of_alloc halloc)
    (((g.nodes.find? b.node).map Node.name).getD (.str b.node)) (lastUse needs b) b.node
  rw [halloc] at halloc'
  cases halloc'
  exact hnext

/-- `placeBuffer` succeeds on the next buffer and keeps what is known of those `Placed` so far. -/
theorem Placed.placeBuffer {needs done : List BufferNeed} {rank : Nat} {state : Placing}
    (h : Placed needs done rank state) (g : Graph) (reuse : Bool) {b : BufferNeed}
    (hsize : 0 ≤ b.size) (hrank : rank ≤ b.birth)
    (hdone : ∀ c ∈ done, c.birth < b.birth ∧ c.node ≠ b.node) :
    ∃ next, placeBuffer g needs reuse state b = .ok next ∧
      Placed needs (done ++ [b]) b.birth next := by
  obtain ⟨arena, queue, hback, hplaced⟩ := h.giveBack reuse hrank
  obtain ⟨offset, arena', halloc, hnext⟩ := hplaced.add hsize
    (((g.nodes.find? b.node).map Node.name).getD (.str b.node)) hdone
  exact ⟨_, placeBuffer_eq_ok_iff.mpr ⟨arena, queue, offset, arena', hback, halloc, rfl⟩, hnext⟩

/-- `placeAll` succeeds on buffers in order of birth, and buffers whose lifetimes meet are
`Apart`. -/
theorem Placed.placeAll {needs done : List BufferNeed} {rank : Nat} {state : Placing}
    (h : Placed needs done rank state) (g : Graph) (reuse : Bool) {rest : List BufferNeed}
    (hsize : ∀ b ∈ rest, 0 ≤ b.size) (hrank : ∀ b ∈ rest, rank ≤ b.birth)
    (horder : (done ++ rest).Pairwise fun b c => b.birth < c.birth ∧ b.node ≠ c.node) :
    ∃ last rank', placeAll g needs reuse state rest = .ok last ∧
      Placed needs (done ++ rest) rank' last := by
  induction rest generalizing done rank state with
  | nil => exact ⟨state, rank, rfl, by rwa [List.append_nil]⟩
  | cons b rest ih =>
    -- the next buffer is born after all that have been placed
    obtain ⟨_, hrest, hacross⟩ := List.pairwise_append.mp horder
    obtain ⟨next, hok, hnext⟩ := h.placeBuffer g reuse (hsize b List.mem_cons_self)
      (hrank b List.mem_cons_self) fun c hc => hacross c hc b List.mem_cons_self
    have hrank' : ∀ c ∈ rest, b.birth ≤ c.birth := fun c hc =>
      Nat.le_of_lt ((List.pairwise_cons.mp hrest).1 c hc).1
    rw [List.append_cons] at horder ⊢
    obtain ⟨last, rank', hrun, hlast⟩ :=
      ih hnext (fun c hc => hsize c (List.mem_cons_of_mem _ hc)) hrank' horder
    refine ⟨last, rank', ?_, hlast⟩
    rw [TensorGraph.placeAll, hok]
    exact hrun

/-! ### Plans -/

/-- What `BufferNeed.placement` says about the need. -/
theorem BufferNeed.placement_eq_ok_iff {offsets : Dict Nat} {b : BufferNeed} {a : Placement} :
    b.placement offsets = .ok a ↔ ∃ i, offsets.get? b.root = some i ∧
      a = ⟨b.node, i, b.size, b.birth, b.death, b.shared.isSome⟩ := by
  rw [placement]
  cases offsets.get? b.root with
  | none => simp
  | some i => simp [eq_comm]

/-- The needs that get a buffer of their own, as `placeAll` is given them. -/
theorem mem_roots_iff {needs : List BufferNeed} {b : BufferNeed} :
    b ∈ needs.filter (·.shared.isNone) ↔ b ∈ needs ∧ b.shared = none := by
  rw [List.mem_filter, Option.isNone_iff_eq_none]

/-- Nothing has been `Placed` in `Arena.empty`. -/
theorem placed_empty (needs : List BufferNeed) (alignment : Alignment) :
    Placed needs [] 0 ⟨Arena.empty alignment, [], Dict.empty⟩ :=
  ⟨⟨Arena.sound_empty alignment, List.nodup_nil, List.forall_mem_nil _⟩, List.forall_mem_nil _,
    List.forall_mem_nil _, List.forall_mem_nil _⟩

/-- Under `NeedsUpTo` the needs with a buffer of their own come in order of birth, one for each
node. -/
theorem NeedsUpTo.roots_ordered {g : Graph} {rank : Nat} {needs : List BufferNeed}
    (h : NeedsUpTo g rank needs) : (needs.filter (·.shared.isNone)).Pairwise
      fun b c => b.birth < c.birth ∧ b.node ≠ c.node := by
  refine (h.increasing.filter _).imp_of_mem fun hb hc hlt => ⟨hlt, fun hnode => ?_⟩
  have hsame := h.eq_of_node_eq (mem_roots_iff.mp hb).1 (mem_roots_iff.mp hc).1 hnode
  rw [hsame] at hlt
  omega

/-- `placeAll` places the buffers of an acyclic graph if none of them has a negative size. -/
theorem NeedsUpTo.placeAll {g : Graph} {rank : Nat} {needs : List BufferNeed}
    (h : NeedsUpTo g rank needs) (hsize : ∀ b ∈ needs.filter (·.shared.isNone), 0 ≤ b.size)
    (alignment : Alignment) (reuse : Bool) :
    ∃ last rank', placeAll g needs reuse ⟨Arena.empty alignment, [], Dict.empty⟩
        (needs.filter (·.shared.isNone)) = .ok last ∧
      Placed needs (needs.filter (·.shared.isNone)) rank' last :=
  (placed_empty needs alignment).placeAll g reuse hsize (fun _ _ => Nat.zero_le _) h.roots_ordered

/-- `placeAll` places no buffer of negative size. -/
theorem size_nonneg_of_placeAll {g : Graph} {needs rest : List BufferNeed} {reuse : Bool}
    {state last : Placing} (hok : placeAll g needs reuse state rest = .ok last) :
    ∀ b ∈ rest, 0 ≤ b.size := by
  induction rest generalizing state with
  | nil => exact List.forall_mem_nil _
  | cons b rest ih =>
    obtain ⟨next, hnext, hrest⟩ := exists_of_bind_eq_ok hok
    obtain ⟨_, _, _, _, _, halloc, _⟩ := placeBuffer_eq_ok_iff.mp hnext
    exact List.forall_mem_cons.mpr ⟨Arena.size_nonneg_of_alloc halloc, ih hrest⟩

/-- The steps by which a plan is computed: the needs, the state in which placing them ends, and what
is read off it. -/
structure MemoryPlan.Computes (g : Graph) (alignment : Alignment) (reuse : Bool)
    (needs : List BufferNeed) (last : Placing) (plan : MemoryPlan) : Prop where
  needs_eq : bufferNeeds g = .ok needs
  place_eq : placeAll g needs reuse ⟨Arena.empty alignment, [], Dict.empty⟩
    (needs.filter (·.shared.isNone)) = .ok last
  placements_eq : needs.mapM (BufferNeed.placement last.offsets) = .ok plan.placements
  peak_eq : plan.peakBytes = last.arena.tail
  tensor_eq : plan.tensorBytes = placedBytes plan.placements
  count_eq : plan.inPlaceCount = (needs.filter (·.shared.isSome)).length

/-- `MemoryPlan.compute` takes the steps of `Computes`. -/
theorem MemoryPlan.compute_eq_ok_iff {g : Graph} {alignment : Alignment} {reuse : Bool}
    {plan : MemoryPlan} : MemoryPlan.compute g alignment reuse = .ok plan ↔
      ∃ needs last, Computes g alignment reuse needs last plan := by
  constructor
  · intro hok
    -- needs, places and placements are found in turn
    obtain ⟨needs, hneeds, hok⟩ := exists_of_bind_eq_ok hok
    obtain ⟨last, hplace, hok⟩ := exists_of_bind_eq_ok hok
    obtain ⟨placements, hmap, hok⟩ := exists_of_bind_eq_ok hok
    cases hok
    exact ⟨needs, last, hneeds, hplace, hmap, rfl, rfl, rfl⟩
  · intro h
    obtain ⟨needs, last, h⟩ := h
    simp only [MemoryPlan.compute, h.needs_eq, h.place_eq, h.placements_eq, bind, Except.bind]
    rw [← h.peak_eq, ← h.tensor_eq, ← h.count_eq]
    rfl

/-- How a plan is made from needs whose buffers have been placed. -/
structure MemoryPlan.MadeFrom (plan : MemoryPlan) (g : Graph) (needs : List BufferNeed)
    (offsets : Dict Nat) : Prop where
  needs_spec : NeedsUpTo g g.topologicalOrder.length needs
  placed : ∀ b ∈ needs, ∃ a, b.placement offsets = .ok a
  placements_iff : ∀ a, a ∈ plan.placements ↔ ∃ b ∈ needs, b.placement offsets = .ok a
  apart : ∀ b ∈ needs, b.shared = none → ∀ c ∈ needs, c.shared = none → b.birth < c.birth →
    c.birth ≤ lastUse needs b → ∀ i j, offsets.get? b.node = some i → offsets.get? c.node = some j →
      b.Apart c i j

/-- When all buffers are `Placed`, every need knows where its output lies. -/
private theorem Placed.exists_placement {g : Graph} {needs : List BufferNeed} {rank rank' : Nat}
    {last : Placing} (h : Placed needs (needs.filter (·.shared.isNone)) rank last)
    (hspec : NeedsUpTo g rank' needs) {b : BufferNeed} (hb : b ∈ needs) :
    ∃ a, b.placement last.offsets = .ok a := by
  obtain ⟨r, hr⟩ := hspec.exists_writesInto hb
  obtain ⟨hrmem, hrown, _, hbroot⟩ := hr.root
  obtain ⟨i, hi⟩ := h.placed r (mem_roots_iff.mpr ⟨hrmem, hrown⟩)
  exact ⟨_, BufferNeed.placement_eq_ok_iff.mpr ⟨i, hbroot ▸ hi, rfl⟩⟩

/-- The plan that is computed for an acyclic graph is `MadeFrom` its needs. -/
theorem MemoryPlan.Computes.madeFrom {g : Graph} (hacyclic : g.Acyclic) {alignment : Alignment}
    {reuse : Bool} {needs : List BufferNeed} {last : Placing} {plan : MemoryPlan}
    (h : Computes g alignment reuse needs last plan) : plan.MadeFrom g needs last.offsets := by
  -- the run that is specified is the one that was made
  have hspec := needsUpTo_of_bufferNeeds hacyclic h.needs_eq
  obtain ⟨last', rank, hplace, hplaced⟩ :=
    hspec.placeAll (size_nonneg_of_placeAll h.place_eq) alignment reuse
  obtain rfl : last' = last := Except.ok.inj (hplace.symm.trans h.place_eq)
  -- every need has been placed, so each has a placement
  have hplacement := fun b hb => hplaced.exists_placement hspec (b := b) hb
  obtain ⟨placements, hmap, hmem⟩ := mapM_eq_ok hplacement
  obtain rfl : placements = plan.placements := Except.ok.inj (hmap.symm.trans h.placements_eq)
  refine ⟨hspec, hplacement, hmem, ?_⟩
  intro b hb hbown c hc hcown
  exact hplaced.apart b (mem_roots_iff.mpr ⟨hb, hbown⟩) c (mem_roots_iff.mpr ⟨hc, hcown⟩)

/-- On an acyclic graph whose output types have a number of bytes, every step of
`MemoryPlan.compute` goes through. -/
theorem MemoryPlan.exists_computes {g : Graph} (hacyclic : g.Acyclic)
    (hbytes : ∀ n ∈ g.nodes.toList, ∀ t, n.outputType = some t →
      ∃ bytes, t.byteCount = .ok bytes ∧ 0 ≤ bytes) (alignment : Alignment) (reuse : Bool) :
    ∃ needs last plan, Computes g alignment reuse needs last plan := by
  -- bytes can be counted, so the needs are found
  have hcount : ∀ n ∈ g.nodes.toList, ∀ t, n.outputType = some t →
      ∃ bytes, t.byteCount = .ok bytes := by
    intro n hn t ht
    obtain ⟨bytes, hok, _⟩ := hbytes n hn t ht
    exact ⟨bytes, hok⟩
  obtain ⟨needs, hneeds⟩ := bufferNeeds_eq_ok hcount
  have hspec := needsUpTo_of_bufferNeeds hacyclic hneeds
  -- a buffer of its own has the bytes of the node's type
  have hsize : ∀ b ∈ needs.filter (·.shared.isNone), 0 ≤ b.size := by
    intro b hb
    obtain ⟨hmem, hown⟩ := mem_roots_iff.mp hb
    obtain ⟨n, t, hn, _, _, htype, hcount⟩ := (hspec.describes b hmem).at_birth
    have hnode := g.topologicalOrder_perm.mem_iff.mp (List.mem_of_getElem? hn)
    obtain ⟨bytes, hok, hnonneg⟩ := hbytes n hnode t htype
    rw [hcount hown, Except.ok.injEq] at hok
    omega
  obtain ⟨last, rank, hplace, hplaced⟩ := hspec.placeAll hsize alignment reuse
  obtain ⟨placements, hmap, _⟩ := mapM_eq_ok fun b hb => hplaced.exists_placement hspec (b := b) hb
  exact ⟨needs, last, ⟨placements, last.arena.tail, placedBytes placements,
    (needs.filter (·.shared.isSome)).length⟩, hneeds, hplace, hmap, rfl, rfl, rfl⟩

/-- `MemoryPlan.compute` succeeds on an acyclic graph whose output types have a number of bytes, and
the plan is made from needs whose buffers have been placed. -/
private theorem MemoryPlan.compute_eq_ok {g : Graph} (hacyclic : g.Acyclic)
    (hbytes : ∀ n ∈ g.nodes.toList, ∀ t, n.outputType = some t →
      ∃ bytes, t.byteCount = .ok bytes ∧ 0 ≤ bytes) (alignment : Alignment) (reuse : Bool) :
    ∃ plan needs offsets, MemoryPlan.compute g alignment reuse = .ok plan ∧
      plan.MadeFrom g needs offsets := by
  obtain ⟨needs, last, plan, h⟩ := exists_computes hacyclic hbytes alignment reuse
  exact ⟨plan, needs, last.offsets, compute_eq_ok_iff.mpr ⟨needs, last, h⟩, h.madeFrom hacyclic⟩

/-- The placement whose buffer a placement lies in: its own unless the node works in place, and
otherwise that of the only node it reads. -/
inductive RootOf (g : Graph) (plan : MemoryPlan) : Placement → Placement → Prop
  | own {a : Placement} (ha : a ∈ plan.placements) (hown : a.inPlace = false) : RootOf g plan a a
  | through {a b r : Placement} {e : Edge} (ha : a ∈ plan.placements) (hplace : a.inPlace = true)
      (hin : g.inputEdges a.node = [e]) (hb : b ∈ plan.placements) (hnode : b.node = e.source.node)
      (hr : RootOf g plan b r) : RootOf g plan a r

section
variable {g : Graph} {plan : MemoryPlan} {needs : List BufferNeed} {offsets : Dict Nat}

theorem RootOf.mem {a r : Placement} (h : RootOf g plan a r) : a ∈ plan.placements := by
  cases h with
  | own ha => exact ha
  | through ha => exact ha

/-- The `RootOf` a placement is made from the need that its need `WritesInto`. -/
theorem RootOf.writesInto (hplan : plan.MadeFrom g needs offsets) {a r : Placement}
    (h : RootOf g plan a r) {b : BufferNeed} (hb : b ∈ needs) (hba : b.placement offsets = .ok a) :
    ∃ c, WritesInto g needs b c ∧ c.placement offsets = .ok r := by
  induction h generalizing b with
  | own ha hown =>
    obtain ⟨_, _, heq⟩ := BufferNeed.placement_eq_ok_iff.mp hba
    rw [heq] at hown
    exact ⟨b, .own hb (by simpa using hown), hba⟩
  | @through a p r e ha hplace hin hp hnode hr ih =>
    obtain ⟨_, _, heq⟩ := BufferNeed.placement_eq_ok_iff.mp hba
    obtain ⟨q, hq, hqp⟩ := (hplan.placements_iff p).mp hp
    obtain ⟨c, hc, hcr⟩ := ih hq hqp
    refine ⟨c, ?_, hcr⟩
    obtain ⟨_, _, hpeq⟩ := BufferNeed.placement_eq_ok_iff.mp hqp
    rw [heq] at hplace hin
    obtain ⟨root, hshared⟩ := Option.isSome_iff_exists.mp hplace
    obtain ⟨f, hfin, hout, p', hp', hnode', hbirth, hroot⟩ :=
      (hplan.needs_spec.describes b hb).sharing root hshared
    have hef : f = e := (List.cons.inj (hfin.symm.trans hin)).1
    subst hef
    -- the producer that the need was made with is the one that the placement is made from
    have hpq : p' = q := hplan.needs_spec.eq_of_node_eq hp' hq (by rw [hnode', ← hnode, hpeq])
    rw [hpq] at hnode' hbirth hroot
    have hcnode : root = c.node := hroot ▸ hc.root.2.2.2
    exact .through hb (hcnode ▸ hshared) hin hout hnode' hbirth hc

/-- What a need `WritesInto` makes the `RootOf` its placement, so every placement has a root. -/
theorem WritesInto.exists_rootOf (hplan : plan.MadeFrom g needs offsets) {b c : BufferNeed}
    (h : WritesInto g needs b c) {a : Placement} (hba : b.placement offsets = .ok a) :
    ∃ r, RootOf g plan a r ∧ c.placement offsets = .ok r := by
  induction h generalizing a with
  | own hb hown =>
    -- the need has a buffer of its own
    refine ⟨a, .own ((hplan.placements_iff a).mpr ⟨_, hb, hba⟩) ?_, hba⟩
    obtain ⟨_, _, heq⟩ := BufferNeed.placement_eq_ok_iff.mp hba
    rw [heq, hown]
    rfl
  | @through b p c e hb hshared hin hout hnode hbirth hp ih =>
    -- the buffer is that of the node before, which has the same root
    obtain ⟨i, hi, heq⟩ := BufferNeed.placement_eq_ok_iff.mp hba
    have hroots : p.root = b.root := by
      rw [hp.root.2.2.2, BufferNeed.root, hshared, Option.getD_some]
    have hpa := BufferNeed.placement_eq_ok_iff.mpr ⟨i, hroots ▸ hi, rfl⟩
    obtain ⟨r, hr, hcr⟩ := ih hpa
    refine ⟨r, .through ((hplan.placements_iff a).mpr ⟨b, hb, hba⟩) ?_ ?_
      ((hplan.placements_iff _).mpr ⟨p, hp.mem, hpa⟩) hnode hr, hcr⟩
    · rw [heq, hshared]
      rfl
    · rw [heq]
      exact hin

/-- The nodes with a placement in a plan `MadeFrom` needs are those with a typed output, output
nodes excepted. -/
private theorem MemoryPlan.MadeFrom.planned_iff (hplan : plan.MadeFrom g needs offsets) {n : Node}
    (hn : n ∈ g.nodes.toList) :
    (∃ a ∈ plan.placements, a.node = n.id) ↔ n.op ≠ .output ∧ n.outputType.isSome = true := by
  constructor
  · intro h
    obtain ⟨a, ha, hnode⟩ := h
    obtain ⟨b, hb, hba⟩ := (hplan.placements_iff a).mp ha
    obtain ⟨_, _, heq⟩ := BufferNeed.placement_eq_ok_iff.mp hba
    -- the need describes a node, and ids tell nodes apart
    obtain ⟨m, t, hm, hid, hop, htype, _⟩ := (hplan.needs_spec.describes b hb).at_birth
    have hmem := g.topologicalOrder_perm.mem_iff.mp (List.mem_of_getElem? hm)
    have hsame : m = n := by
      have hfind := NodeTable.find?_of_mem hmem
      rw [hid, show b.node = n.id by rw [← hnode, heq], NodeTable.find?_of_mem hn] at hfind
      exact (Option.some.inj hfind).symm
    rw [← hsame, htype]
    exact ⟨hop, rfl⟩
  · intro h
    -- the node stands somewhere in the order, and its need has been placed
    obtain ⟨i, hi⟩ := List.getElem?_of_mem (g.topologicalOrder_perm.mem_iff.mpr hn)
    have hlt := (List.getElem?_eq_some_iff.mp hi).1
    obtain ⟨b, hb, hnode⟩ := hplan.needs_spec.complete i n hlt hi h.1 h.2
    obtain ⟨a, hba⟩ := hplan.placed b hb
    obtain ⟨_, _, heq⟩ := BufferNeed.placement_eq_ok_iff.mp hba
    exact ⟨a, (hplan.placements_iff a).mpr ⟨b, hb, hba⟩, by rw [heq, hnode]⟩

/-- In a plan `MadeFrom` needs, the bytes of a root are the `byteCount` of its type. -/
theorem MemoryPlan.MadeFrom.size_eq (hplan : plan.MadeFrom g needs offsets) {b : BufferNeed}
    (hb : b ∈ needs) (hown : b.shared = none) :
    ∃ n t, g.nodes.find? b.node = some n ∧ n.outputType = some t ∧ t.byteCount = .ok b.size := by
  obtain ⟨n, t, hn, hid, _, htype, hcount⟩ := (hplan.needs_spec.describes b hb).at_birth
  have hmem := g.topologicalOrder_perm.mem_iff.mp (List.mem_of_getElem? hn)
  exact ⟨n, t, hid ▸ NodeTable.find?_of_mem hmem, htype, hcount hown⟩

/-- Two needs of which the second runs while the first is still to be read have `WritesInto` buffers
that are `Apart`, unless it is the same one. -/
private theorem MemoryPlan.MadeFrom.roots_apart (hplan : plan.MadeFrom g needs offsets)
    {b c r s : BufferNeed} (hb : WritesInto g needs b r) (hc : WritesInto g needs c s)
    (hlt : b.birth < c.birth) (hread : c.birth ≤ b.death) (hne : r ≠ s) {i j : Nat}
    (hi : offsets.get? r.node = some i) (hj : offsets.get? s.node = some j) : r.Apart s i j := by
  obtain ⟨hr, hrown, hrb, _⟩ := hb.root
  obtain ⟨hs, hsown, hsc, _⟩ := hc.root
  have hlastr := hb.death_le_lastUse
  have hlasts := hc.death_le_lastUse
  -- whichever buffer is born first is used until the other one is born
  by_cases hrs : r.birth < s.birth
  · exact hplan.apart r hr hrown s hs hsown hrs (by omega) i j hi hj
  · have hsr : s.birth ≠ r.birth := fun heq =>
      hne (hplan.needs_spec.eq_of_birth_eq hr hs heq.symm)
    have hcdeath : c.birth ≤ c.death := by
      rw [(hplan.needs_spec.describes c hc.mem).death_eq]
      exact birth_le_lastReader _ _ _ _
    have hapart := hplan.apart s hs hsown r hr hrown (by omega) (by omega) j i hj hi
    intro byte hbyte
    exact hapart byte ⟨hbyte.2.2.1, hbyte.2.2.2, hbyte.1, hbyte.2.1⟩

/-- Of two needs with `WritesInto` the same buffer, the later one reads the earlier one in place if
no other reader of the earlier one comes before it. -/
private theorem MemoryPlan.MadeFrom.inPlace_of_same_root (hplan : plan.MadeFrom g needs offsets)
    {b c r : BufferNeed} (hb : WritesInto g needs b r) (hc : WritesInto g needs c r)
    (hlt : b.birth < c.birth) {e : Edge} (he : e ∈ g.outputEdges b.node) {k : Nat}
    (hk : rankIn g.topologicalOrder e.target.node = some k) (hread : c.birth ≤ k) :
    c.node = e.target.node ∧ c.shared.isSome = true := by
  -- the only reader of the earlier need shares its buffer and is born no later than the later need
  obtain ⟨t, ht, f, hshared, hin, hout, hle⟩ := hb.next hplan.needs_spec hc hlt
  rw [hout, List.mem_singleton] at he
  have htarget : f.target.node = t.node :=
    (Graph.mem_inputEdges.mp (hin ▸ List.mem_singleton.mpr rfl)).2
  rw [he, htarget, hplan.needs_spec.rankIn_eq ht, Option.some.injEq] at hk
  have htc : t = c := hplan.needs_spec.eq_of_birth_eq ht hc.mem (by omega)
  exact ⟨by rw [he, htarget, htc], htc ▸ hshared⟩

/-- In a plan `MadeFrom` needs, one that shares a buffer reads one edge only, and its producer has
no other reader. -/
private theorem MemoryPlan.MadeFrom.sole_edge (hplan : plan.MadeFrom g needs offsets)
    {c : BufferNeed} (hc : c ∈ needs) (hshared : c.shared.isSome = true) {e : Edge}
    (he : e ∈ g.inputEdges c.node) :
    g.inputEdges c.node = [e] ∧ g.outputEdges e.source.node = [e] := by
  obtain ⟨root, hroot⟩ := Option.isSome_iff_exists.mp hshared
  obtain ⟨f, hin, hout, _⟩ := (hplan.needs_spec.describes c hc).sharing root hroot
  rw [hin, List.mem_singleton] at he
  rw [he]
  exact ⟨hin, hout⟩

end

/-- The bytes of a placement: as many as its root has, from its own offset on. -/
def Placement.Holds (a root : Placement) (byte : Int) : Prop :=
  a.offset ≤ byte ∧ byte < a.offset + root.size

/-- `MemoryPlan.compute` succeeds on a valid graph whose output types have a number of bytes, and no
planned value is overwritten before it is read: a node that runs after the source of an edge and not
after its target `Holds` none of the bytes of the source. The one exception is the target itself
when it works in place. Then the edge is its only input and the only output of the source. -/
theorem MemoryPlan.keeps_values_until_read {g : Graph} (hvalid : g.validate = .ok ())
    (hbytes : ∀ n ∈ g.nodes.toList, ∀ t, n.outputType = some t →
      ∃ bytes, t.byteCount = .ok bytes ∧ 0 ≤ bytes) (alignment : Alignment) (reuse : Bool) :
    ∃ plan, MemoryPlan.compute g alignment reuse = .ok plan ∧
      (∀ n ∈ g.nodes.toList, (∃ a ∈ plan.placements, a.node = n.id) ↔
        n.op ≠ .output ∧ n.outputType.isSome = true) ∧
      (∀ a ∈ plan.placements, ∃ r, RootOf g plan a r ∧ ∃ n t, g.nodes.find? r.node = some n ∧
        n.outputType = some t ∧ t.byteCount = .ok r.size) ∧
      ∀ e ∈ g.edges, ∀ a ∈ plan.placements, a.node = e.source.node → ∀ b ∈ plan.placements,
        ∀ i j k, rankIn g.topologicalOrder a.node = some i →
          rankIn g.topologicalOrder b.node = some j →
          rankIn g.topologicalOrder e.target.node = some k → i < j → j ≤ k →
          if b.node = e.target.node ∧ b.inPlace = true then
            g.inputEdges b.node = [e] ∧ g.outputEdges a.node = [e]
          else ∀ r s, RootOf g plan a r → RootOf g plan b s →
            ∀ byte, ¬ (a.Holds r byte ∧ b.Holds s byte) := by
  have hg := Graph.validate_eq_ok_iff.mp hvalid
  obtain ⟨plan, needs, offsets, hok, hplan⟩ := compute_eq_ok hg.acyclic hbytes alignment reuse
  refine ⟨plan, hok, fun n hn => hplan.planned_iff hn, ?_, ?_⟩
  · intro a ha
    obtain ⟨b, hb, hba⟩ := (hplan.placements_iff a).mp ha
    obtain ⟨c, hc⟩ := hplan.needs_spec.exists_writesInto hb
    obtain ⟨r, hr, hcr⟩ := hc.exists_rootOf hplan hba
    obtain ⟨hcmem, hcown, _, _⟩ := hc.root
    obtain ⟨_, _, heq⟩ := BufferNeed.placement_eq_ok_iff.mp hcr
    refine ⟨r, hr, ?_⟩
    rw [heq]
    exact hplan.size_eq hcmem hcown
  · intro e he a ha hsource b hb i j k hi hj hk hij hjk
    obtain ⟨x, hx, hxa⟩ := (hplan.placements_iff a).mp ha
    obtain ⟨y, hy, hyb⟩ := (hplan.placements_iff b).mp hb
    obtain ⟨p, hp, haeq⟩ := BufferNeed.placement_eq_ok_iff.mp hxa
    obtain ⟨q, hq, hbeq⟩ := BufferNeed.placement_eq_ok_iff.mp hyb
    subst haeq hbeq
    rw [hplan.needs_spec.rankIn_eq hx, Option.some.injEq] at hi
    rw [hplan.needs_spec.rankIn_eq hy, Option.some.injEq] at hj
    have hlt : x.birth < y.birth := by omega
    have hread : y.birth ≤ x.death := by
      have hreader := rank_le_lastReader x.birth he hk
      rw [← hsource, ← (hplan.needs_spec.describes x hx).death_eq] at hreader
      omega
    have hout : e ∈ g.outputEdges x.node := Graph.mem_outputEdges.mpr ⟨he, hsource.symm⟩
    split
    · rename_i hover
      have hin : e ∈ g.inputEdges y.node := Graph.mem_inputEdges.mpr ⟨he, hover.1.symm⟩
      have hsole := hplan.sole_edge hy hover.2 hin
      rwa [← hsource] at hsole
    · rename_i hover
      intro r s hr hs byte hbyte
      obtain ⟨c, hc, hcr⟩ := hr.writesInto hplan hx hxa
      obtain ⟨d, hd, hds⟩ := hs.writesInto hplan hy hyb
      by_cases hcd : c = d
      · -- one buffer: the later need reads the earlier one in place, the case that is excepted
        subst hcd
        exact hover (hplan.inPlace_of_same_root hc hd hlt hout hk (by omega))
      · -- two buffers, which are in use at the same time
        obtain ⟨_, _, hreq⟩ := BufferNeed.placement_eq_ok_iff.mp hcr
        obtain ⟨_, _, hseq⟩ := BufferNeed.placement_eq_ok_iff.mp hds
        rw [hc.root.2.2.2] at hp
        rw [hd.root.2.2.2] at hq
        rw [hreq, hseq] at hbyte
        exact hplan.roots_apart hc hd hlt hread hcd hp hq byte
          ⟨hbyte.1.1, hbyte.1.2, hbyte.2.1, hbyte.2.2⟩

/-- The output types of `Graph.scaledLayer` have sixteen bytes each. -/
theorem byteCount_scaledLayer : ∀ n ∈ Graph.scaledLayer.nodes.toList, ∀ t, n.outputType = some t →
    ∃ bytes, t.byteCount = .ok bytes ∧ 0 ≤ bytes := by
  have htypes : ∀ n ∈ Graph.scaledLayer.nodes.toList,
      n.outputType = some ⟨.float32, [2, 2]⟩ := by decide
  intro n hn t ht
  rw [htypes n hn, Option.some.injEq] at ht
  exact ⟨16, by rw [← ht]; rfl, by decide⟩

/-- In `Graph.scaledLayer` the product and the sum that reads it are both planned. The sum has two
inputs and cannot work in place, so the two have no byte in common. -/
theorem MemoryPlan.keeps_product_until_read :
    Graph.scaledLayer.validate = .ok () ∧
      ∃ plan, MemoryPlan.compute Graph.scaledLayer Alignment.one true = .ok plan ∧
        ∃ a ∈ plan.placements, a.node = "m_6" ∧ ∃ b ∈ plan.placements, b.node = "a_7" ∧
          ∀ r s, RootOf Graph.scaledLayer plan a r → RootOf Graph.scaledLayer plan b s →
            ∀ byte, ¬ (a.Holds r byte ∧ b.Holds s byte) := by
  refine ⟨Graph.validate_scaledLayer, ?_⟩
  obtain ⟨plan, hok, hplanned, _, hkeeps⟩ := keeps_values_until_read Graph.validate_scaledLayer
    byteCount_scaledLayer Alignment.one true
  have hedge : Graph.layerEdge "e_14" "m_6" "a_7" 0 ∈ Graph.scaledLayer.edges := by decide
  have hall : ∀ id ∈ ["m_6", "a_7"], ∃ n ∈ Graph.scaledLayer.nodes.toList,
      n.id = id ∧ n.op ≠ .output ∧ n.outputType.isSome = true := by decide
  have hplaced : ∀ id ∈ ["m_6", "a_7"], ∃ a ∈ plan.placements, a.node = id := by
    intro id hid
    obtain ⟨n, hn, rfl, hsome⟩ := hall id hid
    exact (hplanned n hn).mpr hsome
  obtain ⟨a, ha, hanode⟩ := hplaced "m_6" (by decide)
  obtain ⟨b, hb, hbnode⟩ := hplaced "a_7" (by decide)
  have hg := Graph.validate_eq_ok_iff.mp Graph.validate_scaledLayer
  obtain ⟨i, hi⟩ := Graph.scaledLayer.exists_rankIn (hg.closed _ hedge).1
  obtain ⟨j, hj⟩ := Graph.scaledLayer.exists_rankIn (hg.closed _ hedge).2
  have hread := hkeeps _ hedge a ha hanode b hb i j j (hanode ▸ hi) (hbnode ▸ hj) hj
    (hg.rankIn_lt hedge hi hj) (Nat.le_refl _)
  refine ⟨plan, hok, a, ha, hanode, b, hb, hbnode, ?_⟩
  split at hread
  · -- an in-place sum would have one input edge
    have hlength := congrArg List.length hread.1
    rw [hbnode] at hlength
    exact absurd hlength (by decide)
  · exact hread

end TensorGraph
