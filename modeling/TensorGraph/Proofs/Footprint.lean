import TensorGraph.Proofs.AlignedArena
import TensorGraph.Proofs.Placement

/-!
# The footprint of a plan

The peak of a plan is the tail of the arena in which its buffers have been placed. Placing a buffer
moves the tail by the rounded size of the buffer at most, and by exactly that much while nothing has
been given back, so the peak is bounded by the sum of all rounded sizes
(`MemoryPlan.reuse_never_raises_peak`). From below it is bounded by the buffers in use at any one
rank: when the last of them is placed, all of them have live blocks, and these are disjoint
(`MemoryPlan.peak_covers_buffers_in_use`).
-/

namespace TensorGraph

/-- The bytes that a buffer takes up in an arena. -/
def BufferNeed.footprint (alignment : Alignment) (b : BufferNeed) : Nat :=
  alignment.roundUp b.size.toNat

/-- Only a buffer with bytes has a `footprint`. -/
private theorem BufferNeed.size_pos_of_footprint_pos {alignment : Alignment} {b : BufferNeed}
    (h : 0 < b.footprint alignment) : 0 < b.size := by
  by_contra hsize
  rw [footprint, Int.toNat_of_nonpos (by omega), Alignment.roundUp_zero] at h
  omega

/-! ### Buffers in use at one rank -/

/-- Things that have blocks of their own weigh no more than the blocks' `size` adds up to. -/
private theorem sum_map_le_sum_size {α : Type} {weight : α → Nat} (offset : α → Nat) {xs : List α}
    {blocks : List Block}
    (hblock : ∀ x ∈ xs, 0 < weight x → ∃ b ∈ blocks, b.offset = offset x ∧ weight x ≤ b.size)
    (hown : xs.Pairwise fun x y => 0 < weight x → 0 < weight y → offset x ≠ offset y) :
    (xs.map weight).sum ≤ (blocks.map Block.size).sum := by
  -- each member uses up a block, so the blocks shrink with the list
  induction xs generalizing blocks with
  | nil => exact Nat.zero_le _
  | cons x rest ih =>
    obtain ⟨hx, hrest⟩ := List.forall_mem_cons.mp hblock
    obtain ⟨hfirst, hown⟩ := List.pairwise_cons.mp hown
    by_cases hweight : 0 < weight x
    · obtain ⟨b, hb, hoffset, hle⟩ := hx hweight
      -- the others have their blocks among those that are left
      have hothers : (rest.map weight).sum ≤ ((blocks.erase b).map Block.size).sum := by
        refine ih (fun y hy hpos => ?_) hown
        obtain ⟨c, hc, hcoffset, hcle⟩ := hrest y hy hpos
        refine ⟨c, (List.mem_erase_of_ne fun hcb => ?_).mpr hc, hcoffset, hcle⟩
        exact hfirst y hy hweight hpos (by rw [← hoffset, ← hcoffset, hcb])
      rw [List.map_cons, List.sum_cons, ((List.perm_cons_erase hb).map Block.size).sum_eq,
        List.map_cons, List.sum_cons]
      omega
    · have hothers := ih hrest hown
      rw [List.map_cons, List.sum_cons]
      omega

/-- Buffers that are in use when the last of those `Placed` was placed have live blocks of their
own, so their `footprint`s fit below the tail. -/
private theorem Placed.sum_footprint_le_tail {needs done : List BufferNeed} {rank : Nat}
    {state : Placing} (h : Placed needs done rank state) (haligned : state.arena.Aligned)
    (horder : done.Pairwise fun b c => b.birth < c.birth) (hborn : ∀ b ∈ done, b.birth ≤ rank)
    {xs : List BufferNeed} (hsub : xs.Sublist done) (huse : ∀ b ∈ xs, rank ≤ lastUse needs b) :
    (xs.map (BufferNeed.footprint state.arena.alignment)).sum ≤ state.arena.tail := by
  refine Nat.le_trans (sum_map_le_sum_size (fun b => (state.offsets.get? b.node).getD 0) ?_ ?_)
    h.books.sound.sum_size_le_tail
  · -- what is in use holds a block, and the size of that block is on the grid
    intro b hb hpos
    have hdone := hsub.subset hb
    obtain ⟨i, hi⟩ := h.placed b hdone
    obtain ⟨_, block, hlive, hoffset, hfits⟩ :=
      h.held b hdone i hi (BufferNeed.size_pos_of_footprint_pos hpos) (huse b hb)
    refine ⟨block, hlive, by rw [hi, hoffset, Option.getD_some], ?_⟩
    exact Alignment.roundUp_le (by omega) (haligned.live block hlive).2
  · -- two buffers at one offset would have its first byte in common
    refine (horder.sublist hsub).imp_of_mem fun {b c} hb hc hlt hbpos hcpos hsame => ?_
    obtain ⟨i, hi⟩ := h.placed b (hsub.subset hb)
    obtain ⟨j, hj⟩ := h.placed c (hsub.subset hc)
    have hmeet : c.birth ≤ lastUse needs b :=
      Nat.le_trans (hborn c (hsub.subset hc)) (huse b hb)
    have hapart := h.apart b (hsub.subset hb) c (hsub.subset hc) hlt hmeet i j hi hj i
    have hbsize := BufferNeed.size_pos_of_footprint_pos hbpos
    have hcsize := BufferNeed.size_pos_of_footprint_pos hcpos
    rw [hi, hj, Option.getD_some, Option.getD_some] at hsame
    omega

/-! ### Placing buffers -/

/-- The tail of the arena and the buffers placed so far. -/
structure Packed (alignment : Alignment) (reuse : Bool) (needs done : List BufferNeed)
    (state : Placing) : Prop where
  alignment_eq : state.arena.alignment = alignment
  aligned : state.arena.Aligned
  within : ∀ b ∈ done, ∀ i, state.offsets.get? b.node = some i →
    alignment.bytes ∣ i ∧ (0 < b.size → i + b.footprint alignment ≤ state.arena.tail)
  tail_le : state.arena.tail ≤ (done.map (BufferNeed.footprint alignment)).sum
  unreleased : reuse = false → state.arena.free = [] ∧
    state.arena.tail = (done.map (BufferNeed.footprint alignment)).sum
  in_use : ∀ (rank : Nat) (xs : List BufferNeed), xs.Sublist done →
    (∀ b ∈ xs, b.birth ≤ rank ∧ rank ≤ lastUse needs b) →
    (xs.map (BufferNeed.footprint alignment)).sum ≤ state.arena.tail

/-- `Packed` holds before anything has been placed. -/
private theorem packed_empty (alignment : Alignment) (reuse : Bool) (needs : List BufferNeed) :
    Packed alignment reuse needs [] ⟨Arena.empty alignment, [], Dict.empty⟩ where
  alignment_eq := rfl
  aligned := Arena.aligned_empty alignment
  within := List.forall_mem_nil _
  tail_le := Nat.le_refl _
  unreleased := fun _ => ⟨rfl, rfl⟩
  in_use := by
    intro rank xs hsub _
    rw [List.sublist_nil.mp hsub]
    exact Nat.le_refl _

/-- `giveBackBefore` leaves an arena `Aligned`, with the same tail. -/
private theorem aligned_giveBackBefore {rank : Nat} {arena arena' : Arena}
    {queue queue' : List Waiting} (ha : arena.Aligned)
    (hok : giveBackBefore rank arena queue = .ok (arena', queue')) :
    arena'.Aligned ∧ arena'.alignment = arena.alignment ∧ arena'.tail = arena.tail := by
  induction queue generalizing arena with
  | nil =>
    cases hok
    exact ⟨ha, rfl, rfl⟩
  | cons w rest ih =>
    rw [giveBackBefore] at hok
    split at hok
    · -- the first buffer is given back, and more may follow
      obtain ⟨next, hrelease, hok⟩ := exists_of_bind_eq_ok hok
      obtain ⟨hnext, halignment, htail⟩ := ha.release hrelease
      obtain ⟨hlast, halignment', htail'⟩ := ih hnext hok
      exact ⟨hlast, halignment'.trans halignment, htail'.trans htail⟩
    · -- the first buffer is still in use, and so are the others
      cases hok
      exact ⟨ha, rfl, rfl⟩

section
variable {alignment : Alignment} {reuse : Bool} {needs done : List BufferNeed}
  {state next : Placing} {b : BufferNeed} {g : Graph}

/-- Giving back what is no longer used by `giveBackBefore` leaves the buffers `Packed`. -/
theorem Packed.giveBack (h : Packed alignment reuse needs done state) {rank : Nat} {arena : Arena}
    {queue : List Waiting} (hback : (if reuse then giveBackBefore rank state.arena state.queue
      else .ok (state.arena, state.queue)) = .ok (arena, queue)) :
    Packed alignment reuse needs done ⟨arena, queue, state.offsets⟩ := by
  cases reuse with
  | false =>
    -- nothing is given back
    cases hback
    exact ⟨h.alignment_eq, h.aligned, h.within, h.tail_le, h.unreleased, h.in_use⟩
  | true =>
    rw [if_pos rfl] at hback
    -- what is given back lies below the tail
    obtain ⟨haligned, halignment, htail⟩ := aligned_giveBackBefore h.aligned hback
    refine ⟨halignment.trans h.alignment_eq, haligned, ?_, ?_, nofun, ?_⟩
    · exact htail ▸ h.within
    · exact htail ▸ h.tail_le
    · exact htail ▸ h.in_use

/-- What is in use before the newest buffer is born does not contain it. -/
private theorem sublist_of_sublist_append_singleton {α : Type} {xs done : List α} {x : α}
    (hsub : xs.Sublist (done ++ [x])) (hx : x ∉ xs) : xs.Sublist done := by
  obtain ⟨front, back, rfl, hfront, hback⟩ := List.sublist_append_iff.mp hsub
  cases hback with
  | cons _ hnil =>
    rw [List.sublist_nil.mp hnil, List.append_nil]
    exact hfront
  | cons_cons => simp at hx

/-- A buffer that `Arena.alloc` places moves the tail by its `footprint` at most. -/
theorem Packed.add (h : Packed alignment reuse needs done state) {tag : Label} {offset : Nat}
    {arena : Arena} (hsound : state.arena.Sound)
    (halloc : state.arena.alloc b.size tag = .ok (offset, arena)) {queue : List Waiting}
    (hnext : Placed needs (done ++ [b]) b.birth ⟨arena, queue, state.offsets.set b.node offset⟩)
    (horder : (done ++ [b]).Pairwise fun b c => b.birth < c.birth ∧ b.node ≠ c.node) :
    Packed alignment reuse needs (done ++ [b])
      ⟨arena, queue, state.offsets.set b.node offset⟩ := by
  have hserves := h.aligned.alloc halloc
  rw [h.alignment_eq] at hserves
  have halignment : arena.alignment = alignment := hserves.alignment_eq.trans h.alignment_eq
  obtain ⟨hgrows, hstop⟩ := hsound.le_tail_of_alloc halloc
  rw [h.alignment_eq] at hstop
  have hsum : ((done ++ [b]).map (BufferNeed.footprint alignment)).sum =
      (done.map (BufferNeed.footprint alignment)).sum + b.footprint alignment := by
    simp
  have hbefore := (List.pairwise_append.mp horder).2.2
  refine ⟨halignment, hserves.aligned, ?_, ?_, ?_, ?_⟩
  · -- the tail only grows, so what ended below it still does
    intro c hc i hi
    cases List.mem_append.mp hc with
    | inl hold =>
      rw [Dict.get?_set, if_neg (hbefore c hold b List.mem_cons_self).2] at hi
      obtain ⟨hdvd, hold⟩ := h.within c hold i hi
      exact ⟨hdvd, fun hsize => Nat.le_trans (hold hsize) hgrows⟩
    | inr hnew =>
      obtain rfl := List.mem_singleton.mp hnew
      rw [Dict.get?_set, if_pos rfl, Option.some.injEq] at hi
      obtain rfl := hi
      exact ⟨h.alignment_eq ▸ hserves.offset_dvd, hstop⟩
  · have hle := hserves.tail_le
    have hold := h.tail_le
    rw [hsum]
    show arena.tail ≤ _
    exact Nat.le_trans hle (Nat.add_le_add_right hold _)
  · intro hreuse
    obtain ⟨hfree, htail⟩ := h.unreleased hreuse
    obtain ⟨hfree', htail'⟩ := hserves.extends_tail hfree
    exact ⟨hfree', by rw [hsum, ← htail]; exact htail'⟩
  · intro rank xs hsub huse
    by_cases hrank : rank < b.birth
    · -- the newest buffer is not among those in use before its birth
      have hnew : b ∉ xs := by
        intro hb
        have hborn := (huse b hb).1
        omega
      exact Nat.le_trans (h.in_use rank xs (sublist_of_sublist_append_singleton hsub hnew) huse)
        hgrows
    · -- all that is in use at the rank has been in use since the newest buffer was placed
      have hborn : ∀ c ∈ done ++ [b], c.birth ≤ b.birth := by
        intro c hc
        cases List.mem_append.mp hc with
        | inl hold => exact Nat.le_of_lt (hbefore c hold b List.mem_cons_self).1
        | inr hnew => rw [List.mem_singleton.mp hnew]
      have hle := hnext.sum_footprint_le_tail hserves.aligned (horder.imp And.left) hborn hsub
        fun c hc => Nat.le_trans (by omega) (huse c hc).2
      rwa [halignment] at hle

/-- `placeBuffer` moves the tail by the `footprint` of the buffer at most. -/
theorem Packed.placeBuffer (h : Packed alignment reuse needs done state) {rank : Nat}
    (hstate : Placed needs done rank state) (hrank : rank ≤ b.birth)
    (hok : placeBuffer g needs reuse state b = .ok next)
    (hnext : Placed needs (done ++ [b]) b.birth next)
    (horder : (done ++ [b]).Pairwise fun b c => b.birth < c.birth ∧ b.node ≠ c.node) :
    Packed alignment reuse needs (done ++ [b]) next := by
  obtain ⟨arena, queue, offset, arena', hback, halloc, rfl⟩ := placeBuffer_eq_ok_iff.mp hok
  obtain ⟨_, _, hback', hplaced⟩ := hstate.giveBack reuse hrank
  obtain ⟨rfl, rfl⟩ := Prod.mk.inj (Except.ok.inj (hback'.symm.trans hback))
  exact (h.giveBack hback).add hplaced.books.sound halloc hnext horder

/-- `placeAll` on buffers in order of birth moves the tail by the sum of their `footprint`s at
most. -/
theorem Packed.placeAll {last : Placing} {rest : List BufferNeed}
    (h : Packed alignment reuse needs done state) {rank : Nat}
    (hstate : Placed needs done rank state) (hrank : ∀ b ∈ rest, rank ≤ b.birth)
    (hok : placeAll g needs reuse state rest = .ok last)
    (horder : (done ++ rest).Pairwise fun b c => b.birth < c.birth ∧ b.node ≠ c.node) :
    Packed alignment reuse needs (done ++ rest) last := by
  have hsize := size_nonneg_of_placeAll hok
  induction rest generalizing done rank state with
  | nil =>
    cases hok
    rwa [List.append_nil]
  | cons b rest ih =>
    obtain ⟨next, hnext, hok⟩ := exists_of_bind_eq_ok hok
    obtain ⟨hfirst, hlater⟩ := List.forall_mem_cons.mp hsize
    obtain ⟨_, hrest, hacross⟩ := List.pairwise_append.mp horder
    rw [List.append_cons] at horder ⊢
    -- the buffer is placed next, and all that are placed have the invariant
    obtain ⟨next', hnext', hplaced⟩ :=
      hstate.placeBuffer g reuse hfirst (hrank b List.mem_cons_self)
      fun c hc => hacross c hc b List.mem_cons_self
    obtain rfl : next' = next := Except.ok.inj (hnext'.symm.trans hnext)
    refine ih (h.placeBuffer hstate (hrank b List.mem_cons_self) hnext hplaced ?_) hplaced ?_ hok
      horder hlater
    · exact (List.pairwise_append.mp horder).1
    · exact fun c hc => Nat.le_of_lt ((List.pairwise_cons.mp hrest).1 c hc).1

end

/-! ### Plans -/

/-- How a plan belongs to a graph. It places the nodes that need a buffer, each of them once, in
topological order. What is not in place has as many bytes as the output type of its node says, and
what is in place lies in the buffer of another placement and has no bytes of its own. A buffer is
born at the rank of its node and dies at the rank of the last reader. -/
structure MemoryPlan.Describes (plan : MemoryPlan) (g : Graph) : Prop where
  nodes_eq : plan.placements.map Placement.node =
    (g.topologicalOrder.filter Node.isPlanned).map Node.id
  size_eq : ∀ a ∈ plan.placements, a.inPlace = false →
    ∃ n t, g.nodes.find? a.node = some n ∧ n.outputType = some t ∧ t.byteCount = .ok a.size
  size_in_place : ∀ a ∈ plan.placements, a.inPlace = true → a.size = 0
  rooted : ∀ a ∈ plan.placements, ∃ r, RootOf g plan a r
  lifetime : ∀ a ∈ plan.placements, ∃ rank : Nat, rankIn g.topologicalOrder a.node = some rank ∧
    a.birth = rank ∧ a.death = lastReader g g.topologicalOrder a.node rank

/-- The bytes that a placement takes up in an arena, those in place taking up none. -/
def Placement.footprint (alignment : Alignment) (a : Placement) : Nat :=
  alignment.roundUp a.size.toNat

/-- A buffer of a plan that is in use at a rank: it is born by then, and one of the nodes whose
outputs lie in it is still to be read then. -/
def MemoryPlan.InUse (plan : MemoryPlan) (g : Graph) (rank : Nat) (r : Placement) : Prop :=
  r.inPlace = false ∧ r.birth ≤ rank ∧ ∃ a, RootOf g plan a r ∧ rank ≤ a.death

namespace MemoryPlan

section
variable {g : Graph} {alignment : Alignment} {reuse : Bool} {needs : List BufferNeed}
  {last : Placing} {plan : MemoryPlan}

/-- When all buffers of an acyclic graph have been placed, they are `Packed`. -/
theorem Computes.packed (h : Computes g alignment reuse needs last plan) (hacyclic : g.Acyclic) :
    Packed alignment reuse needs (needs.filter (·.shared.isNone)) last :=
  (packed_empty alignment reuse needs).placeAll (placed_empty needs alignment)
    (fun _ _ => Nat.zero_le _) h.place_eq
    (needsUpTo_of_bufferNeeds hacyclic h.needs_eq).roots_ordered

/-- Needs and their placements by `BufferNeed.placement` correspond, one by one. -/
private theorem Computes.forall₂ (h : Computes g alignment reuse needs last plan) :
    List.Forall₂ (fun b a => b.placement last.offsets = .ok a) needs plan.placements :=
  forall₂_of_mapM_eq_ok h.placements_eq

/-- A plan that is computed `Describes` its graph. -/
theorem Computes.describes (h : Computes g alignment reuse needs last plan) (hacyclic : g.Acyclic) :
    plan.Describes g := by
  have hmade := h.madeFrom hacyclic
  -- what is said of all placements is known of the needs they are made from
  have hneed : ∀ a ∈ plan.placements, ∃ b ∈ needs, ∃ i : Nat, b.placement last.offsets = .ok a ∧
      a = ⟨b.node, i, b.size, b.birth, b.death, b.shared.isSome⟩ := by
    intro a ha
    obtain ⟨b, hb, hba⟩ := (hmade.placements_iff a).mp ha
    obtain ⟨i, -, heq⟩ := BufferNeed.placement_eq_ok_iff.mp hba
    exact ⟨b, hb, i, hba, heq⟩
  refine ⟨?_, fun a ha hown => ?_, fun a ha hplace => ?_, fun a ha => ?_, fun a ha => ?_⟩
  · rw [← map_node_bufferNeeds h.needs_eq]
    refine (map_eq_of_forall₂ h.forall₂ fun b a hba => ?_).symm
    obtain ⟨_, _, rfl⟩ := BufferNeed.placement_eq_ok_iff.mp hba
    rfl
  · obtain ⟨b, hb, i, -, rfl⟩ := hneed a ha
    exact hmade.size_eq hb (by simpa using hown)
  · obtain ⟨b, hb, i, -, rfl⟩ := hneed a ha
    exact (hmade.needs_spec.describes b hb).size_of_shared hplace
  · obtain ⟨b, hb, i, hba, -⟩ := hneed a ha
    obtain ⟨c, hc⟩ := hmade.needs_spec.exists_writesInto hb
    obtain ⟨r, hr, -⟩ := hc.exists_rootOf hmade hba
    exact ⟨r, hr⟩
  · obtain ⟨b, hb, i, -, rfl⟩ := hneed a ha
    refine ⟨b.birth, hmade.needs_spec.rankIn_eq hb, rfl, ?_⟩
    exact congrArg Int.ofNat (hmade.needs_spec.describes b hb).death_eq

/-- `BufferNeed.placement` takes up as many bytes as the need it is made from. -/
private theorem footprint_placement {offsets : Dict Nat} (b : BufferNeed) (a : Placement)
    (h : b.placement offsets = .ok a) : b.footprint alignment = a.footprint alignment := by
  obtain ⟨_, _, rfl⟩ := BufferNeed.placement_eq_ok_iff.mp h
  rfl

/-- The buffers of a plan and the needs they are made from have the same sum of `footprint`s. -/
private theorem Computes.sum_footprint (h : Computes g alignment reuse needs last plan) :
    ((needs.filter (·.shared.isNone)).map (BufferNeed.footprint alignment)).sum =
      ((plan.placements.filter fun a => !a.inPlace).map (Placement.footprint alignment)).sum := by
  refine congrArg List.sum (map_eq_of_forall₂ (List.rel_filter ?_ h.forall₂) footprint_placement)
  intro b a hba
  obtain ⟨_, _, rfl⟩ := BufferNeed.placement_eq_ok_iff.mp hba
  cases hshared : b.shared <;> simp [hshared]

/-- But for their offsets, the placements that `Computes` gives a plan depend on the needs alone. -/
private theorem Computes.map_offset_eq (h : Computes g alignment reuse needs last plan) :
    plan.placements.map (fun a => { a with offset := 0 }) =
      needs.map fun b => ⟨b.node, 0, b.size, b.birth, b.death, b.shared.isSome⟩ := by
  have hforall := h.forall₂
  -- the placements are those of the needs one by one, whatever the offsets are
  clear h
  generalize plan.placements = placements at hforall
  induction hforall with
  | nil => rfl
  | cons hba _ ih =>
    obtain ⟨_, _, rfl⟩ := BufferNeed.placement_eq_ok_iff.mp hba
    rw [List.map_cons, List.map_cons, ih]

/-- `placedBytes` do not depend on where placements lie. -/
private theorem placedBytes_map_offset (placements : List Placement) :
    placedBytes (placements.map fun a => { a with offset := 0 }) = placedBytes placements := by
  simp only [placedBytes, List.foldl_map]

/-- In a plan `MadeFrom` needs, the offset of a placement is one at which a buffer has been
placed. -/
private theorem MadeFrom.exists_root {offsets : Dict Nat} (h : plan.MadeFrom g needs offsets)
    {b : BufferNeed} (hb : b ∈ needs) {a : Placement} (hba : b.placement offsets = .ok a) :
    ∃ r ∈ needs.filter (·.shared.isNone), ∃ i, offsets.get? r.node = some i ∧ a.offset = i := by
  obtain ⟨r, hr⟩ := h.needs_spec.exists_writesInto hb
  obtain ⟨hmem, hown, _, hroot⟩ := hr.root
  obtain ⟨i, hi, rfl⟩ := BufferNeed.placement_eq_ok_iff.mp hba
  exact ⟨r, mem_roots_iff.mpr ⟨hmem, hown⟩, i, hroot ▸ hi, rfl⟩

/-- A need whose placement is `InUse` at a rank is in use then. -/
private theorem MadeFrom.inUse {offsets : Dict Nat} (h : plan.MadeFrom g needs offsets)
    {b : BufferNeed} {r : Placement} (hbr : b.placement offsets = .ok r) (hb : b ∈ needs)
    {rank : Nat} (huse : plan.InUse g rank r) :
    b.shared = none ∧ b.birth ≤ rank ∧ rank ≤ lastUse needs b := by
  obtain ⟨hown, hbirth, a, hroot, hdeath⟩ := huse
  -- the need that is read last writes into the buffer of some need, and that one is `b`
  obtain ⟨c, hc, hca⟩ := (h.placements_iff a).mp hroot.mem
  obtain ⟨d, hd, hdr⟩ := hroot.writesInto h hc hca
  obtain ⟨_, _, rfl⟩ := BufferNeed.placement_eq_ok_iff.mp hbr
  obtain ⟨_, _, hnode⟩ := BufferNeed.placement_eq_ok_iff.mp hdr
  obtain ⟨_, _, rfl⟩ := BufferNeed.placement_eq_ok_iff.mp hca
  have hdb : d = b := h.needs_spec.eq_of_node_eq hd.root.1 hb (Placement.mk.inj hnode).1.symm
  have hlast := hd.death_le_lastUse
  rw [hdb] at hlast
  dsimp only at hown hbirth hdeath
  exact ⟨by simpa using hown, by omega, by omega⟩

end

/-- `compute` succeeds on a valid graph whose output types have a number of bytes, with and without
reuse, and both plans have `Describes` for the graph: they place the nodes with a typed output, with
the sizes of their types. Without reuse the peak is the sum of the rounded sizes of all buffers, and
with reuse it is no higher. Otherwise the two plans differ in offsets only. -/
theorem reuse_never_raises_peak {g : Graph} (hvalid : g.validate = .ok ())
    (hbytes : ∀ n ∈ g.nodes.toList, ∀ t, n.outputType = some t →
      ∃ bytes, t.byteCount = .ok bytes ∧ 0 ≤ bytes) (alignment : Alignment) :
    ∃ plain reused, compute g alignment false = .ok plain ∧ compute g alignment true = .ok reused ∧
      plain.Describes g ∧ reused.Describes g ∧
      plain.peakBytes =
        ((plain.placements.filter fun a => !a.inPlace).map (Placement.footprint alignment)).sum ∧
      reused.peakBytes ≤ plain.peakBytes ∧
      reused.placements.map (fun a => { a with offset := 0 }) =
        plain.placements.map (fun a => { a with offset := 0 }) ∧
      reused.tensorBytes = plain.tensorBytes ∧ reused.inPlaceCount = plain.inPlaceCount := by
  have hacyclic := (Graph.validate_eq_ok_iff.mp hvalid).acyclic
  obtain ⟨needs, first, plain, hplain⟩ := exists_computes hacyclic hbytes alignment false
  obtain ⟨needs', second, reused, hreused⟩ := exists_computes hacyclic hbytes alignment true
  -- needs are settled before any buffer is placed
  obtain rfl : needs' = needs := Except.ok.inj (hreused.needs_eq.symm.trans hplain.needs_eq)
  have hsame := hreused.map_offset_eq.trans hplain.map_offset_eq.symm
  have hpeak : plain.peakBytes =
      ((plain.placements.filter fun a => !a.inPlace).map (Placement.footprint alignment)).sum := by
    rw [hplain.peak_eq, ((hplain.packed hacyclic).unreleased rfl).2, hplain.sum_footprint]
  refine ⟨plain, reused, compute_eq_ok_iff.mpr ⟨_, _, hplain⟩,
    compute_eq_ok_iff.mpr ⟨_, _, hreused⟩,
    hplain.describes hacyclic, hreused.describes hacyclic, hpeak, ?_, hsame, ?_, ?_⟩
  · rw [hpeak, ← hplain.sum_footprint, hreused.peak_eq]
    exact Int.ofNat_le.mpr (hreused.packed hacyclic).tail_le
  · rw [hreused.tensor_eq, hplain.tensor_eq, ← placedBytes_map_offset, hsame,
      placedBytes_map_offset]
  · rw [hreused.count_eq, hplain.count_eq]

/-- Blocks as large as a cache line. -/
def cacheLine : Alignment := ⟨64, by decide, .int 64⟩

private theorem topologicalOrder_scaledLayer :
    Graph.scaledLayer.topologicalOrder = Graph.scaledLayer.nodes.toList := by
  simp [Graph.topologicalOrder, Graph.explore, Graph.search, Graph.Frame.enter, Graph.scaledLayer,
    Graph.layerNode, Graph.layerEdge, Graph.inputEdges, NodeTable.ids, NodeTable.find?]

/-- The plan of `Graph.scaledLayer` with reuse. The product takes the place of the first constant,
and the sum that of the input. -/
def scaledLayerPlan : MemoryPlan where
  placements :=
    [⟨"x_2", 0, 16, 0, 4, false⟩, ⟨"w_3", 64, 16, 1, 3, false⟩, ⟨"c_4", 128, 16, 2, 5, false⟩,
     ⟨"k_5", 192, 16, 3, 4, false⟩, ⟨"m_6", 64, 16, 4, 5, false⟩, ⟨"a_7", 0, 16, 5, 6, false⟩,
     ⟨"r_8", 0, 0, 6, 7, true⟩]
  peakBytes := 256
  tensorBytes := 96
  inPlaceCount := 1

/-- `compute` gives `scaledLayerPlan` for `Graph.scaledLayer`. -/
theorem compute_scaledLayer :
    compute Graph.scaledLayer cacheLine true = .ok scaledLayerPlan := by
  unfold compute bufferNeeds
  rw [topologicalOrder_scaledLayer]
  rfl

/-- The six buffers of `Graph.scaledLayer` take six cache lines, of which four are left with
reuse. -/
theorem reuse_lowers_peak_of_scaledLayer :
    Graph.scaledLayer.validate = .ok () ∧
      ∃ plain reused, compute Graph.scaledLayer cacheLine false = .ok plain ∧
        compute Graph.scaledLayer cacheLine true = .ok reused ∧
        (plain.placements.filter fun a => !a.inPlace).length = 6 ∧ plain.peakBytes = 384 ∧
        plain.peakBytes =
          ((plain.placements.filter fun a => !a.inPlace).map (Placement.footprint cacheLine)).sum ∧
        reused.peakBytes ≤ plain.peakBytes ∧ reused.peakBytes = 256 := by
  obtain ⟨plain, reused, hplain, hreused, _, _, hpeak, hle, hsame, _⟩ :=
    reuse_never_raises_peak Graph.validate_scaledLayer byteCount_scaledLayer cacheLine
  refine ⟨Graph.validate_scaledLayer, plain, reused, hplain, hreused, ?_⟩
  obtain rfl := Except.ok.inj (hreused.symm.trans compute_scaledLayer)
  -- without reuse the plan is computed, with the order that is known
  have hcount : (compute Graph.scaledLayer cacheLine false).map (fun plan =>
      ((plan.placements.filter fun a => !a.inPlace).length, plan.peakBytes)) = .ok (6, 384) := by
    unfold compute bufferNeeds
    rw [topologicalOrder_scaledLayer]
    rfl
  rw [hplain] at hcount
  obtain ⟨hlength, hbytes⟩ := Prod.mk.inj (Except.ok.inj hcount)
  exact ⟨hlength, hbytes, hpeak, hle, rfl⟩

/-- `compute` succeeds on a valid graph whose output types have a number of bytes. The plan
`Describes` the graph, so its buffers have the sizes and the lifetimes of the nodes' outputs, and
its peak is no under-estimate. Offsets are aligned, every buffer that has bytes ends at the peak or
before, and any buffers `InUse` at one rank have rounded sizes that add up to the peak at most. -/
theorem peak_covers_buffers_in_use {g : Graph} (hvalid : g.validate = .ok ())
    (hbytes : ∀ n ∈ g.nodes.toList, ∀ t, n.outputType = some t →
      ∃ bytes, t.byteCount = .ok bytes ∧ 0 ≤ bytes) (alignment : Alignment) (reuse : Bool) :
    ∃ plan, compute g alignment reuse = .ok plan ∧ plan.Describes g ∧
      (∀ a ∈ plan.placements, (alignment.bytes : Int) ∣ a.offset) ∧
      (∀ a ∈ plan.placements, a.inPlace = false → 0 < a.size →
        a.offset + a.footprint alignment ≤ plan.peakBytes) ∧
      ∀ (rank : Nat) (buffers : List Placement), buffers.Sublist plan.placements →
        (∀ r ∈ buffers, plan.InUse g rank r) →
        (buffers.map (Placement.footprint alignment)).sum ≤ plan.peakBytes := by
  have hacyclic := (Graph.validate_eq_ok_iff.mp hvalid).acyclic
  obtain ⟨needs, last, plan, h⟩ := exists_computes hacyclic hbytes alignment reuse
  have hmade := h.madeFrom hacyclic
  have hpacked := h.packed hacyclic
  refine ⟨plan, compute_eq_ok_iff.mpr ⟨needs, last, h⟩, h.describes hacyclic, ?_, ?_, ?_⟩
  · intro a ha
    obtain ⟨b, hb, hba⟩ := (hmade.placements_iff a).mp ha
    obtain ⟨r, hr, i, hi, hoffset⟩ := hmade.exists_root hb hba
    rw [hoffset]
    exact Int.natCast_dvd_natCast.mpr (hpacked.within r hr i hi).1
  · intro a ha hown hsize
    obtain ⟨b, hb, hba⟩ := (hmade.placements_iff a).mp ha
    obtain ⟨i, hi, rfl⟩ := BufferNeed.placement_eq_ok_iff.mp hba
    have hshared : b.shared = none := by simpa using hown
    have hroot : b.root = b.node := by rw [BufferNeed.root, hshared, Option.getD_none]
    have hstop := (hpacked.within b (mem_roots_iff.mpr ⟨hb, hshared⟩) i (hroot ▸ hi)).2 hsize
    rw [h.peak_eq]
    exact Int.ofNat_le.mpr hstop
  · intro rank buffers hsub huse
    obtain ⟨xs, hxs, hbuffers⟩ := exists_sublist_left h.forall₂ hsub
    have hneeds : ∀ b ∈ xs, b.shared = none ∧ b.birth ≤ rank ∧ rank ≤ lastUse needs b := by
      intro b hb
      obtain ⟨r, hr, hbr⟩ := exists_of_mem_left hbuffers hb
      exact hmade.inUse hbr (hxs.subset hb) (huse r hr)
    -- buffers in use are not in place, so they are among those that were placed
    have hroots : xs.Sublist (needs.filter (·.shared.isNone)) := by
      rw [← List.filter_eq_self.mpr fun b hb => Option.isNone_iff_eq_none.mpr (hneeds b hb).1]
      exact hxs.filter _
    rw [h.peak_eq, ← map_eq_of_forall₂ hbuffers footprint_placement]
    exact Int.ofNat_le.mpr (hpacked.in_use rank xs hroots fun b hb => (hneeds b hb).2)

/-- When the product of `Graph.scaledLayer` is computed, four buffers are in use, and they fill the
peak. -/
theorem peak_of_scaledLayer_is_filled :
    Graph.scaledLayer.validate = .ok () ∧
      ∃ plan, compute Graph.scaledLayer cacheLine true = .ok plan ∧ plan.peakBytes = 256 ∧
        ∃ buffers : List Placement, buffers.Sublist plan.placements ∧
          buffers.map Placement.node = ["x_2", "c_4", "k_5", "m_6"] ∧
          (∀ r ∈ buffers, plan.InUse Graph.scaledLayer 4 r) ∧
          (buffers.map (Placement.footprint cacheLine)).sum ≤ plan.peakBytes ∧
          (buffers.map (Placement.footprint cacheLine)).sum = 256 := by
  obtain ⟨plan, hok, _, _, _, hpeak⟩ :=
    peak_covers_buffers_in_use Graph.validate_scaledLayer byteCount_scaledLayer cacheLine true
  refine ⟨Graph.validate_scaledLayer, plan, hok, ?_⟩
  obtain rfl := Except.ok.inj (hok.symm.trans compute_scaledLayer)
  -- what is alive at step 4
  have hsub := List.filter_sublist (p := fun a => a.birth ≤ 4 && 4 ≤ a.death)
    (l := scaledLayerPlan.placements)
  have huse : ∀ r ∈ scaledLayerPlan.placements.filter (fun a => a.birth ≤ 4 && 4 ≤ a.death),
      scaledLayerPlan.InUse Graph.scaledLayer 4 r := by
    intro r hr
    have hown : r.inPlace = false ∧ r.birth ≤ 4 ∧ 4 ≤ r.death := by
      revert r
      decide
    exact ⟨hown.1, hown.2.1, r, .own (hsub.subset hr) hown.1, hown.2.2⟩
  exact ⟨rfl, _, hsub, rfl, huse, hpeak 4 _ hsub huse, rfl⟩

end MemoryPlan

end TensorGraph
