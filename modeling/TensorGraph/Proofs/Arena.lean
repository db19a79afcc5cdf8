import Mathlib.Algebra.Order.BigOperators.Group.List
import Mathlib.Algebra.Ring.Nat
import Mathlib.Data.List.Nodup
import TensorGraph.Proofs.FreeRanges

/-!
# The books of an arena

The live blocks and the free ranges of an arena tile the bytes below its tail. We say so by
counting: `cover byte` is the number of ranges that hold a byte, and an arena is sound if it is one
for the bytes below the tail and zero for all others. Taking space and giving it back change the
count by the range that is moved and by nothing else (`cover_takeFit`, `cover_giveBack`), which is
all that the preservation lemmas need. Disjointness and coverage are read off the count at the end.

Calls are carried out by steps that keep what they have changed when they fail. `run_allocStep_neg`
and its neighbours say what each step leaves behind, and all that follows about calls is read off
them.
-/

namespace TensorGraph

/-- The range of a live block. -/
def Block.range (b : Block) : FreeRange := ⟨b.offset, b.size⟩

namespace Arena

/-! ### Sound arenas -/

/-- The ranges that an arena keeps books of: the live ones and the free ones. -/
def spans (a : Arena) : List FreeRange := a.live.map Block.range ++ a.free

/-- The books of an arena are in order: live blocks and free ranges have bytes and tile the bytes
below the tail, the free ranges are merged as far as they can be, and the bytes in use add up. -/
structure Sound (a : Arena) : Prop where
  size_pos : ∀ r ∈ a.spans, 0 < r.size
  cover_eq : ∀ byte, cover a.spans byte = if byte < a.tail then 1 else 0
  separated : Separated a.free
  liveBytes_eq : a.liveBytes = (a.live.map Block.size).sum

theorem sound_empty (alignment : Alignment) : (empty alignment).Sound :=
  ⟨List.forall_mem_nil _, fun _ => rfl, List.Pairwise.nil, rfl⟩

/-- The ranges of a `Sound` arena are pairwise disjoint. -/
theorem Sound.disjoint {a : Arena} (ha : a.Sound) : a.spans.Pairwise FreeRange.Disjoint := by
  refine pairwise_disjoint_of_cover_le ha.size_pos fun byte => ?_
  rw [ha.cover_eq]
  split <;> omega

/-- The ranges of a `Sound` arena hold exactly the bytes below its tail. -/
theorem Sound.holds_iff {a : Arena} (ha : a.Sound) (byte : Nat) :
    byte < a.tail ↔ ∃ r ∈ a.spans, r.holds byte = true := by
  rw [← cover_pos_iff, ha.cover_eq]
  split <;> omega

/-- Every range of a `Sound` arena ends at the tail or before it. -/
theorem Sound.stop_le_tail {a : Arena} (ha : a.Sound) {r : FreeRange} (hr : r ∈ a.spans) :
    r.stop ≤ a.tail := by
  have hpos := ha.size_pos r hr
  have hlast : r.holds (r.stop - 1) = true := by
    rw [FreeRange.holds_iff, FreeRange.stop]
    omega
  have hlt := (ha.holds_iff _).mpr ⟨r, hr, hlast⟩
  omega

theorem Sound.free_size_pos {a : Arena} (ha : a.Sound) : ∀ r ∈ a.free, 0 < r.size :=
  fun r hr => ha.size_pos r (List.mem_append_right _ hr)

/-- The free ranges of a `Sound` arena end at the tail or before it. -/
theorem Sound.free_stop_le_tail {a : Arena} (ha : a.Sound) {r : FreeRange} (hr : r ∈ a.free) :
    r.stop ≤ a.tail :=
  ha.stop_le_tail (List.mem_append_right _ hr)

/-- No live block of a `Sound` arena meets a free range. -/
theorem Sound.live_disjoint_free {a : Arena} (ha : a.Sound) {b : Block} (hb : b ∈ a.live)
    {r : FreeRange} (hr : r ∈ a.free) : b.range.Disjoint r :=
  (List.pairwise_append.mp ha.disjoint).2.2 b.range (List.mem_map_of_mem hb) r hr

/-- No two live blocks of a `Sound` arena start at the same byte. -/
private theorem Sound.live_nodup {a : Arena} (ha : a.Sound) : (a.live.map Block.offset).Nodup := by
  have hlive := (List.pairwise_append.mp ha.disjoint).1
  rw [List.pairwise_map] at hlive
  rw [List.Nodup, List.pairwise_map]
  refine hlive.imp_of_mem fun hb hc hdisjoint hsame => ?_
  -- two ranges at one offset that hold bytes would overlap
  have hbpos := ha.size_pos _ (List.mem_append_left _ (List.mem_map_of_mem hb))
  have hcpos := ha.size_pos _ (List.mem_append_left _ (List.mem_map_of_mem hc))
  simp only [FreeRange.Disjoint, FreeRange.stop, Block.range] at hdisjoint hbpos hcpos
  omega

/-- `insertBlock` adds one block, whatever its place. -/
theorem insertBlock_perm (b : Block) (blocks : List Block) :
    (insertBlock b blocks).Perm (b :: blocks) := by
  induction blocks with
  | nil => exact List.Perm.refl _
  | cons c rest ih =>
    rw [insertBlock]
    split
    · exact (ih.cons c).trans (List.Perm.swap b c rest)
    · exact List.Perm.refl _

/-- Striking out the block at an offset is one block less, if no other `Block` starts there. -/
private theorem perm_cons_filter_offset {blocks : List Block} {b : Block}
    (hnodup : (blocks.map Block.offset).Nodup) (hb : b ∈ blocks) :
    blocks.Perm (b :: blocks.filter (·.offset != b.offset)) := by
  induction blocks with
  | nil => cases hb
  | cons c rest ih =>
    rw [List.map_cons, List.nodup_cons] at hnodup
    cases List.mem_cons.mp hb with
    | inl heq =>
      -- the head goes, and no block of the rest starts where it does
      have hkeep : rest.filter (·.offset != b.offset) = rest := by
        rw [List.filter_eq_self]
        intro d hd
        rw [bne_iff_ne]
        intro hsame
        exact hnodup.1 (heq ▸ hsame ▸ List.mem_map_of_mem hd)
      rw [heq, List.filter_cons_of_neg (by simp), ← heq, hkeep]
    | inr hrest =>
      have hne : c.offset ≠ b.offset := fun hsame => hnodup.1 (hsame ▸ List.mem_map_of_mem hrest)
      rw [List.filter_cons_of_pos (by simpa using hne)]
      exact ((ih hnodup.2 hrest).cons c).trans (List.Perm.swap b c _)

/-! ### Requests -/

/-- `record` over bytes that no range of the books holds: if the free ranges together with the block
tile the bytes below the new tail, the arena is `Sound` again. -/
theorem Sound.record {a : Arena} {free : List FreeRange} {tail : Nat} {b : Block} (ha : a.Sound)
    (hb : 0 < b.size) (hpos : ∀ r ∈ free, 0 < r.size) (hsep : Separated free)
    (hcover : ∀ byte, cover (a.live.map Block.range) byte + cover (b.range :: free) byte =
      if byte < tail then 1 else 0) :
    ({ a with free := free, tail := tail }.record b).Sound := by
  have hperm := insertBlock_perm b a.live
  refine ⟨?_, ?_, hsep, ?_⟩
  · intro r hr
    cases List.mem_append.mp hr with
    | inl hlive =>
      replace hlive : r ∈ (insertBlock b a.live).map Block.range := hlive
      rw [(hperm.map Block.range).mem_iff, List.map_cons, List.mem_cons] at hlive
      cases hlive with
      | inl heq => exact heq ▸ hb
      | inr hold => exact ha.size_pos r (List.mem_append_left _ hold)
    | inr hfree => exact hpos r hfree
  · intro byte
    show cover ((insertBlock b a.live).map Block.range ++ free) byte = if byte < tail then 1 else 0
    -- the count does not depend on where the block stands in the list
    have hlive : cover ((insertBlock b a.live).map Block.range) byte =
        cover (b.range :: a.live.map Block.range) byte := (hperm.map Block.range).countP_eq _
    have htotal := hcover byte
    rw [cover_cons] at hlive htotal
    rw [cover_append, hlive, ← htotal]
    omega
  · show a.liveBytes + b.size = ((insertBlock b a.live).map Block.size).sum
    rw [(hperm.map Block.size).sum_eq, List.map_cons, List.sum_cons, ha.liveBytes_eq, Nat.add_comm]

/-- What a granted request does: the block is entered, everything else that was live stays, and the
tail moves only if the block ends beyond it. -/
structure Grants (a : Arena) (b : Block) (next : Arena) : Prop where
  sound : next.Sound
  live_perm : next.live.Perm (b :: a.live)
  tail_eq : next.tail = max a.tail b.range.stop
  alignment_eq : next.alignment = a.alignment

/-- A block in `Grants` is disjoint from every block that was live. -/
theorem Grants.disjoint {a next : Arena} {b c : Block} (h : a.Grants b next) (hc : c ∈ a.live) :
    c.range.Disjoint b.range := by
  have hlive := (List.pairwise_append.mp h.sound.disjoint).1
  rw [(h.live_perm.map Block.range).pairwise_iff FreeRange.Disjoint.symm, List.map_cons] at hlive
  exact ((List.pairwise_cons.mp hlive).1 c.range (List.mem_map_of_mem hc)).symm

/-- A block in `Grants` starts where no live block did. -/
theorem Grants.offset_ne {a next : Arena} {b c : Block} (h : a.Grants b next) (hc : c ∈ a.live) :
    c.offset ≠ b.offset := by
  have hnodup := h.sound.live_nodup
  rw [(h.live_perm.map Block.offset).nodup_iff, List.map_cons, List.nodup_cons] at hnodup
  exact fun heq => hnodup.1 (heq ▸ List.mem_map_of_mem hc)

/-- The bytes between the tail of a `Sound` arena and an offset beyond it become free. -/
theorem Sound.skip {a : Arena} (ha : a.Sound) {offset : Nat} (hoffset : a.tail ≤ offset) :
    let free := if a.tail < offset then giveBack ⟨a.tail, offset - a.tail⟩ a.free else a.free
    (∀ r ∈ free, 0 < r.size) ∧ Separated free ∧
      ∀ byte, cover (a.live.map Block.range ++ free) byte = if byte < offset then 1 else 0 := by
  intro free
  have hpos := ha.free_size_pos
  by_cases hgap : a.tail < offset
  · -- the gap starts at the tail, so no free range lies behind it
    have hfree : free = giveBack ⟨a.tail, offset - a.tail⟩ a.free := if_pos hgap
    have hsize : 0 < offset - a.tail := by omega
    rw [hfree]
    refine ⟨fun s hs => (mem_giveBack hsize hpos s hs).1, ?_, fun byte => ?_⟩
    · refine separated_giveBack hsize hpos ha.separated fun s hs => Or.inr ?_
      exact ha.free_stop_le_tail hs
    · have hcover := ha.cover_eq byte
      rw [spans, cover_append] at hcover
      rw [cover_append, cover_giveBack, cover_cons]
      dsimp only
      rw [← Nat.add_assoc, hcover]
      split <;> split <;> split <;> omega
  · have hfree : free = a.free := if_neg hgap
    have htail : offset = a.tail := by omega
    rw [hfree, htail]
    exact ⟨hpos, ha.separated, ha.cover_eq⟩

section
variable (a : Arena) (tag : Label)

/-- `allocStep` refuses a negative number of bytes before anything is changed. -/
private theorem run_allocStep_neg {size : Int} (hsize : size < 0) :
    (allocStep size tag).run a = .error (.negativeSize (.int size)) a := by
  simp only [allocStep, if_pos hsize]
  rfl

/-- `allocStep` serves a request from the range that `takeFit` finds. -/
private theorem run_allocStep_fit {size : Int} (hsize : 0 < size) {offset : Nat}
    {free : List FreeRange}
    (hfit : takeFit (a.alignment.roundUp size.toNat) a.free = some (offset, free)) :
    (allocStep size tag).run a = .ok offset
      ({ a with free := free }.record ⟨offset, a.alignment.roundUp size.toNat, tag⟩) := by
  have hnonneg : ¬ size < 0 := by omega
  have hne : ¬ size = 0 := by omega
  simp only [allocStep, if_neg hnonneg, if_neg hne, EStateM.run_bind, EStateM.run_get, hfit]
  rfl

/-- `allocStep` serves a request behind the tail if `takeFit` finds nothing. -/
private theorem run_allocStep_grow {size : Int} (hsize : 0 < size)
    (hnone : takeFit (a.alignment.roundUp size.toNat) a.free = none) :
    (allocStep size tag).run a = .ok (a.alignment.roundUp a.tail)
      ({ a with
        free := if a.tail < a.alignment.roundUp a.tail then
          giveBack ⟨a.tail, a.alignment.roundUp a.tail - a.tail⟩ a.free else a.free
        tail := a.alignment.roundUp a.tail + a.alignment.roundUp size.toNat }.record
        ⟨a.alignment.roundUp a.tail, a.alignment.roundUp size.toNat, tag⟩) := by
  have hnonneg : ¬ size < 0 := by omega
  have hne : ¬ size = 0 := by omega
  simp only [allocStep, if_neg hnonneg, if_neg hne, EStateM.run_bind, EStateM.run_get, hnone]
  split <;> rfl

end

/-- How `alloc` serves a request for a positive number of bytes: from the first free range that has
enough of them, or else behind the tail. -/
theorem alloc_cases {a next : Arena} {size : Int} {tag : Label} {offset : Nat} (hsize : 0 < size)
    (hok : a.alloc size tag = .ok (offset, next)) :
    let need := a.alignment.roundUp size.toNat
    (∃ free, takeFit need a.free = some (offset, free) ∧
      next = { a with free := free }.record ⟨offset, need, tag⟩) ∨
    takeFit need a.free = none ∧ offset = a.alignment.roundUp a.tail ∧
      next = { a with
        free := if a.tail < offset then giveBack ⟨a.tail, offset - a.tail⟩ a.free else a.free
        tail := offset + need }.record ⟨offset, need, tag⟩ := by
  cases htake : takeFit (a.alignment.roundUp size.toNat) a.free with
  | some found =>
    rw [alloc, attempt, run_allocStep_fit a tag hsize htake] at hok
    cases hok
    -- the lowest free range that is large enough
    exact Or.inl ⟨_, htake, rfl⟩
  | none =>
    rw [alloc, attempt, run_allocStep_grow a tag hsize htake] at hok
    cases hok
    -- no free range is large enough, so the arena grows
    exact Or.inr ⟨htake, rfl, rfl⟩

theorem alloc_eq_error {size : Int} (hsize : size < 0) (a : Arena) (tag : Label) :
    a.alloc size tag = .error (.negativeSize (.int size)) := by
  rw [alloc, attempt, run_allocStep_neg a tag hsize]

/-- What `alloc` serves is not a request for a negative number of bytes. -/
theorem size_nonneg_of_alloc {a next : Arena} {size : Int} {tag : Label} {offset : Nat}
    (hok : a.alloc size tag = .ok (offset, next)) : 0 ≤ size := by
  by_contra hneg
  rw [alloc_eq_error (by omega)] at hok
  cases hok

theorem alloc_zero (a : Arena) (tag : Label) : a.alloc 0 tag = .ok (a.tail, a) := rfl

/-- If `alloc` serves a request that is not for a positive number of bytes, it is for none. It gets
the tail, and the arena stays as it is. -/
theorem eq_of_alloc_not_pos {a next : Arena} {size : Int} {tag : Label} {offset : Nat}
    (hsize : ¬ 0 < size) (hok : a.alloc size tag = .ok (offset, next)) :
    size = 0 ∧ offset = a.tail ∧ next = a := by
  have hnonneg := size_nonneg_of_alloc hok
  have hzero : size = 0 := by omega
  rw [hzero, alloc_zero] at hok
  cases hok
  exact ⟨hzero, rfl, rfl⟩

/-- `allocStep` never fails for a positive number of bytes. -/
private theorem exists_run_allocStep (a : Arena) {size : Int} (hsize : 0 < size) (tag : Label) :
    ∃ offset next, (allocStep size tag).run a = .ok offset next := by
  cases htake : takeFit (a.alignment.roundUp size.toNat) a.free with
  | some found => exact ⟨_, _, run_allocStep_fit a tag hsize htake⟩
  | none => exact ⟨_, _, run_allocStep_grow a tag hsize htake⟩

private theorem alloc_eq_ok_iff {a next : Arena} {size : Int} {tag : Label} {offset : Nat} :
    a.alloc size tag = .ok (offset, next) ↔ (allocStep size tag).run a = .ok offset next := by
  rw [alloc, attempt]
  cases (allocStep size tag).run a <;> simp

/-- `alloc` refuses only negative numbers of bytes. -/
theorem exists_alloc (a : Arena) {size : Int} (hsize : 0 ≤ size) (tag : Label) :
    ∃ offset next, a.alloc size tag = .ok (offset, next) := by
  by_cases hpos : 0 < size
  · obtain ⟨offset, next, hrun⟩ := exists_run_allocStep a hpos tag
    exact ⟨offset, next, alloc_eq_ok_iff.mpr hrun⟩
  · have hzero : size = 0 := by omega
    exact ⟨a.tail, a, hzero ▸ alloc_zero a tag⟩

/-- If `alloc` has served a request for a positive number of bytes in a `Sound` arena, it `Grants` a
block of the rounded size. -/
theorem Sound.grants_of_alloc {a next : Arena} (ha : a.Sound) {size : Int} {tag : Label}
    {offset : Nat} (hsize : 0 < size) (hok : a.alloc size tag = .ok (offset, next)) :
    a.Grants ⟨offset, a.alignment.roundUp size.toNat, tag⟩ next := by
  have hle := a.alignment.le_roundUp size.toNat
  have hneed : 0 < a.alignment.roundUp size.toNat := by omega
  have hpos := ha.free_size_pos
  obtain ⟨free, htake, rfl⟩ | ⟨-, hoffset, rfl⟩ := alloc_cases hsize hok
  · -- the block takes the place of free bytes, so the tail stays
    generalize a.alignment.roundUp size.toNat = need at hneed htake
    have hsound : ({ a with free := free, tail := a.tail }.record ⟨offset, need, tag⟩).Sound := by
      refine ha.record hneed ?_ (separated_takeFit htake hneed ha.separated) fun byte => ?_
      · exact fun s hs => (mem_takeFit htake hpos s hs).1
      · have hcover := ha.cover_eq byte
        rw [spans, cover_append, cover_takeFit htake byte] at hcover
        exact hcover
    refine ⟨hsound, insertBlock_perm _ _, ?_, rfl⟩
    -- the block is one of the ranges, so it ends at the tail or before it
    have hmem : (⟨offset, need⟩ : FreeRange) ∈
        ({ a with free := free, tail := a.tail }.record ⟨offset, need, tag⟩).spans :=
      List.mem_append_left _ (List.mem_map.mpr
        ⟨_, (insertBlock_perm _ _).mem_iff.mpr List.mem_cons_self, rfl⟩)
    exact (Nat.max_eq_left (hsound.stop_le_tail hmem)).symm
  · -- the block comes after the tail, and the bytes that rounding leaves between them become free
    have htail := a.alignment.le_roundUp a.tail
    rw [← hoffset] at htail
    generalize a.alignment.roundUp size.toNat = need at hneed
    obtain ⟨hgap, hsep, hcover⟩ := ha.skip htail
    refine ⟨ha.record hneed hgap hsep fun byte => ?_, insertBlock_perm _ _, ?_, rfl⟩
    · have hbelow := hcover byte
      rw [cover_append] at hbelow
      rw [cover_cons, ← Nat.add_assoc, hbelow]
      show _ + (if offset ≤ byte ∧ byte < offset + need then 1 else 0) = _
      split <;> split <;> split <;> omega
    · show offset + need = max a.tail (offset + need)
      omega

/-- In a `Sound` arena `alloc` serves every request for a positive number of bytes. -/
theorem Sound.alloc_grants {a : Arena} (ha : a.Sound) {size : Int} (hsize : 0 < size)
    (tag : Label) :
    ∃ offset next, a.alloc size tag = .ok (offset, next) ∧
      a.Grants ⟨offset, a.alignment.roundUp size.toNat, tag⟩ next := by
  obtain ⟨offset, next, hok⟩ := a.exists_alloc (Int.le_of_lt hsize) tag
  exact ⟨offset, next, hok, ha.grants_of_alloc hsize hok⟩

/-! ### Releases -/

/-- What a release does: the block is struck out and everything else stays. -/
structure Frees (a : Arena) (b : Block) (next : Arena) : Prop where
  sound : next.Sound
  live_perm : a.live.Perm (b :: next.live)
  tail_eq : next.tail = a.tail
  alignment_eq : next.alignment = a.alignment

/-- A live block of a `Sound` arena is what is found under its offset. -/
private theorem Sound.find?_live {a : Arena} (ha : a.Sound) {b : Block} (hb : b ∈ a.live) :
    a.live.find? (fun c => (c.offset : Int) = (b.offset : Int)) = some b := by
  cases hfind : a.live.find? fun c => (c.offset : Int) = (b.offset : Int) with
  | none =>
    have hnone := List.find?_eq_none.mp hfind b hb
    simp only [decide_true, not_true] at hnone
  | some c =>
    -- what is found has the offset of b, and offsets of blocks are distinct
    have hoffset := List.find?_some hfind
    simp only [Int.natCast_inj, decide_eq_true_eq] at hoffset
    have hc := List.mem_of_find?_eq_some hfind
    rw [List.inj_on_of_nodup_map ha.live_nodup hc hb hoffset]

/-- `releaseStep` strikes out the live block at the offset and frees its bytes. -/
private theorem run_releaseStep_live {a : Arena} {offset : Int} {b : Block}
    (h : a.live.find? (fun b => (b.offset : Int) = offset) = some b) (given : Datum) :
    (releaseStep given offset).run a = .ok ()
      { a with
        live := a.live.filter (·.offset != b.offset)
        liveBytes := a.liveBytes - b.size
        free := giveBack b.range a.free } := by
  simp only [releaseStep, EStateM.run_bind, EStateM.run_get, h]
  rfl

/-- `releaseStep` fails before anything is changed if no block is live at the offset. -/
private theorem run_releaseStep_none {a : Arena} {offset : Int}
    (h : a.live.find? (fun b => (b.offset : Int) = offset) = none) (given : Datum) :
    (releaseStep given offset).run a = .error (.notAllocated given) a := by
  simp only [releaseStep, EStateM.run_bind, EStateM.run_get, h]
  rfl

/-- The `Block` that is found under an offset starts there. -/
private theorem offset_of_find? {blocks : List Block} {offset : Int} {b : Block}
    (h : blocks.find? (fun b => (b.offset : Int) = offset) = some b) :
    (b.offset : Int) = offset := by
  have hoffset := List.find?_some h
  exact of_decide_eq_true hoffset

/-- `release` frees the block that is found at the offset. -/
theorem release_of_find? {a : Arena} {offset : Int} {b : Block}
    (h : a.live.find? (fun b => (b.offset : Int) = offset) = some b) :
    a.release offset = .ok
      { a with
        live := a.live.filter (·.offset != b.offset)
        liveBytes := a.liveBytes - b.size
        free := giveBack b.range a.free } := by
  rw [release, attempt, run_releaseStep_live h]
  rfl

/-- `release` fails if no block is found at the offset. -/
theorem release_eq_error {a : Arena} {offset : Int}
    (h : a.live.find? (fun b => (b.offset : Int) = offset) = none) :
    a.release offset = .error (.notAllocated (.int offset)) := by
  rw [release, attempt, run_releaseStep_none h]
  rfl

/-- What `release` does: it strikes out a live block at the offset and frees its bytes. -/
theorem release_cases {a next : Arena} {offset : Int} (hok : a.release offset = .ok next) :
    ∃ b ∈ a.live, (b.offset : Int) = offset ∧ next = { a with
      live := a.live.filter (·.offset != b.offset)
      liveBytes := a.liveBytes - b.size
      free := giveBack b.range a.free } := by
  cases hfind : a.live.find? fun b => (b.offset : Int) = offset with
  | none =>
    -- no block lives at the offset, and the call has failed
    rw [release_eq_error hfind] at hok
    cases hok
  | some b =>
    rw [release_of_find? hfind] at hok
    cases hok
    exact ⟨b, List.mem_of_find?_eq_some hfind, offset_of_find? hfind, rfl⟩

/-- `release` at the offset of a live block of a `Sound` arena `Frees` it. -/
theorem Sound.release_frees {a : Arena} (ha : a.Sound) {b : Block} (hb : b ∈ a.live) :
    ∃ next, a.release b.offset = .ok next ∧ a.Frees b next := by
  have hperm := perm_cons_filter_offset ha.live_nodup hb
  -- the block has bytes, and no free range meets them
  have hrange : b.range ∈ a.live.map Block.range := List.mem_map_of_mem hb
  have hsize := ha.size_pos b.range (List.mem_append_left _ hrange)
  have hpos := ha.free_size_pos
  refine ⟨_, release_of_find? (ha.find?_live hb), ⟨?_, ?_, ?_, ?_⟩, hperm, rfl, rfl⟩
  · intro r hr
    cases List.mem_append.mp hr with
    | inl hlive =>
      obtain ⟨c, hc, hcr⟩ := List.mem_map.mp hlive
      have hold := List.mem_map_of_mem (f := Block.range) (List.mem_of_mem_filter hc)
      exact ha.size_pos r (List.mem_append_left _ (hcr ▸ hold))
    | inr hfree => exact (mem_giveBack hsize hpos r hfree).1
  · -- the range of the block moves from the live ones to the free ones
    intro byte
    have hcover := ha.cover_eq byte
    have hlive : cover (a.live.map Block.range) byte = cover (b.range ::
        (a.live.filter (·.offset != b.offset)).map Block.range) byte :=
      (hperm.map Block.range).countP_eq _
    rw [spans, cover_append, hlive, cover_cons] at hcover
    rw [← hcover]
    show cover (_ ++ giveBack b.range a.free) byte = _
    rw [cover_append, cover_giveBack, cover_cons]
    dsimp only
    omega
  · exact separated_giveBack hsize hpos ha.separated fun s hs => ha.live_disjoint_free hb hs
  · -- the sizes of the blocks that are left add up to what is left
    have hsum := (hperm.map Block.size).sum_eq
    rw [List.map_cons, List.sum_cons, ← ha.liveBytes_eq] at hsum
    show a.liveBytes - b.size = ((a.live.filter (·.offset != b.offset)).map Block.size).sum
    omega

/-- If `release` has given back a live block of a `Sound` arena, it `Frees` it. -/
theorem Sound.frees_of_release {a next : Arena} (ha : a.Sound) {b : Block} (hb : b ∈ a.live)
    (hok : a.release b.offset = .ok next) : a.Frees b next := by
  obtain ⟨next', hok', hfrees⟩ := ha.release_frees hb
  rw [hok] at hok'
  cases hok'
  exact hfrees

/-! ### Sequences of calls -/

/-- The range that a call gets: that of a request for a positive number of bytes, rounded up. -/
def granted? (a : Arena) (call : Call) : Option FreeRange :=
  match call, (a.perform call).1 with
  | .request size _, .ok (some offset) =>
    match size.whole? with
    | some n => if 0 < n then some ⟨offset, a.alignment.roundUp n.toNat⟩ else none
    | none => none
  | _, _ => none

/-- Carry out calls in turn: the arena at the end, and the ranges that the calls got. -/
def replay (a : Arena) : List Call → Arena × List FreeRange
  | [] => (a, [])
  | c :: rest =>
    let (last, ranges) := (a.perform c).2.replay rest
    (last, (a.granted? c).toList ++ ranges)

/-- The first byte after all of some ranges. -/
def highest (ranges : List FreeRange) : Nat := (ranges.map FreeRange.stop).foldr max 0

/-- `highest` of two lists is the larger of the two. -/
private theorem highest_append (ranges others : List FreeRange) :
    highest (ranges ++ others) = max (highest ranges) (highest others) := by
  induction ranges with
  | nil => simp [highest]
  | cons r rest ih =>
    simp only [highest, List.cons_append, List.map_cons, List.foldr_cons] at ih ⊢
    rw [ih, Nat.max_assoc]

/-- How a call ends, and the arena that it leaves behind. -/
private inductive Outcome (a : Arena) : Call → Except Error (Option Nat) × Arena → Prop
  | refused {size : Datum} {tag : Label} {cause : Error}
      (hsize : ∀ n, size.whole? = some n → n < 0) :
      Outcome a (.request size tag) (.error cause, a)
  | nothing {size : Datum} {tag : Label} (hsize : ∀ n, size.whole? = some n → n = 0) :
      Outcome a (.request size tag) (.ok (some a.tail), a)
  | served {size : Datum} {tag : Label} {n : Int} {offset : Nat} {next : Arena} (hpos : 0 < n)
      (hsize : size.whole? = some n) (hok : a.alloc n tag = .ok (offset, next)) :
      Outcome a (.request size tag) (.ok (some offset), next)
  | missed {given : Datum} {cause : Error}
      (hoffset : ∀ i, given.integral? = some i → ∀ b ∈ a.live, (b.offset : Int) ≠ i) :
      Outcome a (.release given) (.error cause, a)
  | freed {given : Datum} {b : Block} {next : Arena} (hlive : b ∈ a.live)
      (hoffset : given.integral? = some (b.offset : Int)) (hok : a.release b.offset = .ok next) :
      Outcome a (.release given) (.ok none, next)
  | realigned {alignment : Alignment} :
      Outcome a (.realign alignment) (.ok none, a.realign alignment)

/-- A request has an `Outcome`: it is refused or asks for nothing, and changes nothing, or it is
served. -/
private theorem outcome_request (a : Arena) (size : Datum) (tag : Label) :
    a.Outcome (.request size tag) (a.perform (.request size tag)) := by
  cases hwhole : size.whole? with
  | some n =>
    have hstep : requestStep size tag = allocStep n tag := by
      cases size <;> cases hwhole <;> rfl
    rw [perform, Call.step, hstep]
    rcases Int.lt_trichotomy n 0 with hneg | rfl | hpos
    · simp only [EStateM.run_bind, run_allocStep_neg a tag hneg]
      exact .refused fun m hm => by simp_all
    · exact .nothing fun m hm => by simp_all
    · obtain ⟨offset, next, hrun⟩ := exists_run_allocStep a hpos tag
      simp only [EStateM.run_bind, hrun]
      exact .served hpos hwhole (alloc_eq_ok_iff.mpr hrun)
  | none =>
    -- what is no whole number is refused, except for a floating-point zero
    have hneg : ∀ n, size.whole? = some n → n < 0 := by simp [hwhole]
    cases size with
    | float x =>
      rw [perform, Call.step, requestStep]
      by_cases hless : x.isLess 0 = true
      · rw [if_pos hless]
        exact .refused hneg
      · by_cases hzero : x.isAtMost 0 = true
        · rw [if_neg hless, if_pos hzero]
          exact .nothing (by simp [hwhole])
        · rw [if_neg hless, if_neg hzero]
          exact .refused hneg
    | bool b => cases hwhole
    | int i => cases hwhole
    | _ => exact .refused hneg

/-- A release has an `Outcome`: it misses and changes nothing, or it is that of a live block. -/
private theorem outcome_release (a : Arena) (given : Datum) :
    a.Outcome (.release given) (a.perform (.release given)) := by
  rw [perform, Call.step, releaseAtStep]
  cases hkey : given.checkKey with
  | error cause =>
    -- what cannot be looked up stands for no offset
    exact .missed fun i hi => by cases given <;> contradiction
  | ok _ =>
    cases hint : given.integral? with
    | none => exact .missed fun i hi => by simp [hint] at hi
    | some i =>
      cases hfind : a.live.find? fun b => (b.offset : Int) = i with
      | none =>
        simp only [EStateM.run_bind, MonadExcept.ofExcept, EStateM.run_pure,
          run_releaseStep_none hfind given]
        refine .missed fun j hj b hb => ?_
        rw [hint, Option.some.injEq] at hj
        rw [← hj]
        exact fun heq => List.find?_eq_none.mp hfind b hb (decide_eq_true heq)
      | some b =>
        have hoffset := offset_of_find? hfind
        subst hoffset
        simp only [EStateM.run_bind, MonadExcept.ofExcept, EStateM.run_pure,
          run_releaseStep_live hfind given]
        exact .freed (List.mem_of_find?_eq_some hfind) hint (release_of_find? hfind)

/-- Every call has an `Outcome`. -/
private theorem outcome_perform (a : Arena) (c : Call) : a.Outcome c (a.perform c) := by
  cases c with
  | request size tag => exact outcome_request a size tag
  | release given => exact outcome_release a given
  | realign alignment => exact .realigned

/-- What `perform` does to an arena: nothing, or the call is served a positive number of bytes, or
it gives back a live block, or it changes the alignment. -/
theorem perform_cases (a : Arena) (c : Call) :
    (a.perform c).2 = a ∧ a.granted? c = none ∨
    (∃ n tag offset, 0 < n ∧ a.alloc n tag = .ok (offset, (a.perform c).2) ∧
      a.granted? c = some ⟨offset, a.alignment.roundUp n.toNat⟩) ∨
    (∃ b ∈ a.live, a.release b.offset = .ok (a.perform c).2 ∧ a.granted? c = none) ∨
    ∃ alignment, (a.perform c).2 = a.realign alignment ∧ a.granted? c = none := by
  have houtcome := outcome_perform a c
  unfold granted?
  generalize a.perform c = result at houtcome ⊢
  cases houtcome with
  | refused => exact Or.inl ⟨rfl, rfl⟩
  | @nothing size _ hsize =>
    -- a request for no bytes gets no range
    refine Or.inl ⟨rfl, ?_⟩
    cases hwhole : size.whole? with
    | none => simp only [hwhole]
    | some n => simp [hwhole, hsize n hwhole]
  | served hpos hsize hok =>
    refine Or.inr (Or.inl ⟨_, _, _, hpos, hok, ?_⟩)
    simp only [hsize, if_pos hpos]
  | missed => exact Or.inl ⟨rfl, rfl⟩
  | freed hlive _ hok => exact Or.inr (Or.inr (Or.inl ⟨_, hlive, hok, rfl⟩))
  | realigned => exact Or.inr (Or.inr (Or.inr ⟨_, rfl, rfl⟩))

/-- `perform` keeps an arena `Sound` and moves its tail to the end of the range that the call gets,
if that lies beyond it. -/
theorem Sound.perform {a : Arena} (ha : a.Sound) (c : Call) :
    (a.perform c).2.Sound ∧ (a.perform c).2.tail = max a.tail (highest (a.granted? c).toList) := by
  obtain ⟨hsame, hnone⟩ | ⟨n, tag, offset, hpos, hok, hgranted⟩ | ⟨b, hb, hok, hnone⟩ |
    ⟨alignment, hrealign, hnone⟩ := a.perform_cases c
  · -- one case for each thing that a call can do
    rw [hsame, hnone]
    exact ⟨ha, (Nat.max_zero _).symm⟩
  · have hgrants := ha.grants_of_alloc hpos hok
    rw [hgrants.tail_eq, hgranted]
    refine ⟨hgrants.sound, ?_⟩
    simp only [highest, Option.toList_some, List.map_cons, List.map_nil, List.foldr_cons,
      List.foldr_nil, Nat.max_zero, Block.range]
  · have hfrees := ha.frees_of_release hb hok
    rw [hnone]
    exact ⟨hfrees.sound, hfrees.tail_eq.trans (Nat.max_zero _).symm⟩
  · rw [hrealign, hnone]
    exact ⟨⟨ha.size_pos, ha.cover_eq, ha.separated, ha.liveBytes_eq⟩, (Nat.max_zero _).symm⟩

/-- `replay` keeps an arena `Sound`, and its tail is the highest end that the calls have reached. -/
theorem Sound.replay {a : Arena} (ha : a.Sound) (calls : List Call) :
    (a.replay calls).1.Sound ∧
      (a.replay calls).1.tail = max a.tail (highest (a.replay calls).2) := by
  induction calls generalizing a with
  | nil => exact ⟨ha, (Nat.max_zero _).symm⟩
  | cons c rest ih =>
    -- one call keeps the arena sound, and the tail grows as far as the call has reached
    obtain ⟨hsound, htail⟩ := ha.perform c
    obtain ⟨hlast, hlastTail⟩ := ih hsound
    simp only [Arena.replay]
    refine ⟨hlast, ?_⟩
    rw [hlastTail, htail, highest_append, Nat.max_assoc]

/-- `perform` leaves the arena as it was if the call fails: its step fails before it changes
anything. -/
private theorem perform_eq_of_error {a : Arena} {call : Call} {cause : Error}
    (h : (a.perform call).1 = .error cause) : (a.perform call).2 = a := by
  have houtcome := outcome_perform a call
  -- the outcome says for each call what is left of the arena
  generalize a.perform call = result at houtcome h ⊢
  cases houtcome with
  | refused => rfl
  | missed => rfl
  | nothing => cases h
  | served => cases h
  | freed => cases h
  | realigned => cases h

/-- `perform` of a request for an integer fails if and only if the integer is negative. -/
private theorem request_fails_iff (a : Arena) (n : Int) (tag : Label) :
    (∃ cause, (a.perform (.request (.int n) tag)).1 = .error cause) ↔ n < 0 := by
  have houtcome := outcome_perform a (.request (.int n) tag)
  generalize a.perform (.request (.int n) tag) = result at houtcome ⊢
  cases houtcome with
  | refused hsize => exact ⟨fun _ => hsize n rfl, fun _ => ⟨_, rfl⟩⟩
  | nothing hsize =>
    -- nothing is asked for, and nothing is refused
    have hzero := hsize n rfl
    simp [hzero]
  | served hpos hsize _ =>
    -- a request for bytes is served
    cases hsize
    simp only [reduceCtorEq, exists_false, false_iff]
    omega

/-- `perform` of a release fails if and only if there is no live block at the offset. -/
private theorem release_fails_iff (a : Arena) (offset : Int) :
    (∃ cause, (a.perform (.release (.int offset))).1 = .error cause) ↔
      ∀ b ∈ a.live, (b.offset : Int) ≠ offset := by
  have houtcome := outcome_perform a (.release (.int offset))
  generalize a.perform (.release (.int offset)) = result at houtcome ⊢
  cases houtcome with
  | missed hoffset => exact ⟨fun _ => hoffset offset rfl, fun _ => ⟨_, rfl⟩⟩
  | @freed _ b _ hlive hoffset _ =>
    -- a block lives at the offset, so it can be given back
    simp only [reduceCtorEq, exists_false, false_iff]
    cases hoffset
    exact fun hne => hne b hlive rfl

/-- After any calls, starting from an `empty` arena: live blocks and free ranges have bytes, are
pairwise disjoint and hold exactly the bytes below the tail; the free ranges are in address order
and no two of them touch; the bytes in use add up; and the tail is the highest end of a range handed
out so far. A request for a negative number of bytes fails, and so does the release of an offset
that is not live; whatever fails leaves the arena as it was. -/
theorem replay_from_empty (alignment : Alignment) (calls : List Call) :
    let (a, ranges) := (empty alignment).replay calls
    (∀ r ∈ a.spans, 0 < r.size) ∧
      a.spans.Pairwise FreeRange.Disjoint ∧
      (∀ byte, byte < a.tail ↔ ∃ r ∈ a.spans, r.holds byte = true) ∧
      a.free.Pairwise (fun r s => r.stop < s.offset) ∧
      a.liveBytes = (a.live.map Block.size).sum ∧
      a.tail = (ranges.map FreeRange.stop).foldr max 0 ∧
      (∀ call cause, (a.perform call).1 = .error cause → (a.perform call).2 = a) ∧
      (∀ (n : Int) (tag : Label),
        (∃ cause, (a.perform (.request (.int n) tag)).1 = .error cause) ↔ n < 0) ∧
      ∀ offset : Int, (∃ cause, (a.perform (.release (.int offset))).1 = .error cause) ↔
        ∀ b ∈ a.live, (b.offset : Int) ≠ offset := by
  obtain ⟨hsound, htail⟩ := (sound_empty alignment).replay calls
  generalize (empty alignment).replay calls = final at hsound htail
  obtain ⟨a, ranges⟩ := final
  exact ⟨hsound.size_pos, hsound.disjoint, hsound.holds_iff, hsound.separated, hsound.liveBytes_eq,
    htail.trans (Nat.zero_max _), fun _ _ => perform_eq_of_error, a.request_fails_iff,
    a.release_fails_iff⟩

end Arena

end TensorGraph
