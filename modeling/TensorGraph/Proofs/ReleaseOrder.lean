import TensorGraph.Proofs.Arena
import TensorGraph.Proofs.Outcome

/-!
# Arenas that forget their history

How an arena came about does not show in it. Separated ranges are determined by the bytes that they
hold (`Separated.eq_of_cover`), and in a sound arena the free ranges hold the bytes below the tail
that are not live. So the live blocks and the tail determine the arena (`Tidy.eq_of_live_perm`),
whatever merging and splitting led to it. It follows that blocks can be given back in any order, and
that giving back a block that was taken from a free range undoes the request.
-/

namespace TensorGraph.Arena

/-! ### Separated ranges are determined by their bytes -/

/-- Ranges with bytes for which `cover` counts no byte are none. -/
private theorem eq_nil_of_cover_eq_zero {ranges : List FreeRange} (hpos : ∀ r ∈ ranges, 0 < r.size)
    (h : ∀ byte, cover ranges byte = 0) : ranges = [] := by
  cases ranges with
  | nil => rfl
  | cons r rest =>
    have hsize := hpos r List.mem_cons_self
    have hbyte := h r.offset
    rw [cover_cons, if_pos (by omega)] at hbyte
    omega

/-- `Separated` ranges that hold all bytes of some range: their first one starts no later, and if it
starts at the same byte, then it ends no earlier. -/
private theorem Separated.head_bounds {r s : FreeRange} {rest : List FreeRange}
    (hsep : Separated (r :: rest)) (hs : 0 < s.size)
    (h : ∀ byte, s.holds byte = true → ∃ t ∈ r :: rest, t.holds byte = true) :
    r.offset ≤ s.offset ∧ (r.offset = s.offset → s.stop ≤ r.stop) := by
  have hlater := (List.pairwise_cons.mp hsep).1
  constructor
  · -- the first byte of s is held, and nothing before r is
    have hfirst : s.holds s.offset = true := by
      rw [FreeRange.holds_iff]
      omega
    obtain ⟨t, ht, hholds⟩ := h s.offset hfirst
    rw [FreeRange.holds_iff] at hholds
    cases List.mem_cons.mp ht with
    | inl heq =>
      rw [heq] at hholds
      exact hholds.1
    | inr hrest =>
      have hlt := hlater t hrest
      simp only [FreeRange.stop] at hlt
      omega
  · intro hstart
    by_contra hbeyond
    -- the byte after r would lie in s, but there is a gap between r and what follows it
    have hnext : s.holds r.stop = true := by
      rw [FreeRange.holds_iff]
      simp only [FreeRange.stop] at hbeyond ⊢
      omega
    obtain ⟨t, ht, hholds⟩ := h r.stop hnext
    rw [FreeRange.holds_iff] at hholds
    cases List.mem_cons.mp ht with
    | inl heq =>
      rw [heq] at hholds
      simp only [FreeRange.stop] at hholds
      omega
    | inr hrest =>
      have hlt := hlater t hrest
      omega

/-- `Separated` ranges with the same `cover` are the same. -/
private theorem Separated.eq_of_cover {free others : List FreeRange} (hfree : Separated free)
    (hothers : Separated others) (hpos : ∀ r ∈ free, 0 < r.size) (hpos' : ∀ s ∈ others, 0 < s.size)
    (h : ∀ byte, cover free byte = cover others byte) : free = others := by
  induction free generalizing others with
  | nil => exact (eq_nil_of_cover_eq_zero hpos' fun byte => (h byte).symm).symm
  | cons r rest ih =>
    cases others with
    | nil => exact eq_nil_of_cover_eq_zero hpos h
    | cons s others =>
      have hheld : ∀ byte,
          (∃ t ∈ r :: rest, t.holds byte = true) ↔ ∃ t ∈ s :: others, t.holds byte = true := by
        intro byte
        rw [← cover_pos_iff, ← cover_pos_iff, h byte]
      -- each of the first ranges is bounded by the other one
      have hr := hfree.head_bounds (hpos' s List.mem_cons_self) fun byte hs =>
        (hheld byte).mpr ⟨s, List.mem_cons_self, hs⟩
      have hs := hothers.head_bounds (hpos r List.mem_cons_self) fun byte hr =>
        (hheld byte).mp ⟨r, List.mem_cons_self, hr⟩
      have hoffset : r.offset = s.offset := by omega
      have hstop : r.stop = s.stop := Nat.le_antisymm (hs.2 hoffset.symm) (hr.2 hoffset)
      have hsize : r.size = s.size := by
        simp only [FreeRange.stop] at hstop
        omega
      obtain rfl : r = s := by
        cases r
        cases s
        simp only at hoffset hsize
        rw [hoffset, hsize]
      -- without the first range, which is the same, the rest still holds the same bytes
      rw [ih (List.pairwise_cons.mp hfree).2 (List.pairwise_cons.mp hothers).2
        (List.forall_mem_cons.mp hpos).2 (List.forall_mem_cons.mp hpos').2]
      intro byte
      have hbyte := h byte
      rw [cover_cons, cover_cons] at hbyte
      omega

/-! ### Live blocks in address order -/

/-- `insertBlock` puts a new block in its place in address order. -/
private theorem ordered_insertBlock {b : Block} {blocks : List Block}
    (h : blocks.Pairwise fun c d => c.offset < d.offset)
    (hnew : ∀ c ∈ blocks, c.offset ≠ b.offset) :
    (insertBlock b blocks).Pairwise fun c d => c.offset < d.offset := by
  induction blocks with
  | nil => exact List.pairwise_singleton _ _
  | cons c rest ih =>
    obtain ⟨hfirst, hrest⟩ := List.pairwise_cons.mp h
    rw [List.forall_mem_cons] at hnew
    rw [insertBlock]
    split
    · -- b comes somewhere after c
      rename_i hlt
      refine List.pairwise_cons.mpr ⟨fun d hd => ?_, ih hrest hnew.2⟩
      cases List.mem_cons.mp ((insertBlock_perm b rest).mem_iff.mp hd) with
      | inl heq => exact heq ▸ hlt
      | inr hold => exact hfirst d hold
    · -- b comes before c, and c before all the others
      have hc := hnew.1
      refine List.pairwise_cons.mpr ⟨?_, h⟩
      rw [List.forall_mem_cons]
      refine ⟨by omega, fun d hd => ?_⟩
      have hd := hfirst d hd
      omega

/-- A sound arena whose live blocks are in address order. -/
structure Tidy (a : Arena) : Prop extends Sound a where
  ordered : a.live.Pairwise fun b c => b.offset < c.offset

private theorem tidy_empty (alignment : Alignment) : (empty alignment).Tidy :=
  ⟨sound_empty alignment, List.Pairwise.nil⟩

/-- `alloc` of a positive number of bytes leaves an arena `Tidy`. -/
theorem Tidy.alloc {a next : Arena} (ha : a.Tidy) {size : Int} {tag : Label} {offset : Nat}
    (hsize : 0 < size) (hok : a.alloc size tag = .ok (offset, next)) : next.Tidy := by
  have hgrants := ha.grants_of_alloc hsize hok
  have hlive : next.live = insertBlock ⟨offset, a.alignment.roundUp size.toNat, tag⟩ a.live := by
    obtain ⟨free, -, rfl⟩ | ⟨-, -, rfl⟩ := alloc_cases hsize hok <;> rfl
  refine ⟨hgrants.sound, ?_⟩
  rw [hlive]
  exact ordered_insertBlock ha.ordered fun c hc => hgrants.offset_ne hc

/-- `release` of a live block strikes it out of the live ones and leaves an arena `Tidy`. -/
theorem Tidy.release {a next : Arena} (ha : a.Tidy) {b : Block} (hb : b ∈ a.live)
    (hok : a.release b.offset = .ok next) :
    next.Tidy ∧ next.live = a.live.filter (·.offset != b.offset) := by
  have hfrees := ha.frees_of_release hb hok
  have hlive : next.live = a.live.filter (·.offset != b.offset) := by
    obtain ⟨c, -, hoffset, rfl⟩ := release_cases hok
    rw [Int.natCast_inj.mp hoffset]
  refine ⟨⟨hfrees.sound, ?_⟩, hlive⟩
  rw [hlive]
  exact ha.ordered.filter _

/-- `perform` leaves an arena `Tidy`, whatever the call. -/
theorem Tidy.perform {a : Arena} (ha : a.Tidy) (c : Call) : (a.perform c).2.Tidy := by
  obtain ⟨hsame, -⟩ | ⟨n, tag, offset, hpos, hok, -⟩ | ⟨b, hb, hok, -⟩ | ⟨alignment, hrealign, -⟩ :=
    a.perform_cases c
  · -- a call that has changed nothing
    rw [hsame]
    exact ha
  · -- a request that was granted
    exact ha.alloc hpos hok
  · -- a block that was given back
    exact (ha.release hb hok).1
  · -- another alignment, which moves nothing
    rw [hrealign]
    exact ⟨⟨ha.size_pos, ha.cover_eq, ha.separated, ha.liveBytes_eq⟩, ha.ordered⟩

theorem Tidy.replay {a : Arena} (ha : a.Tidy) (calls : List Call) : (a.replay calls).1.Tidy := by
  induction calls generalizing a with
  | nil => exact ha
  | cons c rest ih => exact ih (ha.perform c)

/-! ### Arenas are determined by their live blocks -/

/-- In a `Sound` arena the bytes of the free ranges are those below the tail that no live block
holds. -/
private theorem Sound.cover_free {a : Arena} (ha : a.Sound) (byte : Nat) :
    cover a.free byte = (if byte < a.tail then 1 else 0) - cover (a.live.map Block.range) byte := by
  have hcover := ha.cover_eq byte
  rw [spans, cover_append] at hcover
  omega

/-- Two `Tidy` arenas with the same live blocks, the same tail and the same alignment are equal. -/
private theorem Tidy.eq_of_live_perm {a b : Arena} (ha : a.Tidy) (hb : b.Tidy)
    (hperm : a.live.Perm b.live) (htail : a.tail = b.tail)
    (halignment : a.alignment = b.alignment) : a = b := by
  -- the order of the blocks is given by their addresses
  have hlive : a.live = b.live := by
    refine List.Perm.eq_of_pairwise (fun c d _ _ hcd hdc => ?_) ha.ordered hb.ordered hperm
    omega
  -- the free bytes are those that are not live, and separated ranges are given by their bytes
  have hfree : a.free = b.free := by
    refine ha.separated.eq_of_cover hb.separated ha.free_size_pos hb.free_size_pos fun byte => ?_
    rw [ha.cover_free, hb.cover_free, hlive, htail]
  have hbytes : a.liveBytes = b.liveBytes := by rw [ha.liveBytes_eq, hb.liveBytes_eq, hlive]
  cases a
  cases b
  simp only at hlive hfree htail hbytes halignment
  rw [hlive, hfree, htail, hbytes, halignment]

/-! ### Giving back blocks in turn -/

/-- Give back the live blocks at some offsets, one after the other. -/
def releaseAll (a : Arena) : List Nat → Except Error Arena
  | [] => .ok a
  | offset :: rest => do
    let next ← a.release offset
    next.releaseAll rest

/-- In a `Tidy` arena `releaseAll` gives back blocks at distinct offsets. What stays live is every
other block. -/
private theorem Tidy.releaseAll {a : Arena} (ha : a.Tidy) {offsets : List Nat}
    (hnodup : offsets.Nodup) (hlive : ∀ offset ∈ offsets, offset ∈ a.live.map Block.offset) :
    ∃ last, a.releaseAll offsets = .ok last ∧ last.Tidy ∧
      last.live = a.live.filter (fun b => !offsets.contains b.offset) ∧ last.tail = a.tail ∧
      last.alignment = a.alignment := by
  induction offsets generalizing a with
  | nil => exact ⟨a, rfl, ha, by simp, rfl, rfl⟩
  | cons offset rest ih =>
    rw [List.nodup_cons] at hnodup
    rw [List.forall_mem_cons] at hlive
    obtain ⟨b, hb, rfl⟩ := List.mem_map.mp hlive.1
    obtain ⟨next, hok, hfrees⟩ := ha.release_frees hb
    obtain ⟨hnext, hnextLive⟩ := ha.release hb hok
    -- the other offsets are those of blocks that are still live
    have hrest : ∀ offset ∈ rest, offset ∈ next.live.map Block.offset := by
      intro offset hoffset
      obtain ⟨c, hc, rfl⟩ := List.mem_map.mp (hlive.2 offset hoffset)
      have hne : c.offset ≠ b.offset := fun heq => hnodup.1 (heq ▸ hoffset)
      rw [hnextLive]
      exact List.mem_map_of_mem (List.mem_filter.mpr ⟨hc, by simpa using hne⟩)
    obtain ⟨last, hlast, htidy, hlastLive, htail, halignment⟩ := ih hnext hnodup.2 hrest
    refine ⟨last, ?_, htidy, ?_, htail.trans hfrees.tail_eq,
      halignment.trans hfrees.alignment_eq⟩
    · rw [Arena.releaseAll, hok]
      exact hlast
    · rw [hlastLive, hnextLive, List.filter_filter]
      refine List.filter_congr fun c _ => ?_
      simp only [List.contains_cons, Bool.not_or, bne, Bool.and_comm]

/-- `releaseAll` in any order ends with the same arena. -/
private theorem Tidy.releaseAll_perm {a : Arena} (ha : a.Tidy) {offsets others : List Nat}
    (hnodup : offsets.Nodup) (hlive : ∀ offset ∈ offsets, offset ∈ a.live.map Block.offset)
    (hperm : offsets.Perm others) :
    ∃ last, a.releaseAll offsets = .ok last ∧ a.releaseAll others = .ok last := by
  obtain ⟨last, hok, htidy, hlastLive, htail, halignment⟩ := ha.releaseAll hnodup hlive
  obtain ⟨last', hok', htidy', hlastLive', htail', halignment'⟩ :=
    ha.releaseAll (hperm.nodup hnodup) fun offset hoffset =>
      hlive offset (hperm.mem_iff.mpr hoffset)
  -- the same blocks are left, and these determine the arena
  have hsame : last.live = last'.live := by
    rw [hlastLive, hlastLive']
    refine List.filter_congr fun c _ => ?_
    rw [hperm.contains_eq]
  have heq := htidy.eq_of_live_perm htidy' (hsame ▸ List.Perm.refl _) (htail.trans htail'.symm)
    (halignment.trans halignment'.symm)
  exact ⟨last, hok, heq ▸ hok'⟩

/-! ### Undoing a request -/

/-- If `alloc` in a `Sound` arena gives the start of a free range, it was asked for a positive
number of bytes, and the tail stays. -/
private theorem Sound.served_from_free {a next : Arena} (ha : a.Sound) {size : Int} {tag : Label}
    {offset : Nat} (hok : a.alloc size tag = .ok (offset, next))
    (hfree : offset ∈ a.free.map FreeRange.offset) :
    0 < size ∧ next.tail = a.tail := by
  obtain ⟨r, hr, hstart⟩ := List.mem_map.mp hfree
  have hsize := ha.free_size_pos r hr
  have hstop := ha.free_stop_le_tail hr
  simp only [FreeRange.stop] at hstop
  have hpos : 0 < size := by
    by_contra hnot
    -- a request for nothing is given the tail, and no free range starts there
    obtain ⟨-, htail, -⟩ := eq_of_alloc_not_pos hnot hok
    omega
  refine ⟨hpos, ?_⟩
  obtain ⟨free, -, rfl⟩ | ⟨-, hoffset, -⟩ := alloc_cases hpos hok
  · rfl
  · -- no free range starts at the tail rounded up
    have hle := a.alignment.le_roundUp a.tail
    omega

/-- `release` of a block that `alloc` has taken from a free range leads back to the arena before. -/
private theorem Tidy.release_of_alloc {a next : Arena} (ha : a.Tidy) {size : Int} {tag : Label}
    {offset : Nat} (hok : a.alloc size tag = .ok (offset, next))
    (hfree : offset ∈ a.free.map FreeRange.offset) :
    next.release offset = .ok a := by
  obtain ⟨hsize, htail⟩ := ha.served_from_free hok hfree
  have hgrants := ha.grants_of_alloc hsize hok
  have hnext := ha.alloc hsize hok
  have hb := hgrants.live_perm.mem_iff.mpr List.mem_cons_self
  obtain ⟨last, hrelease, hfrees⟩ := hnext.release_frees hb
  have hlast := (hnext.release hb hrelease).1
  -- what is live in the end was live before
  have hlive : last.live.Perm a.live := (hfrees.live_perm.symm.trans hgrants.live_perm).cons_inv
  have heq := hlast.eq_of_live_perm ha hlive (hfrees.tail_eq.trans htail)
    (hfrees.alignment_eq.trans hgrants.alignment_eq)
  exact heq ▸ hrelease

/-- After any calls, `releaseAll` gives back distinct live blocks in any order, and every order ends
with the same arena: the same live blocks, free ranges, tail and bytes in use. A request that is
served from a free range is undone by the `release` of the block that it was given. -/
theorem release_order_irrelevant (alignment : Alignment) (calls : List Call) :
    let a := ((empty alignment).replay calls).1
    (∀ offsets others : List Nat, offsets.Nodup →
      (∀ offset ∈ offsets, offset ∈ a.live.map Block.offset) → offsets.Perm others →
      ∃ last, a.releaseAll offsets = .ok last ∧ a.releaseAll others = .ok last) ∧
    ∀ (size : Int) (tag : Label) (offset : Nat) (next : Arena),
      a.alloc size tag = .ok (offset, next) → offset ∈ a.free.map FreeRange.offset →
      next.release offset = .ok a := by
  intro a
  have ha : a.Tidy := (tidy_empty alignment).replay calls
  constructor
  · intro offsets others hnodup hlive hperm
    exact ha.releaseAll_perm hnodup hlive hperm
  · intro size tag offset next hok hfree
    exact ha.release_of_alloc hok hfree

/-- Four requests, and the release of the second block. -/
def gapped : List Call :=
  [.request (.int 16) (.str "a"), .request (.int 16) (.str "b"), .request (.int 16) (.str "c"),
    .request (.int 16) (.str "d"), .release (.int 16)]

/-- After the calls of `gapped`, the blocks beside the gap are given back in two orders, and bytes
are taken from the gap and given back. -/
theorem release_order_irrelevant_gapped :
    let a := ((empty .one).replay gapped).1
    (∃ last, a.releaseAll [0, 48, 32] = .ok last ∧ a.releaseAll [32, 0, 48] = .ok last) ∧
    ∃ next, a.alloc 8 (.str "e") = .ok (16, next) ∧ next.release 16 = .ok a := by
  intro a
  obtain ⟨hany, hundo⟩ := release_order_irrelevant .one gapped
  refine ⟨hany [0, 48, 32] [32, 0, 48] (by decide) (by decide) (by decide), ?_⟩
  have hok : ∃ next, ((empty .one).replay gapped).1.alloc 8 (.str "e") = .ok (16, next) := ⟨_, rfl⟩
  obtain ⟨next, hok⟩ := hok
  exact ⟨next, hok, hundo 8 (.str "e") 16 next hok (by decide)⟩

end TensorGraph.Arena
