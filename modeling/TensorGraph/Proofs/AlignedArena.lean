import TensorGraph.Proofs.Arena
import TensorGraph.Proofs.Lists

/-!
# Arenas on a grid

As long as every alignment is a multiple of some number, an arena keeps its ranges on a grid: the
offsets and the sizes of all ranges are multiples of that number, and so is the tail (`OnGrid`).
While its alignment stays the same, it keeps them on the grid of the alignment itself (`Aligned`).
New space then starts at the tail itself, and a request moves the tail by its rounded size at most
(`Aligned.alloc`). Counted range by range, the live blocks have no more bytes than there are below
the tail (`Sound.sum_size_le_tail`).
-/

namespace TensorGraph

/-! ### Rounding -/

namespace Alignment

theorem dvd_roundUp (a : Alignment) (n : Nat) : a.bytes ∣ a.roundUp n := by
  rw [roundUp_eq]
  exact Nat.dvd_mul_left _ _

/-- No multiple of the alignment lies between a number and its `roundUp`. -/
theorem roundUp_le {a : Alignment} {n m : Nat} (hle : n ≤ m) (hm : a.bytes ∣ m) :
    a.roundUp n ≤ m := by
  obtain ⟨k, rfl⟩ := hm
  have hpos := a.isPowerOfTwo.1
  have hquotient : (n + a.bytes - 1) / a.bytes < k + 1 := by
    rw [Nat.div_lt_iff_lt_mul hpos, Nat.add_mul, Nat.mul_comm k]
    omega
  rw [roundUp_eq, Nat.mul_comm]
  exact Nat.mul_le_mul_left _ (Nat.lt_succ_iff.mp hquotient)

private theorem roundUp_eq_self {a : Alignment} {n : Nat} (h : a.bytes ∣ n) : a.roundUp n = n :=
  Nat.le_antisymm (roundUp_le (Nat.le_refl n) h) (a.le_roundUp n)

@[simp] theorem roundUp_zero (a : Alignment) : a.roundUp 0 = 0 := roundUp_eq_self (Nat.dvd_zero _)

end Alignment

/-! ### Ranges on a grid -/

/-- A range that starts and ends at multiples of a number. -/
def FreeRange.OnGrid (d : Nat) (r : FreeRange) : Prop := d ∣ r.offset ∧ d ∣ r.size

namespace Arena

/-- `takeFit` of a multiple of the grid width leaves the free ranges `OnGrid`. -/
private theorem onGrid_takeFit {d need offset : Nat} {free rest : List FreeRange}
    (h : takeFit need free = some (offset, rest)) (hneed : d ∣ need)
    (hgrid : ∀ r ∈ free, r.OnGrid d) : d ∣ offset ∧ ∀ r ∈ rest, r.OnGrid d := by
  obtain ⟨before, r, after, rfl, rfl, -, -, rfl⟩ := exists_of_takeFit h
  have hr := hgrid r (by simp)
  -- the ranges that were not chosen stay as they are
  have hothers : ∀ s ∈ before ++ after, s.OnGrid d := by
    intro s hs
    simp only [List.mem_append] at hs
    exact hgrid s (by simp [hs.elim Or.inl (Or.inr ∘ Or.inr)])
  refine ⟨hr.1, fun s hs => ?_⟩
  split at hs
  · cases List.mem_cons.mp ((insertRange_perm _ _).mem_iff.mp hs) with
    | inl hleft => exact hleft ▸ ⟨Nat.dvd_add hr.1 hneed, Nat.dvd_sub hr.2 hneed⟩
    | inr hother => exact hothers s hother
  · exact hothers s hs

/-- `giveBack` leaves the free ranges `OnGrid`, merged or not. -/
private theorem onGrid_giveBack {d : Nat} {r : FreeRange} {free : List FreeRange}
    (hgrid : ∀ s ∈ r :: free, s.OnGrid d) : ∀ s ∈ giveBack r free, s.OnGrid d :=
  forall_mem_giveBack (fun _ _ hr hs => ⟨hr.1, Nat.dvd_add hr.2 hs.2⟩) hgrid

/-- The tail of an arena and all its ranges lie on a grid. -/
structure OnGrid (d : Nat) (a : Arena) : Prop where
  tail : d ∣ a.tail
  live : ∀ b ∈ a.live, b.range.OnGrid d
  free : ∀ r ∈ a.free, r.OnGrid d

/-- `record` leaves an arena `OnGrid` if the block is so. -/
theorem OnGrid.record {d : Nat} {a : Arena} {b : Block} (ha : a.OnGrid d) (hb : b.range.OnGrid d) :
    (a.record b).OnGrid d := by
  refine ⟨ha.tail, fun c hc => ?_, ha.free⟩
  cases List.mem_cons.mp ((insertBlock_perm b a.live).mem_iff.mp hc) with
  | inl hnew => exact hnew ▸ hb
  | inr hold => exact ha.live c hold

/-- `alloc` under an alignment that is a multiple of the grid width serves a request `OnGrid`. -/
theorem OnGrid.alloc {d : Nat} {a next : Arena} {size : Int} {tag : Label} {offset : Nat}
    (ha : a.OnGrid d) (hd : d ∣ a.alignment.bytes) (hsize : 0 < size)
    (hok : a.alloc size tag = .ok (offset, next)) : next.OnGrid d ∧ d ∣ offset := by
  have hneed : d ∣ a.alignment.roundUp size.toNat := Nat.dvd_trans hd (a.alignment.dvd_roundUp _)
  obtain ⟨free, htake, rfl⟩ | ⟨-, hstart, rfl⟩ := alloc_cases hsize hok
  · -- the block starts where a free range did
    obtain ⟨hoffset, hfree⟩ := onGrid_takeFit htake hneed ha.free
    have hbase : ({ a with free := free } : Arena).OnGrid d := ⟨ha.tail, ha.live, hfree⟩
    exact ⟨hbase.record ⟨hoffset, hneed⟩, hoffset⟩
  · -- the gap that rounding leaves behind the tail starts and ends on the grid
    have hoffset : d ∣ offset := hstart ▸ Nat.dvd_trans hd (a.alignment.dvd_roundUp _)
    refine ⟨OnGrid.record ⟨Nat.dvd_add hoffset hneed, ha.live, ?_⟩ ⟨hoffset, hneed⟩, hoffset⟩
    dsimp only
    split
    · exact onGrid_giveBack
        (List.forall_mem_cons.mpr ⟨⟨ha.tail, Nat.dvd_sub hoffset ha.tail⟩, ha.free⟩)
    · exact ha.free

/-- `release` leaves an arena `OnGrid`. -/
theorem OnGrid.release {d : Nat} {a next : Arena} {offset : Int} (ha : a.OnGrid d)
    (hok : a.release offset = .ok next) : next.OnGrid d := by
  obtain ⟨b, hb, -, rfl⟩ := release_cases hok
  refine ⟨ha.tail, fun c hc => ha.live c (List.mem_of_mem_filter hc), ?_⟩
  exact onGrid_giveBack (List.forall_mem_cons.mpr ⟨ha.live b hb, ha.free⟩)

/-- The tail of an arena and all its ranges lie on the grid of its alignment. -/
def Aligned (a : Arena) : Prop := a.OnGrid a.alignment.bytes

theorem aligned_empty (alignment : Alignment) : (empty alignment).Aligned :=
  ⟨Nat.dvd_zero _, List.forall_mem_nil _, List.forall_mem_nil _⟩

/-- What a request does in an aligned arena: it is served on the grid, and the tail grows by at most
the bytes asked for. Without free ranges it grows by just as many, and there are none afterwards. -/
structure Serves (a : Arena) (need offset : Nat) (next : Arena) : Prop where
  aligned : next.Aligned
  alignment_eq : next.alignment = a.alignment
  offset_dvd : a.alignment.bytes ∣ offset
  tail_le : next.tail ≤ a.tail + need
  extends_tail : a.free = [] → next.free = [] ∧ next.tail = a.tail + need

/-- What `alloc` does in an `Aligned` arena, if it succeeds: it `Serves` the rounded size. -/
theorem Aligned.alloc {a next : Arena} {size : Int} {tag : Label} {offset : Nat} (ha : a.Aligned)
    (hok : a.alloc size tag = .ok (offset, next)) :
    a.Serves (a.alignment.roundUp size.toNat) offset next := by
  by_cases hsize : 0 < size
  · obtain ⟨hgrid, hoffset⟩ := OnGrid.alloc ha (Nat.dvd_refl _) hsize hok
    obtain ⟨free, htake, rfl⟩ | ⟨-, hstart, rfl⟩ := alloc_cases hsize hok
    · -- the block takes the front of a free range, and the tail stays
      refine ⟨hgrid, rfl, hoffset, Nat.le_add_right _ _, fun hnone => ?_⟩
      rw [hnone] at htake
      cases htake
    · -- the tail is on the grid already, so the block starts there and no gap is left
      rw [Alignment.roundUp_eq_self ha.tail] at hstart
      refine ⟨hgrid, rfl, hoffset, ?_, fun hfree => ⟨?_, ?_⟩⟩
      · show offset + _ ≤ a.tail + _
        omega
      · show (if a.tail < offset then _ else a.free) = []
        rw [if_neg (by omega), hfree]
      · show offset + _ = a.tail + _
        rw [hstart]
  · -- nothing is asked for, and nothing changes
    obtain ⟨hzero, rfl, rfl⟩ := eq_of_alloc_not_pos hsize hok
    rw [hzero, Int.toNat_zero, Alignment.roundUp_zero]
    exact ⟨ha, rfl, ha.tail, Nat.le_refl _, fun hfree => ⟨hfree, rfl⟩⟩

/-- `release` leaves an arena `Aligned`, with the same tail. -/
theorem Aligned.release {a next : Arena} {offset : Int} (ha : a.Aligned)
    (hok : a.release offset = .ok next) :
    next.Aligned ∧ next.alignment = a.alignment ∧ next.tail = a.tail := by
  have hgrid := OnGrid.release ha hok
  obtain ⟨b, -, -, rfl⟩ := release_cases hok
  exact ⟨hgrid, rfl, rfl⟩

/-- `alloc` never lowers the tail of a `Sound` arena, and a block ends there or before. -/
theorem Sound.le_tail_of_alloc {a next : Arena} {size : Int} {tag : Label} {offset : Nat}
    (ha : a.Sound) (hok : a.alloc size tag = .ok (offset, next)) :
    a.tail ≤ next.tail ∧
      (0 < size → offset + a.alignment.roundUp size.toNat ≤ next.tail) := by
  by_cases hsize : 0 < size
  · have htail : next.tail = max a.tail (offset + a.alignment.roundUp size.toNat) :=
      (ha.grants_of_alloc hsize hok).tail_eq
    exact ⟨by omega, fun _ => by omega⟩
  · -- a request for nothing leaves the arena as it is
    obtain ⟨-, -, rfl⟩ := eq_of_alloc_not_pos hsize hok
    exact ⟨Nat.le_refl _, fun hpos => absurd hpos hsize⟩

/-! ### Bytes in ranges -/

/-- The number of bytes of a range below a limit. -/
def bytesBelow (limit : Nat) (r : FreeRange) : Nat := min r.stop limit - min r.offset limit

/-- `bytesBelow` counts one byte more for each range that holds the byte at the limit. -/
private theorem sum_bytesBelow_succ (limit : Nat) (ranges : List FreeRange) :
    (ranges.map (bytesBelow (limit + 1))).sum =
      (ranges.map (bytesBelow limit)).sum + cover ranges limit := by
  induction ranges with
  | nil => rfl
  | cons r rest ih =>
    rw [List.map_cons, List.map_cons, List.sum_cons, List.sum_cons, ih, cover_cons]
    simp only [bytesBelow, FreeRange.stop]
    split <;> omega

/-- The ranges of a `Sound` arena have as many `bytesBelow` a limit as there are below the limit and
the tail. -/
private theorem Sound.sum_bytesBelow {a : Arena} (ha : a.Sound) (limit : Nat) :
    (a.spans.map (bytesBelow limit)).sum = min limit a.tail := by
  induction limit with
  | zero =>
    rw [Nat.zero_min]
    exact List.sum_eq_zero fun n hn => by simp_all [bytesBelow]
  | succ limit ih =>
    -- the next byte lies in one range below the tail, and in none from there on
    rw [sum_bytesBelow_succ, ih, ha.cover_eq]
    split <;> omega

/-- The live blocks of a `Sound` arena have no more bytes than there are below its tail. -/
theorem Sound.sum_size_le_tail {a : Arena} (ha : a.Sound) :
    (a.live.map Block.size).sum ≤ a.tail := by
  have hsum := ha.sum_bytesBelow a.tail
  rw [spans, List.map_append, List.sum_append, List.map_map, Nat.min_self] at hsum
  -- no block reaches past the tail, so none is cut off there
  have hwhole : a.live.map Block.size = a.live.map (bytesBelow a.tail ∘ Block.range) := by
    refine List.map_congr_left fun b hb => ?_
    have hstop := ha.stop_le_tail (List.mem_append_left _ (List.mem_map_of_mem hb))
    simp only [Function.comp_apply, bytesBelow, Block.range, FreeRange.stop] at hstop ⊢
    omega
  rw [hwhole]
  omega

end Arena

end TensorGraph
