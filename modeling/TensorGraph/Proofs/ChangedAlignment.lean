import TensorGraph.Proofs.AlignedArena

/-!
# Arenas whose alignment changes

A request rounds its size to the alignment in force, and the tail too if the block goes there. The
start of a free range it takes as it is. Free ranges come from blocks and gaps of earlier requests,
so they lie on the grid of the smallest alignment under which bytes were granted (`OnGrid.replay`).
An alignment is a power of two and so divides every greater one (`Alignment.dvd_of_le`): a request
keeps the alignment in force if no bytes were granted under a smaller one before. Otherwise only the
tail is sure to be on the new grid.
-/

namespace TensorGraph

namespace Alignment

/-- An `Alignment` divides every other one that is not smaller, as both are powers of two. -/
private theorem dvd_of_le {a b : Alignment} (h : a.bytes ≤ b.bytes) : a.bytes ∣ b.bytes := by
  obtain ⟨j, hj⟩ := a.exists_two_pow
  obtain ⟨k, hk⟩ := b.exists_two_pow
  rw [hj, hk] at h ⊢
  exact Nat.pow_dvd_pow 2 ((Nat.pow_le_pow_iff_right (by decide)).mp h)

end Alignment

namespace Arena

/-- The alignments under which calls got a range, in turn. -/
def grantedUnder (a : Arena) : List Call → List Alignment
  | [] => []
  | c :: rest =>
    let others := (a.perform c).2.grantedUnder rest
    if (a.granted? c).isSome then a.alignment :: others else others

/-- `perform` leaves an arena `OnGrid` if the call gets no range, or gets it under a multiple of the
grid width. -/
theorem OnGrid.perform {d : Nat} {a : Arena} (hgrid : a.OnGrid d) {c : Call}
    (hd : (a.granted? c).isSome = true → d ∣ a.alignment.bytes) : (a.perform c).2.OnGrid d := by
  obtain ⟨hsame, -⟩ | ⟨n, tag, offset, hpos, hok, hgranted⟩ | ⟨b, -, hok, -⟩ |
    ⟨alignment, hrealign, -⟩ := a.perform_cases c
  · -- a call that has changed nothing
    rw [hsame]
    exact hgrid
  · -- a request that was granted, at an offset on the grid
    exact (hgrid.alloc (hd (by rw [hgranted]; rfl)) hpos hok).1
  · -- a block that was given back
    exact hgrid.release hok
  · rw [hrealign]
    -- another alignment, which moves nothing
    exact ⟨hgrid.tail, hgrid.live, hgrid.free⟩

/-- `replay` leaves an arena `OnGrid` as long as all bytes are granted under multiples of the grid
width. -/
theorem OnGrid.replay {d : Nat} {a : Arena} (hgrid : a.OnGrid d) {calls : List Call}
    (hd : ∀ earlier ∈ a.grantedUnder calls, d ∣ earlier.bytes) : (a.replay calls).1.OnGrid d := by
  induction calls generalizing a with
  | nil => exact hgrid
  | cons c rest ih =>
    rw [grantedUnder] at hd
    -- only the alignments that something was granted under count
    by_cases hgranted : (a.granted? c).isSome = true
    · rw [if_pos hgranted, List.forall_mem_cons] at hd
      exact ih (hgrid.perform fun _ => hd.1) hd.2
    · rw [if_neg hgranted] at hd
      exact ih (hgrid.perform fun h => absurd h hgranted) hd

/-- After any calls, `alloc` grants a request for a positive number of bytes a block whose size is a
multiple of the alignment in force. So is its offset if it is served at the tail. In any case the
offset is a multiple of every alignment that is no greater than the one in force and than those
under which bytes were granted before (`grantedUnder`). -/
theorem alloc_keeps_alignment (alignment : Alignment) (calls : List Call) {size : Int}
    (hsize : 0 < size) (tag : Label) :
    let a := ((empty alignment).replay calls).1
    ∃ offset next b, a.alloc size tag = .ok (offset, next) ∧ b ∈ next.live ∧ b.offset = offset ∧
      size ≤ b.size ∧ a.alignment.bytes ∣ b.size ∧
      (a.tail ≤ offset → a.alignment.bytes ∣ offset) ∧
      ∀ least : Alignment, least.bytes ≤ a.alignment.bytes →
        (∀ earlier ∈ (empty alignment).grantedUnder calls, least.bytes ≤ earlier.bytes) →
        least.bytes ∣ offset := by
  intro a
  have hempty := sound_empty alignment
  have ha : a.Sound := (hempty.replay calls).1
  obtain ⟨offset, next, hok, hgrants⟩ := ha.alloc_grants hsize tag
  have hle := a.alignment.le_roundUp size.toNat
  refine ⟨offset, next, _, hok, hgrants.live_perm.mem_iff.mpr List.mem_cons_self, rfl, ?_,
    a.alignment.dvd_roundUp _, fun htail => ?_, fun least hleast hearlier => ?_⟩
  · show size ≤ (a.alignment.roundUp size.toNat : Int)
    omega
  · obtain ⟨free, htake, rfl⟩ | ⟨-, hstart, -⟩ := alloc_cases hsize hok
    · -- bytes of a free range end at the tail or before it
      have hstop := ha.le_tail_of_alloc hok
      have hnext := hstop.2 hsize
      exact absurd hnext (by show ¬ _ ≤ a.tail; omega)
    · rw [hstart]
      exact a.alignment.dvd_roundUp _
  · -- an empty arena lies on every grid, and all that was granted since kept to this one
    have hgrid : a.OnGrid least.bytes :=
      OnGrid.replay ⟨Nat.dvd_zero _, List.forall_mem_nil _, List.forall_mem_nil _⟩
        fun earlier hmem => Alignment.dvd_of_le (hearlier earlier hmem)
    exact (hgrid.alloc (Alignment.dvd_of_le hleast) hsize hok).2

/-- The alignment to words of four bytes. -/
def quad : Alignment := ⟨4, by decide, .int 4⟩

/-- Requests under a new alignment, and the release of the second block. -/
def realigned : List Call :=
  [.realign quad, .request (.int 3) (.str "a"), .request (.int 5) (.str "b"),
    .request (.int 1) (.str "c"), .release (.int 4)]

/-- Nothing was granted before the change in `realigned`, so the new alignment is kept. -/
theorem alloc_keeps_alignment_realigned :
    let a := ((empty .one).replay realigned).1
    ∃ offset next b, a.alloc 6 (.str "d") = .ok (offset, next) ∧ b ∈ next.live ∧ b.offset = offset ∧
      6 ≤ b.size ∧ quad.bytes ∣ b.size ∧ quad.bytes ∣ offset := by
  intro a
  obtain ⟨offset, next, b, hok, hb, hoffset, hsize, hdvd, -, hleast⟩ :=
    alloc_keeps_alignment .one realigned (by decide : (0 : Int) < 6) (.str "d")
  refine ⟨offset, next, b, hok, hb, hoffset, by omega, hdvd, ?_⟩
  exact hleast quad (by decide) (by decide)

/-- Requests that pack bytes densely, the release of the second block, and a new alignment. -/
def packed : List Call :=
  [.request (.int 3) (.str "a"), .request (.int 4) (.str "b"), .release (.int 3), .realign quad]

/-- The block at byte 3 was granted when bytes were `packed`. Its place is given to a request that
comes after the change, and then the new alignment is missed. -/
theorem alloc_misses_alignment :
    let a := ((empty .one).replay packed).1
    a.alignment = quad ∧
      ∃ offset next, a.alloc 4 (.str "c") = .ok (offset, next) ∧ ¬ quad.bytes ∣ offset :=
  ⟨rfl, 3, _, rfl, by decide⟩

end Arena

end TensorGraph
