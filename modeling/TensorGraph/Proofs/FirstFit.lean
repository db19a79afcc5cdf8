import Mathlib.Order.Bounds.Defs
import TensorGraph.Proofs.Arena

/-!
# First fit, told by the live blocks

An arena looks for space in its free ranges and never at its live blocks. Where there is room can be
said without the free ranges: a range is vacant if it ends at the tail or before it and meets no
live block. In a sound arena both say the same (`Sound.vacant_iff`), as vacant bytes that follow
each other lie in one free range: two free ranges never touch. So the first free range that is large
enough starts at the lowest offset with enough vacant bytes (`Sound.isLeast_of_takeFit`).
-/

namespace TensorGraph.Arena

/-! ### Vacant ranges -/

/-- A range below the tail that meets no live block. -/
def Vacant (a : Arena) (r : FreeRange) : Prop :=
  r.stop ≤ a.tail ∧ ∀ b ∈ a.live, r.Disjoint b.range

/-- Of two `Separated` ranges one ends before the other starts. -/
private theorem Separated.eq_or_lt {free : List FreeRange} (h : Separated free) {r s : FreeRange}
    (hr : r ∈ free) (hs : s ∈ free) : r = s ∨ r.stop < s.offset ∨ s.stop < r.offset := by
  induction free with
  | nil => cases hr
  | cons first rest ih =>
    -- ranges stand in order with gaps between them
    obtain ⟨hfirst, hrest⟩ := List.pairwise_cons.mp h
    cases List.mem_cons.mp hr with
    | inl hrfirst =>
      cases List.mem_cons.mp hs with
      | inl hsfirst => exact Or.inl (hrfirst.trans hsfirst.symm)
      | inr hsrest => exact Or.inr (Or.inl (hrfirst ▸ hfirst s hsrest))
    | inr hrrest =>
      cases List.mem_cons.mp hs with
      | inl hsfirst => exact Or.inr (Or.inr (hsfirst ▸ hfirst r hrrest))
      | inr hsrest => exact ih hrest hrrest hsrest

/-- A `Vacant` byte of a `Sound` arena lies in a free range. -/
private theorem Sound.exists_free_of_vacant {a : Arena} (ha : a.Sound) {r : FreeRange}
    (hr : a.Vacant r) {byte : Nat} (hbyte : r.holds byte = true) :
    ∃ s ∈ a.free, s.holds byte = true := by
  rw [FreeRange.holds_iff] at hbyte
  have htail := hr.1
  simp only [FreeRange.stop] at htail
  obtain ⟨s, hs, hholds⟩ := (ha.holds_iff byte).mp (by omega)
  cases List.mem_append.mp hs with
  | inr hfree => exact ⟨s, hfree, hholds⟩
  | inl hlive =>
    -- a live block that holds the byte would meet r
    obtain ⟨b, hb, rfl⟩ := List.mem_map.mp hlive
    have hdisjoint := hr.2 b hb
    rw [FreeRange.holds_iff] at hholds
    simp only [FreeRange.Disjoint, FreeRange.stop] at hdisjoint
    omega

/-- In a `Sound` arena a range is `Vacant` exactly if it lies in one free range. -/
private theorem Sound.vacant_iff {a : Arena} (ha : a.Sound) {r : FreeRange} (hr : 0 < r.size) :
    a.Vacant r ↔ ∃ s ∈ a.free, s.offset ≤ r.offset ∧ r.stop ≤ s.stop := by
  constructor
  · intro hvacant
    -- the free range that holds the first byte is the one
    have hfirst : r.holds r.offset = true := by
      rw [FreeRange.holds_iff]
      omega
    obtain ⟨s, hs, hstart⟩ := ha.exists_free_of_vacant hvacant hfirst
    rw [FreeRange.holds_iff] at hstart
    refine ⟨s, hs, hstart.1, ?_⟩
    by_contra hbeyond
    simp only [FreeRange.stop] at hbeyond
    -- the byte after s would be vacant too, and the free range that holds it would touch s
    have hnext : r.holds s.stop = true := by
      rw [FreeRange.holds_iff, FreeRange.stop]
      omega
    obtain ⟨t, ht, htouch⟩ := ha.exists_free_of_vacant hvacant hnext
    rw [FreeRange.holds_iff] at htouch
    obtain rfl | happart := ha.separated.eq_or_lt hs ht
    · simp only [FreeRange.stop] at htouch
      omega
    · simp only [FreeRange.stop] at htouch happart
      omega
  · intro hinside
    obtain ⟨s, hs, hstart, hstop⟩ := hinside
    -- what lies in a free range meets no block, as the free range does not
    refine ⟨Nat.le_trans hstop (ha.free_stop_le_tail hs), fun b hb => ?_⟩
    have hdisjoint := ha.live_disjoint_free hb hs
    simp only [FreeRange.Disjoint, FreeRange.stop] at hdisjoint hstop ⊢
    omega

/-! ### Where a request is served -/

/-- The range that `takeFit` finds starts at the lowest offset with enough `Vacant` bytes. -/
private theorem Sound.isLeast_of_takeFit {a : Arena} (ha : a.Sound) {need offset : Nat}
    {rest : List FreeRange} (hneed : 0 < need) (h : takeFit need a.free = some (offset, rest)) :
    IsLeast {o | a.Vacant ⟨o, need⟩} offset := by
  obtain ⟨before, r, after, hfree, rfl, hfits, hbefore, -⟩ := exists_of_takeFit h
  constructor
  · -- the range that was found has room for the bytes
    refine (ha.vacant_iff hneed).mpr ⟨r, by simp [hfree], Nat.le_refl _, ?_⟩
    simp only [FreeRange.stop]
    omega
  · intro o ho
    obtain ⟨s, hs, hstart, hstop⟩ := (ha.vacant_iff hneed).mp ho
    simp only [FreeRange.stop] at hstart hstop
    -- s has room for the bytes, so it is none of the ranges that were passed over
    have hlater : s ∈ r :: after := by
      rw [hfree, List.mem_append] at hs
      refine hs.resolve_left fun hpassed => ?_
      have hsmall := hbefore s hpassed
      omega
    -- the ranges that come after it start after it
    have hsep := ha.separated
    rw [hfree] at hsep
    have hnext := (List.pairwise_cons.mp (List.pairwise_append.mp hsep).2.1).1
    cases List.mem_cons.mp hlater with
    | inl heq => exact heq ▸ hstart
    | inr hafter =>
      have hlt := hnext s hafter
      simp only [FreeRange.stop] at hlt
      omega

/-- If `takeFit` finds nothing, then there is nowhere enough `Vacant` room. -/
private theorem Sound.not_vacant_of_takeFit_eq_none {a : Arena} (ha : a.Sound) {need : Nat}
    (hneed : 0 < need) (h : takeFit need a.free = none) (o : Nat) : ¬ a.Vacant ⟨o, need⟩ := by
  intro hvacant
  obtain ⟨s, hs, hstart, hstop⟩ := (ha.vacant_iff hneed).mp hvacant
  have hsmall := size_lt_of_takeFit_eq_none h s hs
  simp only [FreeRange.stop] at hstart hstop
  omega

/-- After any calls, `alloc` grants a request for a positive number of bytes. The block starts at
the lowest offset from which enough bytes are `Vacant`, that is below the tail and outside of all
live blocks, and then the tail stays; if there is no such offset, it starts at the tail rounded up,
and then the tail is the end of the block. Either way the block comes to the live ones and nothing
else does. -/
theorem alloc_takes_lowest_vacancy (alignment : Alignment) (calls : List Call) {size : Int}
    (hsize : 0 < size) (tag : Label) :
    let a := ((empty alignment).replay calls).1
    let need := a.alignment.roundUp size.toNat
    ∃ offset next, a.alloc size tag = .ok (offset, next) ∧
      next.live.Perm (⟨offset, need, tag⟩ :: a.live) ∧
      (IsLeast {o | a.Vacant ⟨o, need⟩} offset ∧ next.tail = a.tail ∨
        (∀ o, ¬ a.Vacant ⟨o, need⟩) ∧ offset = a.alignment.roundUp a.tail ∧
          next.tail = offset + need) := by
  intro a need
  -- whatever the calls were, the arena is sound
  have ha : a.Sound := ((sound_empty alignment).replay calls).1
  have hle : size.toNat ≤ need := a.alignment.le_roundUp size.toNat
  have hneed : 0 < need := by omega
  obtain ⟨offset, next, hok, hgrants⟩ := ha.alloc_grants hsize tag
  refine ⟨offset, next, hok, hgrants.live_perm, ?_⟩
  obtain ⟨free, htake, rfl⟩ | ⟨htake, hoffset, rfl⟩ := alloc_cases hsize hok
  · -- the lowest range that is large enough begins at the lowest vacancy
    exact Or.inl ⟨ha.isLeast_of_takeFit hneed htake, rfl⟩
  · -- no range is large enough, so there is no vacancy below the tail
    exact Or.inr ⟨ha.not_vacant_of_takeFit_eq_none hneed htake, hoffset, rfl⟩

/-- Three requests, and the release of the first and the last block. -/
def punctured : List Call :=
  [.request (.int 256) (.str "a"), .request (.int 128) (.str "b"), .request (.int 64) (.str "c"),
    .release (.int 384), .release (.int 0)]

/-- After the calls of `punctured`, room for 100 bytes is first found where the first block was, and
there is none for 300. -/
theorem alloc_punctured_takes_lowest_vacancy :
    let a := ((empty .one).replay punctured).1
    IsLeast {o | a.Vacant ⟨o, 100⟩} 0 ∧ ∀ o, ¬ a.Vacant ⟨o, 300⟩ := by
  intro a
  constructor
  · obtain ⟨offset, next, hok, -, hplace⟩ :=
      alloc_takes_lowest_vacancy .one punctured (by decide : (0 : Int) < 100) (.str "d")
    -- the request is served from the gap at the bottom
    cases hok
    obtain ⟨hleast, -⟩ | ⟨-, hoffset, -⟩ := hplace
    · exact hleast
    · cases hoffset
  · obtain ⟨offset, next, hok, -, hplace⟩ :=
      alloc_takes_lowest_vacancy .one punctured (by decide : (0 : Int) < 300) (.str "d")
    -- the gaps are too small together, so the tail is raised
    cases hok
    obtain ⟨-, htail⟩ | ⟨hnone, -⟩ := hplace
    · cases htail
    · exact hnone

end TensorGraph.Arena
