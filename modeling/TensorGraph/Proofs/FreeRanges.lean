import Mathlib.Data.List.InsertIdx
import Mathlib.Data.List.Perm.Basic
import Mathlib.Data.Nat.Bitwise
import TensorGraph.Memory.Arena

/-!
# Free ranges, found by halving and edited by place

An arena keeps its free ranges in a list and edits it by place. Here it is shown what these edits
come to. `roundUp` clears the bits below the alignment, which is rounding up to a multiple
(`Alignment.roundUp_eq`). `slot` finds the one place between the ranges that start before an offset
and the others (`slot_append`). Taking bytes and giving them back keep the bytes that are held,
counted range by range (`cover_takeFit`, `cover_giveBack`), wherever the place is; that the ranges
stay in address order, with a gap between any two, is what the place is needed for
(`separated_takeFit`, `separated_giveBack`).
-/

namespace TensorGraph

/-! ### Rounding -/

namespace Alignment

/-- An alignment is a power of two: of the highest bit of `bytes` and the bits below it only the
first is set. -/
theorem exists_two_pow (a : Alignment) : ∃ k, a.bytes = 2 ^ k := by
  obtain ⟨hpos, hand⟩ := a.isPowerOfTwo
  refine ⟨a.bytes.log2, ?_⟩
  have hlow : 2 ^ a.bytes.log2 ≤ a.bytes := Nat.log2_self_le (by omega)
  have hhigh : a.bytes < 2 ^ (a.bytes.log2 + 1) := Nat.lt_log2_self
  -- the highest bit stands alone, so the number is the power of two at that bit
  by_contra hne
  -- otherwise the number before has the same highest bit
  have hbit : (a.bytes &&& (a.bytes - 1)).testBit a.bytes.log2 = true := by
    rw [Nat.testBit_and, Nat.testBit_of_two_pow_le_and_two_pow_add_one_gt hlow hhigh,
      Nat.testBit_of_two_pow_le_and_two_pow_add_one_gt (by omega) (by omega), Bool.and_self]
  rw [hand, Nat.zero_testBit] at hbit
  cases hbit

/-- Clearing the low `k` bits of a number leaves the multiple of `2 ^ k` below it. -/
private theorem xor_mod_two_pow (n k : Nat) : n ^^^ (n % 2 ^ k) = n / 2 ^ k * 2 ^ k := by
  apply Nat.eq_of_testBit_eq
  intro i
  rw [Nat.testBit_xor, Nat.testBit_mod_two_pow, Nat.testBit_mul_two_pow, Nat.testBit_div_two_pow]
  -- the bits below the border are cleared twice, the others never
  by_cases hi : i < k
  · simp [hi, Nat.not_le.mpr hi]
  · have hle : k ≤ i := by omega
    simp [hi, hle]

/-- `roundUp` by its bit mask is rounding up to a multiple of `bytes`. -/
theorem roundUp_eq (a : Alignment) (n : Nat) :
    a.roundUp n = (n + a.bytes - 1) / a.bytes * a.bytes := by
  obtain ⟨k, hk⟩ := a.exists_two_pow
  rw [roundUp, hk]
  show _ ^^^ (_ &&& (2 ^ k - 1)) = _
  rw [Nat.and_two_pow_sub_one_eq_mod, xor_mod_two_pow]

/-- `roundUp` goes up. -/
theorem le_roundUp (a : Alignment) (n : Nat) : n ≤ a.roundUp n := by
  have hpos := a.isPowerOfTwo.1
  have hdiv := Nat.div_add_mod (n + a.bytes - 1) a.bytes
  have hmod := Nat.mod_lt (n + a.bytes - 1) hpos
  rw [roundUp_eq, Nat.mul_comm]
  omega

end Alignment

/-! ### Ranges and the bytes they hold -/

/-- Whether a byte lies in a range. -/
def FreeRange.holds (r : FreeRange) (byte : Nat) : Bool := r.offset ≤ byte && byte < r.stop

theorem FreeRange.holds_iff {r : FreeRange} {byte : Nat} :
    r.holds byte = true ↔ r.offset ≤ byte ∧ byte < r.offset + r.size := by
  rw [holds, Bool.and_eq_true, decide_eq_true_iff, decide_eq_true_iff, stop]

/-- Ranges that have no byte in common. -/
def FreeRange.Disjoint (r s : FreeRange) : Prop := r.stop ≤ s.offset ∨ s.stop ≤ r.offset

theorem FreeRange.Disjoint.symm {r s : FreeRange} (h : r.Disjoint s) : s.Disjoint r := Or.symm h

namespace Arena

/-- How many ranges hold a byte. -/
def cover (ranges : List FreeRange) (byte : Nat) : Nat := ranges.countP fun r => r.holds byte

/-- A range counts once in `cover` for each of its bytes. -/
theorem cover_cons (r : FreeRange) (ranges : List FreeRange) (byte : Nat) :
    cover (r :: ranges) byte =
      cover ranges byte + if r.offset ≤ byte ∧ byte < r.offset + r.size then 1 else 0 := by
  simp only [cover, List.countP_cons, FreeRange.holds_iff]

theorem cover_append (ranges others : List FreeRange) (byte : Nat) :
    cover (ranges ++ others) byte = cover ranges byte + cover others byte :=
  List.countP_append

private theorem cover_perm {ranges others : List FreeRange} (h : ranges.Perm others) (byte : Nat) :
    cover ranges byte = cover others byte := h.countP_eq _

/-- A range that holds a byte shows in `cover`. -/
theorem cover_pos_iff {ranges : List FreeRange} {byte : Nat} :
    0 < cover ranges byte ↔ ∃ r ∈ ranges, r.holds byte = true :=
  List.countP_pos_iff

/-- Ranges of which `cover` counts no byte twice are pairwise disjoint. -/
theorem pairwise_disjoint_of_cover_le {ranges : List FreeRange} (hpos : ∀ r ∈ ranges, 0 < r.size)
    (h : ∀ byte, cover ranges byte ≤ 1) : ranges.Pairwise FreeRange.Disjoint := by
  induction ranges with
  | nil => exact List.Pairwise.nil
  | cons r rest ih =>
    rw [List.forall_mem_cons] at hpos
    refine List.pairwise_cons.mpr ⟨?_, ih hpos.2 fun byte => ?_⟩
    · intro s hs
      have hspos := hpos.2 s hs
      -- two ranges that meet have the larger of their offsets in common
      have hbyte := h (max r.offset s.offset)
      rw [cover_cons] at hbyte
      have hcount : s.holds (max r.offset s.offset) = true → 0 < cover rest _ :=
        fun hholds => cover_pos_iff.mpr ⟨s, hs, hholds⟩
      rw [FreeRange.holds_iff] at hcount
      simp only [FreeRange.Disjoint, FreeRange.stop]
      by_cases hmeet : r.offset < s.offset + s.size ∧ s.offset < r.offset + r.size
      · have hrest := hcount (by omega)
        rw [if_pos (by omega)] at hbyte
        omega
      · omega
    · have hbyte := h byte
      rw [cover_cons] at hbyte
      omega

/-- Free ranges in address order, with at least one byte between any two. -/
def Separated (free : List FreeRange) : Prop := free.Pairwise fun r s => r.stop < s.offset

/-! ### Places -/

section
variable {before after : List FreeRange} {offset : Nat}

/-- `slotBetween` never leaves the places it starts from. -/
private theorem slotBetween_le (free : List FreeRange) (offset : Nat) {lo hi : Nat} (h : lo ≤ hi) :
    slotBetween free offset lo hi ≤ hi := by
  fun_induction slotBetween free offset lo hi with
  | case1 lo hi hlt mid _ ih => exact ih (by omega)
  | case2 lo hi hlt mid _ ih => exact Nat.le_trans (ih (by omega)) (by omega)
  | case3 => exact h

private theorem slot_le_length (free : List FreeRange) (offset : Nat) :
    slot free offset ≤ free.length :=
  slotBetween_le free offset (Nat.zero_le _)

/-- `slotBetween` keeps the border between smaller and other offsets among the places it
looks at. -/
private theorem slotBetween_append (hbefore : ∀ r ∈ before, r.offset < offset)
    (hafter : ∀ r ∈ after, offset ≤ r.offset) {lo hi : Nat} (hlo : lo ≤ before.length)
    (hhi : before.length ≤ hi) (hlength : hi ≤ (before ++ after).length) :
    slotBetween (before ++ after) offset lo hi = before.length := by
  fun_induction slotBetween (before ++ after) offset lo hi with
  | case1 lo hi hlt mid hsmall ih =>
    refine ih ?_ hhi hlength
    -- the range in the middle starts before the offset, so it is not one of those after
    by_contra hmid
    rw [List.getElem?_append_right (by omega)] at hsmall
    obtain ⟨r, hr, hr'⟩ := (Option.any_eq_true _ _).mp hsmall
    have hle := hafter r (List.mem_of_getElem? hr)
    simp only [decide_eq_true_eq] at hr'
    omega
  | case2 lo hi hlt mid hlarge ih =>
    refine ih hlo ?_ (by omega)
    -- the range in the middle does not start before the offset, so it is not one of those before
    by_contra hmid
    have hmem : mid < before.length := by omega
    rw [List.getElem?_append_left hmem, List.getElem?_eq_getElem hmem] at hlarge
    have hlt := hbefore _ (List.getElem_mem hmem)
    simp only [Option.any_some, decide_eq_true_eq] at hlarge
    omega
  | case3 => omega

/-- `slot` finds the place between the ranges that start before an offset and the others. -/
private theorem slot_append (hbefore : ∀ r ∈ before, r.offset < offset)
    (hafter : ∀ r ∈ after, offset ≤ r.offset) : slot (before ++ after) offset = before.length :=
  slotBetween_append hbefore hafter (Nat.zero_le _) (by simp) (Nat.le_refl _)

/-- `List.insertIdx` at the end of the first of two lists puts something between them. -/
private theorem insertIdx_length_append {α : Type} (xs ys : List α) (x : α) :
    (xs ++ ys).insertIdx xs.length x = xs ++ x :: ys := by
  induction xs with
  | nil => rfl
  | cons y rest ih => rw [List.cons_append, List.length_cons, List.insertIdx_succ_cons, ih]; rfl

/-- `insertRange` puts a range between those that start before it and the others. -/
private theorem insertRange_append {r : FreeRange} (hbefore : ∀ s ∈ before, s.offset < r.offset)
    (hafter : ∀ s ∈ after, r.offset ≤ s.offset) :
    insertRange r (before ++ after) = before ++ r :: after := by
  rw [insertRange, slot_append hbefore hafter, insertIdx_length_append]

end

/-- `insertRange` adds one range, whatever its place. -/
theorem insertRange_perm (r : FreeRange) (free : List FreeRange) :
    (insertRange r free).Perm (r :: free) :=
  List.perm_insertIdx r free (slot_le_length free r.offset)

/-! ### Taking space -/

/-- What `takeFit` does: the first range that is large enough leaves the list, and what is left of
it is put in its place again. -/
theorem exists_of_takeFit {need offset : Nat} {free rest : List FreeRange}
    (h : takeFit need free = some (offset, rest)) :
    ∃ before r after, free = before ++ r :: after ∧ r.offset = offset ∧ need ≤ r.size ∧
      (∀ s ∈ before, s.size < need) ∧
      rest = if need < r.size then insertRange ⟨r.offset + need, r.size - need⟩ (before ++ after)
        else before ++ after := by
  obtain ⟨i, hi, h⟩ := Option.bind_eq_some_iff.mp h
  obtain ⟨r, hr, h⟩ := Option.bind_eq_some_iff.mp h
  -- the index found is that of the first range that is large enough
  obtain ⟨hlt, hfits, hbefore⟩ := List.findIdx?_eq_some_iff_getElem.mp hi
  rw [List.getElem?_eq_getElem hlt, Option.some.injEq] at hr
  rw [hr, decide_eq_true_eq] at hfits
  cases h
  refine ⟨free.take i, r, free.drop (i + 1), ?_, rfl, hfits, fun s hs => ?_, ?_⟩
  · rw [← hr, List.getElem_cons_drop, List.take_append_drop]
  · obtain ⟨j, hj, rfl⟩ := List.mem_take_iff_getElem.mp hs
    have hsmall := hbefore j (by omega)
    rw [decide_eq_true_eq] at hsmall
    omega
  · rw [List.eraseIdx_eq_take_drop_succ]

/-- `takeFit` finds nothing only if no range has enough bytes. -/
theorem size_lt_of_takeFit_eq_none {need : Nat} {free : List FreeRange}
    (h : takeFit need free = none) : ∀ r ∈ free, r.size < need := by
  cases hi : free.findIdx? fun r => need ≤ r.size with
  | none =>
    intro r hr
    have hsmall := List.findIdx?_eq_none_iff.mp hi r hr
    rw [decide_eq_false_iff_not] at hsmall
    omega
  | some i =>
    -- a place that was found is a place in the list
    obtain ⟨hlt, -⟩ := List.findIdx?_eq_some_iff_getElem.mp hi
    simp [takeFit, hi, List.getElem?_eq_getElem hlt] at h

/-- `takeFit` takes bytes from one free range, so `cover` falls by the range taken. -/
theorem cover_takeFit {need offset : Nat} {free rest : List FreeRange}
    (h : takeFit need free = some (offset, rest)) (byte : Nat) :
    cover free byte = cover (⟨offset, need⟩ :: rest) byte := by
  obtain ⟨before, r, after, rfl, rfl, hfits, -, rfl⟩ := exists_of_takeFit h
  by_cases hleft : need < r.size
  · -- a byte of `r` is either taken or left over
    rw [if_pos hleft, cover_cons, cover_perm (insertRange_perm _ _)]
    simp only [cover_append, cover_cons]
    split <;> split <;> split <;> omega
  · have hall : need = r.size := by omega
    rw [if_neg hleft, hall]
    simp only [cover_append, cover_cons]
    omega

/-- What `takeFit` leaves: every range has bytes, none starts before a range that was there, and
each ends where one ended. -/
theorem mem_takeFit {need offset : Nat} {free rest : List FreeRange}
    (h : takeFit need free = some (offset, rest)) (hpos : ∀ r ∈ free, 0 < r.size) :
    ∀ s ∈ rest, 0 < s.size ∧ ∃ r ∈ free, r.offset ≤ s.offset ∧ s.stop = r.stop := by
  obtain ⟨before, r, after, rfl, -, hfits, -, rfl⟩ := exists_of_takeFit h
  -- the ranges that were not chosen stay as they are
  have hsame : ∀ s ∈ before ++ after, 0 < s.size ∧
      ∃ t ∈ before ++ r :: after, t.offset ≤ s.offset ∧ s.stop = t.stop := by
    intro s hs
    have hmem : s ∈ before ++ r :: after := by
      simp only [List.mem_append, List.mem_cons] at hs ⊢
      exact hs.imp id Or.inr
    exact ⟨hpos s hmem, s, hmem, Nat.le_refl _, rfl⟩
  intro s hs
  split at hs
  · cases List.mem_cons.mp ((insertRange_perm _ _).mem_iff.mp hs) with
    | inl hleft =>
      -- what is left of `r` ends where `r` ends
      subst hleft
      refine ⟨by dsimp only; omega, r, by simp, by dsimp only; omega, ?_⟩
      simp only [FreeRange.stop]
      omega
    | inr hother => exact hsame s hother
  · exact hsame s hs

/-- `takeFit` leaves the free ranges separated. -/
theorem separated_takeFit {need offset : Nat} {free rest : List FreeRange}
    (h : takeFit need free = some (offset, rest)) (hneed : 0 < need) (hsep : Separated free) :
    Separated rest := by
  obtain ⟨before, r, after, rfl, -, hfits, -, rfl⟩ := exists_of_takeFit h
  obtain ⟨hbefore, hrest, hacross⟩ := List.pairwise_append.mp hsep
  obtain ⟨hnext, hafter⟩ := List.pairwise_cons.mp hrest
  have hgap : Separated (before ++ after) := List.pairwise_append.mpr
    ⟨hbefore, hafter, fun s hs t ht => hacross s hs t (List.mem_cons_of_mem _ ht)⟩
  split
  · -- what is left of `r` lies within `r`, so it belongs where `r` was
    have hlow : ∀ s ∈ before, s.stop < r.offset := fun s hs => hacross s hs r List.mem_cons_self
    rw [insertRange_append (fun s hs => ?_) fun s hs => ?_]
    · refine List.pairwise_append.mpr ⟨hbefore, List.pairwise_cons.mpr ⟨fun s hs => ?_, hafter⟩, ?_⟩
      · have hstop := hnext s hs
        simp only [FreeRange.stop] at hstop ⊢
        omega
      · intro s hs t ht
        cases List.mem_cons.mp ht with
        | inl heq =>
          have hstop := hlow s hs
          rw [heq]
          dsimp only
          omega
        | inr hlater => exact hacross s hs t (List.mem_cons_of_mem _ hlater)
    · have hstop := hlow s hs
      simp only [FreeRange.stop] at hstop ⊢
      omega
    · have hstop := hnext s hs
      simp only [FreeRange.stop] at hstop ⊢
      omega
  · exact hgap

/-! ### Giving space back -/

namespace Return

/-- Something that is found at a place, and `List.eraseIdx` of the list there, make up the list. -/
private theorem perm_cons_eraseIdx {α : Type} {xs : List α} {i : Nat} {x : α}
    (h : xs[i]? = some x) :
    xs.Perm (x :: xs.eraseIdx i) := by
  obtain ⟨hlt, rfl⟩ := List.getElem?_eq_some_iff.mp h
  exact (List.getElem_cons_eraseIdx_perm hlt).symm

/-- What `joinPrev` does: nothing, or the range before the place is merged with the one on its
way. -/
private theorem joinPrev_cases (r : Return) :
    r.joinPrev = r ∨ ∃ place prev, r.place = place + 1 ∧ r.others[place]? = some prev ∧
      prev.stop = r.range.offset ∧
      r.joinPrev = ⟨⟨prev.offset, prev.size + r.range.size⟩, place, r.others.eraseIdx place⟩ := by
  unfold joinPrev
  split
  · -- no range lies before the place
    exact Or.inl rfl
  · rename_i place hplace
    split
    · rename_i prev hprev
      split
      · rename_i htouch
        -- the range before it ends where the freed one begins
        exact Or.inr ⟨place, prev, hplace, hprev, htouch, rfl⟩
      · -- there is a gap between them
        exact Or.inl rfl
    · exact Or.inl rfl

/-- What `joinNext` does: nothing, or the range at the place is merged with the one on its way. -/
private theorem joinNext_cases (r : Return) :
    r.joinNext = r ∨ ∃ next, r.others[r.place]? = some next ∧ r.range.stop = next.offset ∧
      r.joinNext =
        ⟨⟨r.range.offset, r.range.size + next.size⟩, r.place, r.others.eraseIdx r.place⟩ := by
  unfold joinNext
  split
  · rename_i next hnext
    split
    · rename_i htouch
      -- the freed range ends where the next one begins
      exact Or.inr ⟨next, hnext, htouch, rfl⟩
    · -- there is a gap between them
      exact Or.inl rfl
  · exact Or.inl rfl

/-- What holds of the range on its way and of all the others. -/
private def All (P : FreeRange → Prop) (r : Return) : Prop := P r.range ∧ ∀ s ∈ r.others, P s

section
variable {P : FreeRange → Prop} (hjoin : ∀ r s, P r → P s → P ⟨r.offset, r.size + s.size⟩)
include hjoin

/-- `joinPrev` keeps up what holds of all ranges and of merged ones. -/
private theorem all_joinPrev {r : Return} (h : r.All P) : r.joinPrev.All P := by
  obtain heq | ⟨place, prev, -, hprev, -, heq⟩ := r.joinPrev_cases
  · rwa [heq]
  · rw [heq]
    have hmem := List.mem_of_getElem? hprev
    exact ⟨hjoin prev r.range (h.2 prev hmem) h.1,
      fun s hs => h.2 s (List.mem_of_mem_eraseIdx hs)⟩

/-- `joinNext` keeps up what holds of all ranges and of merged ones. -/
private theorem all_joinNext {r : Return} (h : r.All P) : r.joinNext.All P := by
  obtain heq | ⟨next, hnext, -, heq⟩ := r.joinNext_cases
  · rwa [heq]
  · rw [heq]
    have hmem := List.mem_of_getElem? hnext
    exact ⟨hjoin r.range next h.1 (h.2 next hmem),
      fun s hs => h.2 s (List.mem_of_mem_eraseIdx hs)⟩

end

/-- `joinPrev` does not change which bytes are held. -/
private theorem cover_joinPrev (r : Return) (byte : Nat) :
    cover (r.joinPrev.range :: r.joinPrev.others) byte = cover (r.range :: r.others) byte := by
  obtain heq | ⟨place, prev, -, hprev, htouch, heq⟩ := r.joinPrev_cases
  · rw [heq]
  · -- the bytes of the range before are now counted with the merged range
    have hothers := cover_perm (perm_cons_eraseIdx hprev) byte
    simp only [FreeRange.stop] at htouch
    rw [heq]
    simp only [cover_cons] at hothers ⊢
    rw [hothers]
    split <;> split <;> split <;> omega

/-- `joinNext` does not change which bytes are held. -/
private theorem cover_joinNext (r : Return) (byte : Nat) :
    cover (r.joinNext.range :: r.joinNext.others) byte = cover (r.range :: r.others) byte := by
  obtain heq | ⟨next, hnext, htouch, heq⟩ := r.joinNext_cases
  · rw [heq]
  · -- the bytes of the range after are now counted with the merged range
    have hothers := cover_perm (perm_cons_eraseIdx hnext) byte
    simp only [FreeRange.stop] at htouch
    rw [heq]
    simp only [cover_cons] at hothers ⊢
    rw [hothers]
    split <;> split <;> split <;> omega

/-- `joinPrev` leaves the place one of the list, or its end. -/
private theorem place_joinPrev_le {r : Return} (h : r.place ≤ r.others.length) :
    r.joinPrev.place ≤ r.joinPrev.others.length := by
  obtain heq | ⟨place, prev, hplace, hprev, -, heq⟩ := r.joinPrev_cases
  · rwa [heq]
  · obtain ⟨hlt, -⟩ := List.getElem?_eq_some_iff.mp hprev
    rw [heq]
    simp only [List.length_eraseIdx_of_lt hlt]
    omega

/-- `joinNext` leaves the place one of the list, or its end. -/
private theorem place_joinNext_le {r : Return} (h : r.place ≤ r.others.length) :
    r.joinNext.place ≤ r.joinNext.others.length := by
  obtain heq | ⟨next, hnext, -, heq⟩ := r.joinNext_cases
  · rwa [heq]
  · obtain ⟨hlt, -⟩ := List.getElem?_eq_some_iff.mp hnext
    rw [heq]
    simp only [List.length_eraseIdx_of_lt hlt]
    omega

/-- A range on its way belongs between two lists of separated ranges, which it may touch. -/
private structure Fits (r : Return) (before after : List FreeRange) : Prop where
  others_eq : r.others = before ++ after
  place_eq : r.place = before.length
  separated : Separated (before ++ after)
  low : ∀ s ∈ before, s.stop ≤ r.range.offset
  high : ∀ s ∈ after, r.range.stop ≤ s.offset

/-- `joinPrev` leaves a gap before the range. -/
private theorem Fits.joinPrev {r : Return} {before after : List FreeRange}
    (h : r.Fits before after) :
    ∃ before', r.joinPrev.Fits before' after ∧ ∀ s ∈ before', s.stop < r.joinPrev.range.offset := by
  obtain ⟨hbefore, hafter, hacross⟩ := List.pairwise_append.mp h.separated
  cases List.eq_nil_or_concat before with
  | inl hnil =>
    -- nothing comes before the range
    have hsame : r.joinPrev = r := by rw [Return.joinPrev, h.place_eq, hnil]; rfl
    rw [hsame]
    exact ⟨before, h, by simp [hnil]⟩
  | inr hlast =>
    obtain ⟨front, prev, hconcat⟩ := hlast
    rw [List.concat_eq_append] at hconcat
    subst hconcat
    have hfront := List.pairwise_append.mp hbefore
    have hlow := h.low prev (by simp)
    have hprev : r.others[front.length]? = some prev := by
      rw [h.others_eq, List.append_assoc, List.getElem?_append_right (Nat.le_refl _)]
      simp
    have hplace : r.place = front.length + 1 := by rw [h.place_eq]; simp
    by_cases htouch : prev.stop = r.range.offset
    · -- the ranges before `prev` are separated from it, and so from the merged range
      have hjoin : r.joinPrev = ⟨⟨prev.offset, prev.size + r.range.size⟩, front.length,
          front ++ after⟩ := by
        simp only [Return.joinPrev, hplace, hprev, if_pos htouch]
        rw [h.others_eq]
        simp [List.eraseIdx_append]
      have hgap : ∀ s ∈ front, s.stop < prev.offset := fun s hs =>
        hfront.2.2 s hs prev (List.mem_singleton.mpr rfl)
      rw [hjoin]
      refine ⟨front, ⟨rfl, rfl, ?_, fun s hs => Nat.le_of_lt (hgap s hs), fun s hs => ?_⟩, hgap⟩
      · exact List.pairwise_append.mpr ⟨hfront.1, hafter, fun s hs t ht =>
          hacross s (List.mem_append_left _ hs) t ht⟩
      · have hhigh := h.high s hs
        simp only [FreeRange.stop] at htouch hhigh ⊢
        omega
    · -- a range that is not touched has a gap to the range on its way, and so have those before it
      have hsame : r.joinPrev = r := by
        simp only [Return.joinPrev, hplace, hprev, if_neg htouch]
      rw [hsame]
      refine ⟨front ++ [prev], h, fun s hs => ?_⟩
      cases List.mem_append.mp hs with
      | inl hs =>
        have hstop := hfront.2.2 s hs prev (List.mem_singleton.mpr rfl)
        simp only [FreeRange.stop] at hstop hlow ⊢
        omega
      | inr hs =>
        rw [List.mem_singleton.mp hs]
        omega

/-- `joinNext` leaves a gap after the range, and does not move where it starts. -/
private theorem Fits.joinNext {r : Return} {before after : List FreeRange}
    (h : r.Fits before after) :
    ∃ after', r.joinNext.Fits before after' ∧ (∀ s ∈ after', r.joinNext.range.stop < s.offset) ∧
      r.joinNext.range.offset = r.range.offset := by
  obtain ⟨hbefore, hafter, hacross⟩ := List.pairwise_append.mp h.separated
  cases after with
  | nil =>
    -- nothing comes after the range
    have hsame : r.joinNext = r := by
      rw [Return.joinNext, h.place_eq, h.others_eq, List.append_nil,
        List.getElem?_eq_none (by simp)]
    rw [hsame]
    exact ⟨[], h, List.forall_mem_nil _, rfl⟩
  | cons next rest =>
    obtain ⟨hnext, hrest⟩ := List.pairwise_cons.mp hafter
    have hhigh := h.high next List.mem_cons_self
    have hfound : r.others[r.place]? = some next := by
      rw [h.others_eq, h.place_eq, List.getElem?_append_right (Nat.le_refl _)]
      simp
    by_cases htouch : r.range.stop = next.offset
    · have hjoin : r.joinNext = ⟨⟨r.range.offset, r.range.size + next.size⟩, before.length,
          before ++ rest⟩ := by
        simp only [Return.joinNext, hfound, if_pos htouch]
        rw [h.others_eq, h.place_eq]
        simp [List.eraseIdx_append]
      -- what follows `next` starts after its end, which is the end of the merged range
      have hgap : ∀ s ∈ rest, r.range.offset + (r.range.size + next.size) < s.offset := by
        intro s hs
        have hstop := hnext s hs
        simp only [FreeRange.stop] at hstop htouch
        omega
      rw [hjoin]
      refine ⟨rest, ⟨rfl, rfl, ?_, h.low, fun s hs => Nat.le_of_lt (hgap s hs)⟩, hgap, rfl⟩
      exact List.pairwise_append.mpr ⟨hbefore, hrest, fun s hs t ht =>
        hacross s hs t (List.mem_cons_of_mem _ ht)⟩
    · -- a range that is not touched has a gap to the range on its way, and so have those after it
      have hsame : r.joinNext = r := by simp only [Return.joinNext, hfound, if_neg htouch]
      rw [hsame]
      refine ⟨next :: rest, h, fun s hs => ?_, rfl⟩
      cases List.mem_cons.mp hs with
      | inl heq =>
        rw [heq]
        omega
      | inr hs =>
        have hstop := hnext s hs
        simp only [FreeRange.stop] at hstop hhigh ⊢
        omega

end Return

/-- What holds of a range that is given back and of all free ranges, and of two ranges together when
it holds of each, holds of all ranges that `giveBack` leaves. -/
theorem forall_mem_giveBack {P : FreeRange → Prop}
    (hjoin : ∀ r s, P r → P s → P ⟨r.offset, r.size + s.size⟩) {r : FreeRange}
    {free : List FreeRange} (h : ∀ s ∈ r :: free, P s) : ∀ s ∈ giveBack r free, P s := by
  obtain ⟨hr, hfree⟩ := List.forall_mem_cons.mp h
  have hall : (Return.mk r (slot free r.offset) free).All P := ⟨hr, hfree⟩
  obtain ⟨hrange, hothers⟩ := Return.all_joinNext hjoin (Return.all_joinPrev hjoin hall)
  intro s hs
  cases List.eq_or_mem_of_mem_insertIdx hs with
  | inl heq => exact heq ▸ hrange
  | inr hother => exact hothers s hother

/-- After `giveBack`, every free range has bytes and starts where one started before. -/
theorem mem_giveBack {r : FreeRange} {free : List FreeRange} (hr : 0 < r.size)
    (hpos : ∀ s ∈ free, 0 < s.size) :
    ∀ s ∈ giveBack r free, 0 < s.size ∧ ∃ t ∈ r :: free, t.offset = s.offset := by
  refine forall_mem_giveBack (fun a b ha _ => ⟨by dsimp only; omega, ha.2⟩) fun s hs => ?_
  have hall : ∀ s ∈ r :: free, 0 < s.size := List.forall_mem_cons.mpr ⟨hr, hpos⟩
  exact ⟨hall s hs, s, hs, rfl⟩

/-- `giveBack` raises `cover` by the range that is given back. -/
theorem cover_giveBack (r : FreeRange) (free : List FreeRange) (byte : Nat) :
    cover (giveBack r free) byte = cover (r :: free) byte := by
  have hplace := Return.place_joinNext_le (Return.place_joinPrev_le
    (r := ⟨r, slot free r.offset, free⟩) (slot_le_length free r.offset))
  rw [giveBack, Return.finish, cover_perm (List.perm_insertIdx _ _ hplace), Return.cover_joinNext,
    Return.cover_joinPrev]

/-- `Separated` ranges are cut in two by an offset. -/
private theorem Separated.exists_split {free : List FreeRange} (hsep : Separated free)
    (offset : Nat) :
    ∃ before after, free = before ++ after ∧ (∀ s ∈ before, s.offset < offset) ∧
      ∀ s ∈ after, offset ≤ s.offset := by
  induction free with
  | nil => exact ⟨[], [], rfl, List.forall_mem_nil _, List.forall_mem_nil _⟩
  | cons r rest ih =>
    obtain ⟨hnext, hrest⟩ := List.pairwise_cons.mp hsep
    by_cases hr : r.offset < offset
    · obtain ⟨before, after, rfl, hbefore, hafter⟩ := ih hrest
      exact ⟨r :: before, after, rfl, List.forall_mem_cons.mpr ⟨hr, hbefore⟩, hafter⟩
    · -- ranges stand in order, so no later one begins below the offset
      refine ⟨[], r :: rest, rfl, List.forall_mem_nil _, fun s hs => ?_⟩
      cases List.mem_cons.mp hs with
      | inl heq =>
        rw [heq]
        omega
      | inr hs =>
        have hstop := hnext s hs
        simp only [FreeRange.stop] at hstop
        omega

/-- `giveBack` leaves the free ranges `Separated`, if the range is disjoint from all of them. -/
theorem separated_giveBack {r : FreeRange} {free : List FreeRange} (hr : 0 < r.size)
    (hpos : ∀ s ∈ free, 0 < s.size) (hsep : Separated free)
    (hdisjoint : ∀ s ∈ free, r.Disjoint s) : Separated (giveBack r free) := by
  obtain ⟨before, after, rfl, hbefore, hafter⟩ := hsep.exists_split r.offset
  -- a range that is disjoint from `r` and starts before it also ends before it
  have hfits : (Return.mk r (slot (before ++ after) r.offset) (before ++ after)).Fits before
      after := by
    refine ⟨rfl, slot_append hbefore hafter, hsep, fun s hs => ?_, fun s hs => ?_⟩
    · have hmem := List.mem_append_left after hs
      have hlt := hbefore s hs
      have hapart := hdisjoint s hmem
      simp only [FreeRange.Disjoint, FreeRange.stop] at hapart ⊢
      omega
    · have hmem := List.mem_append_right before hs
      have hle := hafter s hs
      have hapart := hdisjoint s hmem
      have hsize := hpos s hmem
      simp only [FreeRange.Disjoint, FreeRange.stop] at hapart ⊢
      omega
  obtain ⟨before', hprev, hlow⟩ := hfits.joinPrev
  obtain ⟨after', hnext, hhigh, hstart⟩ := hprev.joinNext
  obtain ⟨hleft, hright, hacross⟩ := List.pairwise_append.mp hnext.separated
  -- the merged range is put in where there is a gap on both sides
  rw [giveBack, Return.finish, hnext.others_eq, hnext.place_eq, insertIdx_length_append]
  refine List.pairwise_append.mpr
    ⟨hleft, List.pairwise_cons.mpr ⟨hhigh, hright⟩, fun s hs t ht => ?_⟩
  cases List.mem_cons.mp ht with
  | inl heq =>
    rw [heq, hstart]
    exact hlow s hs
  | inr hlater => exact hacross s hs t hlater

end Arena

end TensorGraph
