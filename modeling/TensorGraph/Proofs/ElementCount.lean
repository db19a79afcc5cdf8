import Mathlib.Algebra.BigOperators.Ring.List
import Mathlib.Algebra.Ring.Nat
import Mathlib.Data.Int.ModEq
import TensorGraph.Tensor

/-!
# Counting elements in machine words

A product of dimensions that leaves the range of machine words is wrapped around, at every
multiplication. What becomes of it on the way leaves no trace in the end: the count is the one word
that is congruent to the volume (`TensorType.wrappedVolume_eq_iff`). It is the volume itself exactly
if that is a word, even where products on the way were none, and then the number of bytes is right
too.
-/

namespace TensorGraph

namespace TensorType

/-- `wordCount` is the product of the dimensions, up to the number of machine words. -/
private theorem wordCount_eq (s : Shape) : wordCount s = Int64.ofNat s.prod := by
  -- the factors are multiplied from the left, each by itself within a word
  suffices hall : ∀ acc : Int64,
      s.foldl (fun acc d => acc * Int64.ofNat d) acc = acc * Int64.ofNat s.prod by
    rw [wordCount, hall, Int64.one_mul]
  induction s with
  | nil => simp
  | cons d rest ih =>
    intro acc
    rw [List.foldl_cons, ih, List.prod_cons, Int64.ofNat_mul, Int64.mul_assoc]

/-- The volume, wrapped around to a machine word with a sign. -/
def wrappedVolume (t : TensorType) : Int := Int.bmod t.shape.prod wordLimit

/-- `wrappedVolume` is the one word that differs from the volume by a multiple of the number of
words. -/
private theorem wrappedVolume_eq_iff {t : TensorType} {count : Int} :
    t.wrappedVolume = count ↔
      -2 ^ 63 ≤ count ∧ count < 2 ^ 63 ∧ count ≡ t.shape.prod [ZMOD 2 ^ 64] := by
  have hleast : -((wordLimit : Int) / 2) = -2 ^ 63 := by decide
  have hmost : ((wordLimit : Int) + 1) / 2 = 2 ^ 63 := by decide
  have hlimit : (wordLimit : Int) = 2 ^ 64 := by decide
  rw [wrappedVolume, Int.bmod_eq_iff (by decide), hleast, hmost, hlimit, Int.modEq_comm,
    Int.modEq_iff_dvd]

/-- `wrappedVolume` is the volume, if that is below half the number of words. -/
theorem wrappedVolume_eq {t : TensorType} (h : t.shape.prod < 2 ^ 63) :
    t.wrappedVolume = t.shape.prod := by
  apply Int.bmod_eq_of_le <;> simp only [wordLimit] <;> omega

/-- `wrappedVolume` is the volume exactly if that is a word. -/
private theorem wrappedVolume_eq_volume_iff {t : TensorType} :
    t.wrappedVolume = t.shape.prod ↔ t.shape.prod < 2 ^ 63 := by
  constructor
  · intro h
    have hbelow := (wrappedVolume_eq_iff.mp h).2.1
    exact_mod_cast hbelow
  · exact wrappedVolume_eq

/-! ### Elements and bytes -/

/-- `elementCount` answers if all dimensions fit a machine word, and the count is the volume,
wrapped around. -/
theorem elementCount_eq_ok_iff {t : TensorType} {count : Int} :
    t.elementCount = .ok count ↔ (∀ d ∈ t.shape, d < wordLimit) ∧ count = t.wrappedVolume := by
  have hword : (wordCount t.shape).toInt = t.wrappedVolume := by
    rw [wordCount_eq, Int64.toInt_ofNat']
    rfl
  unfold elementCount
  split
  · rename_i hlarge
    -- some dimension does not fit a word
    have hlarge : ¬ ∀ d ∈ t.shape, d < wordLimit := by simpa using hlarge
    simp [hlarge]
  · rename_i hfits
    -- all dimensions fit
    have hfits : ∀ d ∈ t.shape, d < wordLimit := by simpa using hfits
    rw [hword, Except.ok.injEq, eq_comm]
    exact (and_iff_right hfits).symm

/-- `elementCount` fails only for a dimension that does not fit a machine word. -/
theorem elementCount_eq_error_iff {t : TensorType} {cause : Error} :
    t.elementCount = .error cause ↔
      cause = .dimensionTooLarge ∧ ∃ d ∈ t.shape, wordLimit ≤ d := by
  unfold elementCount
  split
  · rename_i hlarge
    -- some dimension does not fit a word
    have hlarge : ∃ d ∈ t.shape, wordLimit ≤ d := by simpa using hlarge
    simp [hlarge, eq_comm]
  · rename_i hfits
    -- all dimensions fit
    have hfits : ¬ ∃ d ∈ t.shape, wordLimit ≤ d := by simpa using hfits
    simp [hfits]

/-- `elementCount` is the same, whatever the order of the dimensions. -/
theorem elementCount_perm (x : TensorType) {s : Shape} (h : s.Perm x.shape) :
    (x.withShape s).elementCount = x.elementCount := by
  rw [elementCount, elementCount, wordCount_eq, wordCount_eq]
  simp only [withShape, h.prod_eq, h.any_eq]

private theorem byteCount_of_elementCount {t : TensorType} {count : Int}
    (h : t.elementCount = .ok count) : t.byteCount = .ok (count * t.element.byteSize) := by
  rw [byteCount, h]
  rfl

/-- `elementCount` of a tensor with dimensions below 2 to the 63. It is the word that represents the
volume, the same for every order of the dimensions, and 0 if one of them is 0. It is the volume
exactly if that is a word, and exactly then `byteCount`, the number of bytes, is right. -/
theorem elementCount_represents_volume {t : TensorType} (hwords : ∀ d ∈ t.shape, d < 2 ^ 63) :
    ∃ count : Int, t.elementCount = .ok count ∧
      (-2 ^ 63 ≤ count ∧ count < 2 ^ 63 ∧ count ≡ t.shape.prod [ZMOD 2 ^ 64]) ∧
      (∀ u : TensorType, u.shape.Perm t.shape → u.elementCount = .ok count) ∧
      (0 ∈ t.shape → count = 0) ∧
      (count = t.shape.prod ↔ t.shape.prod < 2 ^ 63) ∧
      ∃ bytes : Int, t.byteCount = .ok bytes ∧
        (bytes = t.shape.prod * t.element.byteSize ↔ t.shape.prod < 2 ^ 63) := by
  -- below the limit there is a count, the volume wrapped to a word
  have hfits : ∀ d ∈ t.shape, d < wordLimit := fun d hd =>
    Nat.lt_trans (hwords d hd) (by decide)
  have hcount := elementCount_eq_ok_iff.mpr ⟨hfits, rfl⟩
  refine ⟨t.wrappedVolume, hcount, wrappedVolume_eq_iff.mp rfl, ?_, ?_, wrappedVolume_eq_volume_iff,
    _, byteCount_of_elementCount hcount, ?_⟩
  · intro u hperm
    rw [← hcount, ← elementCount_perm t hperm]
    rfl
  · intro hzero
    rw [wrappedVolume, List.prod_eq_zero hzero]
    rfl
  · -- an element has a positive number of bytes, so these are right if the count is
    have hsize : (t.element.byteSize : Int) ≠ 0 := by
      cases t.element <;> decide
    rw [Int.mul_eq_mul_right_iff hsize, wrappedVolume_eq_volume_iff]

/-- Three times 2 to the 62 elements are no word: they are counted as a negative number, in either
order, and their bytes come out negative too. -/
theorem elementCount_represents_three_quarters :
    (∀ d ∈ [2 ^ 62, 3], d < 2 ^ 63) ∧
      elementCount ⟨.int8, [2 ^ 62, 3]⟩ = .ok (-2 ^ 62) ∧
      elementCount ⟨.bool, [3, 2 ^ 62]⟩ = .ok (-2 ^ 62) ∧
      (-2 ^ 62 : Int) ≠ List.prod [2 ^ 62, 3] ∧ byteCount ⟨.int8, [2 ^ 62, 3]⟩ = .ok (-2 ^ 62) := by
  have hwords : ∀ d ∈ [2 ^ 62, 3], d < 2 ^ 63 := by decide
  obtain ⟨count, hcount, _, hperm, _, hright, _⟩ :=
    elementCount_represents_volume (t := ⟨.int8, [2 ^ 62, 3]⟩) hwords
  -- three quarters of all words, which wraps to a negative count
  have heval : elementCount ⟨.int8, [2 ^ 62, 3]⟩ = .ok (-2 ^ 62) := by decide
  rw [heval] at hcount
  cases hcount
  refine ⟨hwords, heval, hperm _ (List.Perm.swap _ _ _), ?_, byteCount_of_elementCount heval⟩
  intro h
  exact absurd (hright.mp h) (by decide)

end TensorType

end TensorGraph
