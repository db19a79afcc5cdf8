import Mathlib.Algebra.Order.Field.Power
import Mathlib.Algebra.Order.Field.Rat
import TensorGraph.Graph.Validity

/-!
# Which indices name ports

An index is any piece of data that an edge was made with. It names one of a number of ports if it is
a number in their range, whatever kind of number it is: `isPort_iff_within` says so by its value,
and all that is used of port indices follows from it.
-/

namespace TensorGraph

/-! ### Numbers and their values -/

namespace Number

/-- The value of a scaled number. -/
def Scaled.value (m : Scaled) : ℚ := m.significand * (2 : ℚ) ^ m.exponent

/-- `Scaled.den` is a power of two, so it is positive. -/
private theorem Scaled.den_pos (m : Scaled) : 0 < m.den := Nat.two_pow_pos _

/-- `Scaled.value` is the numerator over the denominator. -/
private theorem Scaled.value_mul_den (m : Scaled) : m.value * m.den = m.num := by
  have hpower : (2 : ℚ) ^ m.exponent * 2 ^ (-m.exponent).toNat = 2 ^ m.exponent.toNat := by
    rw [← zpow_natCast, ← zpow_natCast, ← zpow_add₀ two_ne_zero]
    congr 1
    omega
  simp only [Scaled.value, Scaled.den, Scaled.num, twoTo, Nat.pow_eq, Nat.cast_mul, Nat.cast_pow,
    Nat.cast_ofNat, mul_assoc, hpower]

namespace Binary64

/-- The value of a double; infinities and what is not a number have none. -/
def value? (x : Binary64) : Option ℚ :=
  match x.reading with
  | .finite negative m => some (if negative then -m.value else m.value)
  | _ => none

private theorem signedNum_eq (negative : Bool) (m : Scaled) :
    (signedNum negative m : ℚ) = (if negative then -m.value else m.value) * m.den := by
  cases negative <;> simp [signedNum, ← m.value_mul_den]

/-- `isAtLeast` and `isLess` compare a double with the two ends of a range by its value. -/
private theorem isAtLeast_and_isLess_iff (x : Binary64) (least bound : Int) :
    (x.isAtLeast least && x.isLess bound) = true ↔
      ∃ q, x.value? = some q ∧ least ≤ q ∧ q < bound := by
  unfold isAtLeast isLess value?
  cases x.reading with
  | notANumber => simp
  | infinite negative => cases negative <;> simp
  | finite negative m =>
    have hden : (0 : ℚ) < m.den := by exact_mod_cast m.den_pos
    simp only [Bool.and_eq_true, decide_eq_true_eq, Option.some.injEq, exists_eq_left']
    -- both sides are scaled by the denominator, and become numerators
    rw [← mul_le_mul_iff_of_pos_right hden, ← mul_lt_mul_iff_of_pos_right hden, ← signedNum_eq]
    exact_mod_cast Iff.rfl

end Binary64

end Number

namespace Datum

/-- The value of a number, truth values counting as 0 and 1. -/
def value? : Datum → Option ℚ
  | .bool b => some (if b then 1 else 0)
  | .int i => some i
  | .float x => x.value?
  | _ => none

/-- A number that is not negative and is less than a count. -/
def Within (index : Datum) (count : Nat) : Prop := ∃ q, index.value? = some q ∧ 0 ≤ q ∧ q < count

end Datum

namespace Graph

/-- An index names one of a number of ports. -/
def IsPort (index : Datum) (count : Nat) : Prop := namesPort index count = .ok true

/-- An index `IsPort` exactly if it is a number `Within` the number of ports. -/
theorem isPort_iff_within {index : Datum} {count : Nat} :
    IsPort index count ↔ index.Within count := by
  cases index with
  | float x =>
    -- numbers are compared exactly, without rounding
    have hrange := x.isAtLeast_and_isLess_iff 0 count
    simp only [Int.cast_zero, Int.cast_natCast] at hrange
    simp only [IsPort, namesPort, Except.ok.injEq, hrange, Datum.Within, Datum.value?]
  | int i =>
    simp only [IsPort, namesPort, Datum.whole, Datum.whole?, Except.map, Except.ok.injEq,
      Bool.and_eq_true, decide_eq_true_eq, Datum.Within, Datum.value?, Option.some.injEq,
      exists_eq_left']
    exact_mod_cast Iff.rfl
  | bool b =>
    -- truth values count as 0 and 1
    cases b <;>
      simp [IsPort, namesPort, Datum.whole, Datum.whole?, Except.map, Datum.Within, Datum.value?]
  | _ =>
    simp [IsPort, namesPort, Datum.whole, Datum.whole?, Except.map, Datum.Within, Datum.value?]

/-- What `IsPort` of the first few ports is one of more. -/
theorem IsPort.mono {index : Datum} {few many : Nat} (h : IsPort index few) (hle : few ≤ many) :
    IsPort index many := by
  rw [isPort_iff_within] at h ⊢
  obtain ⟨q, hvalue, hnonneg, hlt⟩ := h
  have hcast : (few : ℚ) ≤ many := by exact_mod_cast hle
  exact ⟨q, hvalue, hnonneg, hlt.trans_le hcast⟩

/-- Where an index `IsPort` there is a port. -/
theorem IsPort.pos {index : Datum} {count : Nat} (h : IsPort index count) : 0 < count := by
  rw [isPort_iff_within] at h
  obtain ⟨q, _, hnonneg, hlt⟩ := h
  exact_mod_cast hnonneg.trans_lt hlt

/-- An integer that `IsPort` is the position of the port. -/
theorem isPort_iff_of_whole? {index : Datum} {i : Int} {count : Nat} (h : index.whole? = some i) :
    IsPort index count ↔ 0 ≤ i ∧ i < count := by
  cases index with
  | float => cases h
  | _ => simp [IsPort, namesPort, Datum.whole, h, Except.map]

/-- The position of a port `IsPort`. -/
theorem isPort_int {i count : Nat} (h : i < count) : IsPort (.int i) count := by
  rw [isPort_iff_of_whole? rfl]
  omega

end Graph

end TensorGraph
