import TensorGraph.Number.Binary
import TensorGraph.Text.Integer

/-!
# Decimal text of binary numbers

Two ways to write a binary number in decimal. `fixedChars` keeps a given number of places and rounds
the exact value. `shortest` finds the fewest digits that read back as the same double, and of those
the nearest to it; `Binary64.write` lays them out, positionally for exponents from -4 to 15 and with
an exponent otherwise.
-/

namespace TensorGraph.Number

/-- A number of digits with a point before the last `places` of them. -/
def withPoint (places n : Nat) : List Char :=
  let digits := Text.Integer.natChars n
  let filled := List.replicate (places + 1 - digits.length) '0' ++ digits
  let whole := filled.length - places
  filled.take whole ++ '.' :: filled.drop whole

/-- Decimal text with a fixed number of places, the exact value rounded half to even. -/
def fixedChars (places : Nat) (x : Scaled) : List Char :=
  withPoint places (roundDiv (x.num * tenTo places) x.den)

/-- The decimal number `digits · 10 ^ exponent`. -/
structure DecimalScaled where
  digits : Nat
  exponent : Int
deriving DecidableEq, Repr

/-- Whether `c · 10 ^ k` is at most `num / den`. -/
def gridLe (c : Nat) (k : Int) (num den : Nat) : Bool :=
  c * tenTo k.toNat * den ≤ num * tenTo (-k).toNat

/-- Whether `num / den` is at most `c · 10 ^ k`. -/
def gridGe (c : Nat) (k : Int) (num den : Nat) : Bool :=
  num * tenTo (-k).toNat ≤ c * tenTo k.toNat * den

/-- The exponent of the leading decimal digit of a positive fraction. -/
def leadingExponent (num den : Nat) : Int :=
  let guess : Int := ((num.log2 : Int) - (den.log2 : Int)) * 30103 / 100000
  match [guess + 2, guess + 1, guess, guess - 1].find? fun p => gridLe 1 p num den with
  | some p => p
  | none => guess - 2

/-- The reals that round to one double, as numerators over one denominator. -/
structure RoundingInterval where
  low : Nat
  value : Nat
  high : Nat
  den : Nat
  closed : Bool

/-- The reals that round to a positive double: half a step on either side, a quarter step below a
power of two, the ends included when the significand is even. -/
def RoundingInterval.of (m : Scaled) : RoundingInterval :=
  let below := if m.significand = twoTo 52 && -1074 < m.exponent then 1 else 2
  let up := twoTo (m.exponent - 2).toNat
  ⟨(4 * m.significand - below) * up, 4 * m.significand * up, (4 * m.significand + 2) * up,
    twoTo (2 - m.exponent).toNat, m.significand % 2 == 0⟩

/-- Whether `c · 10 ^ k` rounds to the double of the interval. -/
def RoundingInterval.holds (r : RoundingInterval) (c : Nat) (k : Int) : Bool :=
  if r.closed then gridGe c k r.low r.den && gridLe c k r.high r.den
  else !gridLe c k r.low r.den && !gridGe c k r.high r.den

/-- The decimal number with at most `count` digits that lies in the interval and is nearest to its
value, if there is one. -/
def RoundingInterval.within (r : RoundingInterval) (leading : Int) (count : Nat) :
    Option DecimalScaled :=
  let k : Int := leading - (count : Int) + 1
  let num := r.value * tenTo (-k).toNat
  let den := r.den * tenTo k.toNat
  let floor := num / den
  let nearest := roundDiv num den
  let other := if nearest = floor then floor + 1 else floor
  if r.holds nearest k then some ⟨nearest, k⟩
  else if r.holds other k then some ⟨other, k⟩
  else none

/-- The fewest digits that read back as the positive double `m`. Seventeen digits always do. -/
def shortest (m : Scaled) : DecimalScaled :=
  let r := RoundingInterval.of m
  let leading := leadingExponent r.value r.den
  match (List.range 17).findSome? fun i => r.within leading (i + 1) with
  | some d => d
  | none => ⟨0, 0⟩

/-- Digits and a decimal exponent laid out as text. -/
def layout (digits : List Char) (point : Int) : List Char :=
  if -4 < point && point ≤ 16 then
    if point ≤ 0 then '0' :: '.' :: (List.replicate (-point).toNat '0' ++ digits)
    else if (digits.length : Int) ≤ point then
      digits ++ List.replicate (point.toNat - digits.length) '0' ++ ['.', '0']
    else digits.take point.toNat ++ '.' :: digits.drop point.toNat
  else
    let mantissa := match digits with
      | first :: [] => [first]
      | first :: rest => first :: '.' :: rest
      | [] => []
    let power := Text.Integer.natChars (point - 1).natAbs
    let sign := if point - 1 < 0 then '-' else '+'
    mantissa ++ 'e' :: sign :: (List.replicate (2 - power.length) '0' ++ power)

/-- Drop the zeros at the end of a run of digits. -/
def dropTrailingZeros (digits : List Char) : List Char :=
  (digits.reverse.dropWhile (· == '0')).reverse

/-- Decimal text of a double that reads back as the same double. -/
def Binary64.write (x : Binary64) : String :=
  match x.reading with
  | .notANumber => "nan"
  | .infinite negative => if negative then "-inf" else "inf"
  | .finite negative m =>
    let body :=
      if m.significand = 0 then ['0', '.', '0']
      else
        let d := shortest m
        let digits := Text.Integer.natChars d.digits
        layout (dropTrailingZeros digits) ((digits.length : Int) + d.exponent)
    String.ofList (if negative then '-' :: body else body)

end TensorGraph.Number
