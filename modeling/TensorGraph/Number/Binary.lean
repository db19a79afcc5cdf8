/-!
# Binary floating point

Floating-point numbers are kept as their 64 bits and read as `significand · 2 ^ exponent`, so every
operation on them is exact integer arithmetic. The one rounding rule is `BinaryFormat.nearest`: the
closest number of a format, a tie going to the even significand.
-/

namespace TensorGraph.Number

/-- A power of two. -/
def twoTo (k : Nat) : Nat := Nat.pow 2 k

/-- A power of ten. -/
def tenTo (k : Nat) : Nat := Nat.pow 10 k

/-- The quotient rounded to the nearest natural number, a half going to the even neighbour. -/
def roundDiv (num den : Nat) : Nat :=
  let q := num / den
  let r := num % den
  if 2 * r < den then q else if den < 2 * r then q + 1 else q + q % 2

/-- The number `significand · 2 ^ exponent`. -/
structure Scaled where
  significand : Nat
  exponent : Int
deriving DecidableEq, Repr

/-- Numerator of a scaled number written as a fraction. -/
def Scaled.num (x : Scaled) : Nat := x.significand * twoTo x.exponent.toNat

/-- Denominator of a scaled number written as a fraction, a power of two. -/
def Scaled.den (x : Scaled) : Nat := twoTo (-x.exponent).toNat

/-- A binary format: the bits of its significand, the exponent of its smallest steps, and the power
of two that bounds its finite numbers. -/
structure BinaryFormat where
  precision : Nat
  minExponent : Int
  limit : Int
deriving DecidableEq, Repr

/-- Half precision. -/
def BinaryFormat.half : BinaryFormat := ⟨11, -24, 16⟩

/-- Single precision. -/
def BinaryFormat.single : BinaryFormat := ⟨24, -149, 128⟩

/-- Double precision. -/
def BinaryFormat.double : BinaryFormat := ⟨53, -1074, 1024⟩

/-- The number of a format that is nearest to the fraction `num / den`, or `none` when the nearest
one would lie at or beyond the format's limit. -/
def BinaryFormat.nearest (f : BinaryFormat) (num den : Nat) : Option Scaled :=
  if num = 0 then some ⟨0, f.minExponent⟩
  else
    let guess : Int := (num.log2 : Int) - (den.log2 : Int)
    let leading : Int :=
      if den * twoTo guess.toNat ≤ num * twoTo (-guess).toNat then guess else guess - 1
    let exponent := max f.minExponent (leading - (f.precision - 1 : Nat))
    let rounded := roundDiv (num * twoTo (-exponent).toNat) (den * twoTo exponent.toNat)
    let result : Scaled :=
      if rounded = twoTo f.precision then ⟨twoTo (f.precision - 1), exponent + 1⟩
      else ⟨rounded, exponent⟩
    if f.limit < result.exponent + f.precision && twoTo (f.precision - 1) ≤ result.significand then
      none
    else some result

/-- A double-precision number, given by its bits. -/
structure Binary64 where
  bits : UInt64
deriving DecidableEq, Repr

/-- What the bits of a double stand for. -/
inductive Binary64.Reading where
  | notANumber
  | infinite (negative : Bool)
  | finite (negative : Bool) (magnitude : Scaled)
deriving DecidableEq, Repr

namespace Binary64

/-- Whether the sign bit is set. -/
def isNegative (x : Binary64) : Bool := x.bits >>> 63 == 1

/-- Read the sign, the exponent and the fraction off the bits. -/
def reading (x : Binary64) : Reading :=
  let exponent := ((x.bits >>> 52) &&& 0x7ff).toNat
  let fraction := (x.bits &&& 0xfffffffffffff).toNat
  if exponent = 0x7ff then
    if fraction = 0 then .infinite x.isNegative else .notANumber
  else if exponent = 0 then .finite x.isNegative ⟨fraction, -1074⟩
  else .finite x.isNegative ⟨fraction + twoTo 52, (exponent : Int) - 1075⟩

/-- The bits that stand for a sign and a magnitude; `none` is infinity. A magnitude must have been
rounded to double precision. -/
def ofMagnitude (negative : Bool) (magnitude : Option Scaled) : Binary64 :=
  let sign : Nat := if negative then twoTo 63 else 0
  match magnitude with
  | none => ⟨UInt64.ofNat (sign + 0x7ff * twoTo 52)⟩
  | some m =>
    if m.significand < twoTo 52 then ⟨UInt64.ofNat (sign + m.significand)⟩
    else ⟨UInt64.ofNat (sign + (m.exponent + 1074).toNat * twoTo 52 + m.significand)⟩

/-- The double nearest to a signed fraction. -/
def ofRatio (negative : Bool) (num den : Nat) : Binary64 :=
  ofMagnitude negative (BinaryFormat.double.nearest num den)

/-- The double nearest to an integer. -/
def ofInt (i : Int) : Binary64 := ofRatio (i < 0) i.natAbs 1

/-- Round to a narrower format and come back; numbers beyond the format become infinite. -/
def narrow (f : BinaryFormat) (x : Binary64) : Binary64 :=
  match x.reading with
  | .finite negative m =>
    match f.nearest m.num m.den with
    | none => ofMagnitude negative none
    | some r => ofRatio negative r.num r.den
  | _ => x

/-- The integer part of a finite number, fractions dropped towards zero. -/
def truncate (negative : Bool) (m : Scaled) : Int :=
  let n : Int := ((m.num / m.den : Nat) : Int)
  if negative then -n else n

/-- The integer that a double equals, if it equals one. -/
def toInt? (x : Binary64) : Option Int :=
  match x.reading with
  | .finite negative m => if m.num % m.den = 0 then some (truncate negative m) else none
  | _ => none

/-- Numerator of a signed number written as a fraction over `m.den`. -/
def signedNum (negative : Bool) (m : Scaled) : Int :=
  if negative then -(m.num : Int) else (m.num : Int)

/-- Whether a number is less than an integer. -/
def isLess (x : Binary64) (i : Int) : Bool :=
  match x.reading with
  | .finite negative m => signedNum negative m < i * (m.den : Int)
  | .infinite negative => negative
  | .notANumber => false

/-- Whether a number is at most an integer. -/
def isAtMost (x : Binary64) (i : Int) : Bool :=
  match x.reading with
  | .finite negative m => signedNum negative m ≤ i * (m.den : Int)
  | .infinite negative => negative
  | .notANumber => false

/-- Whether a number is at least an integer. -/
def isAtLeast (x : Binary64) (i : Int) : Bool :=
  match x.reading with
  | .finite negative m => i * (m.den : Int) ≤ signedNum negative m
  | .infinite negative => !negative
  | .notANumber => false

/-- Whether the bits stand for a NaN. -/
def isNaN (x : Binary64) : Bool := x.reading == .notANumber

/-- The value that is not a number. -/
def nan : Binary64 := ⟨0x7ff8000000000000⟩

/-- The double nearest to the sum of two finite numbers. A sum of zero is negative only if both
numbers are. -/
def sumFinite (xNegative : Bool) (x : Scaled) (yNegative : Bool) (y : Scaled) : Binary64 :=
  let num := signedNum xNegative x * (y.den : Int) + signedNum yNegative y * (x.den : Int)
  ofRatio (if num = 0 then xNegative && yNegative else num < 0) num.natAbs (x.den * y.den)

/-- The double nearest to the difference of two doubles. -/
def sub (x y : Binary64) : Binary64 :=
  match x.reading, y.reading with
  | .finite xNegative m, .finite yNegative k => sumFinite xNegative m (!yNegative) k
  | .notANumber, _ => x
  | _, .notANumber => y
  | .infinite a, .infinite b => if a = b then nan else x
  | .infinite _, _ => x
  | _, .infinite b => ofMagnitude (!b) none

/-- The double nearest to a double and one more. -/
def succ (x : Binary64) : Binary64 :=
  match x.reading with
  | .finite negative m => sumFinite negative m false ⟨1, 0⟩
  | _ => x

/-- Equality of numbers: both zeros are one number. Two not-a-number values are the same if they
carry the same payload, which tells where they came from. -/
def same (x y : Binary64) : Bool := x == y || (x.toInt? == some 0 && y.toInt? == some 0)

end Binary64

end TensorGraph.Number
