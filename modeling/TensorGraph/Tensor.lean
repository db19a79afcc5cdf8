import TensorGraph.Datum.Reading
import TensorGraph.ElementType
import TensorGraph.Numeral

/-!
# Tensor types

A tensor type is an element type with a shape, the list of its dimensions. Shapes come from plain
data (`Shape.ofDatum`) or from integers computed elsewhere (`Shape.ofInts`); both refuse a negative
dimension. Elements are counted in 64-bit machine words that wrap around, bytes without a bound.

A dimension from 2 ^ 63 on is a word without a sign. Such words are multiplied here like all others,
also where they stand beside words with a sign. This is an idealisation: array libraries may bring
words of both kinds to floating-point numbers before they multiply them, and then the count of such
a mixed shape is rounded. For dimensions below 2 ^ 63, and for shapes of one kind, it is exact.
-/

namespace TensorGraph

/-- The dimensions of a tensor, outermost first. -/
abbrev Shape := List Nat

namespace Shape

/-- A shape with the given dimensions, none of which may be negative. -/
def ofInts (dims : List Int) : Except Error Shape :=
  if dims.any (· < 0) then .error (.negativeDimension dims) else .ok (dims.map Int.toNat)

/-- A shape from the members of a collection, each read as an integer. -/
def ofItems (items : List Datum) : Except Error Shape := do
  let dims ← items.mapM Datum.toInt
  ofInts dims

/-- A shape from plain data. -/
def ofDatum (d : Datum) : Except Error Shape := do
  let items ← d.members
  ofItems items

/-- Text of a shape: its dimensions in brackets. -/
def write (s : Shape) : Except Error String := Numeral.list (s.map Int.ofNat)

end Shape

/-- The element type that a piece of data names. -/
def ElementType.ofDatum : Datum → Except Error ElementType
  | .str s =>
    match ElementType.ofLabel? s with
    | some e => .ok e
    | none => .error .unknownElementType
  | _ => .error .unknownElementType

/-- The type of a value that flows along an edge. -/
structure TensorType where
  element : ElementType
  shape : Shape
deriving DecidableEq, Repr

namespace TensorType

/-- A tensor type from an element type and dimensions in plain data. The element type is looked at
first. -/
def ofData (element dims : Datum) : Except Error TensorType := do
  let e ← ElementType.ofDatum element
  let s ← Shape.ofDatum dims
  return ⟨e, s⟩

/-- A tensor type from dimensions, which must be a collection, and an element type. The dimensions
are gone through before the element type is looked at and read after it. -/
def ofMembers (element dims : Datum) : Except Error TensorType := do
  let _ ← dims.members
  ofData element dims

/-- The number of dimensions. -/
def rank (t : TensorType) : Nat := t.shape.length

/-- The same element type with another shape. -/
def withShape (t : TensorType) (shape : Shape) : TensorType := { t with shape := shape }

/-- The same element type with the given dimensions, none of which may be negative. -/
def withDims (t : TensorType) (dims : List Int) : Except Error TensorType := do
  let s ← Shape.ofInts dims
  return t.withShape s

/-- The product of the dimensions as a 64-bit word, wrapped around at every step. -/
def wordCount (s : Shape) : Int64 := s.foldl (fun acc d => acc * Int64.ofNat d) 1

/-- The number of values of a machine word. -/
def wordLimit : Nat := 18446744073709551616

/-- The number of elements. Each dimension must fit a machine word; the product wraps around, also
where dimensions below 2 ^ 63 and dimensions from there on stand side by side. -/
def elementCount (t : TensorType) : Except Error Int :=
  if t.shape.any (wordLimit ≤ ·) then .error .dimensionTooLarge else .ok (wordCount t.shape).toInt

/-- The number of bytes: the number of elements times the bytes of one. -/
def byteCount (t : TensorType) : Except Error Int := do
  let count ← t.elementCount
  return count * t.element.byteSize

/-- Text of a tensor type. -/
def write (t : TensorType) : Except Error String := do
  let dims ← Shape.write t.shape
  return "Tensor<" ++ t.element.label ++ ">" ++ dims

end TensorType

end TensorGraph
