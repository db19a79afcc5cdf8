/-!
# Element types

The scalar types that a tensor can hold, with the names they go by and the bytes they take.
-/

namespace TensorGraph

/-- The scalar type of a tensor's elements. -/
inductive ElementType where
  | float32
  | float16
  | int32
  | int64
  | int8
  | uint8
  | bool
deriving DecidableEq, Repr

namespace ElementType

/-- All element types. -/
def all : List ElementType := [.float32, .float16, .int32, .int64, .int8, .uint8, .bool]

/-- The name of an element type. -/
def label : ElementType → String
  | .float32 => "float32"
  | .float16 => "float16"
  | .int32 => "int32"
  | .int64 => "int64"
  | .int8 => "int8"
  | .uint8 => "uint8"
  | .bool => "bool"

/-- Bytes taken by one element. -/
def byteSize : ElementType → Nat
  | .float32 => 4
  | .float16 => 2
  | .int32 => 4
  | .int64 => 8
  | .int8 => 1
  | .uint8 => 1
  | .bool => 1

/-- The element type of a name. -/
def ofLabel? (s : String) : Option ElementType := all.find? (·.label == s)

end ElementType

end TensorGraph
