import TensorGraph.Attribute
import TensorGraph.Op.Signature

/-!
# Output types of operators

`Formula.infer` computes the type of an operator's output from its parameters and the types of its
inputs; the `Signature` of an operator kind says which formula it follows. The answer `none` defers:
an operand is untyped, or a parameter does not fit it. An error arises only where a parameter cannot
be read as a number, where elements cannot be counted, or where a computed dimension is negative.
-/

namespace TensorGraph

/-- Types at the input ports of an operator; an unfed or untyped port has none. -/
abbrev InputTypes := List (Option TensorType)

/-- The type at the first input port. -/
def InputTypes.first (inputs : InputTypes) : Option TensorType :=
  match inputs with
  | [] => none
  | t :: _ => t

/-- The type at the second input port. -/
def InputTypes.second (inputs : InputTypes) : Option TensorType :=
  match inputs with
  | _ :: t :: _ => t
  | _ => none

/-- The position that an axis names among `rank` dimensions; a negative axis counts from the end. -/
def axisPosition (axis : Int) (rank : Nat) : Option Nat :=
  let position := if axis < 0 then axis + rank else axis
  if 0 ≤ position && position < rank then some position.toNat else none

/-- Length of a convolved dimension: the number of windows of `kernel` that start at multiples of
`stride` and fit into the padded length. -/
def windowCount (length : Nat) (kernel stride padding : Int) : Nat :=
  (Int.fdiv (length + 2 * padding - kernel) stride + 1).toNat

/-- Output type of a convolution over batch, channels, height and width. -/
def inferConvolution (attrs : Attributes) (inputs : InputTypes) :
    Except Error (Option TensorType) :=
  match inputs.first with
  | some x =>
    match x.shape with
    | [n, c, h, w] => do
      let filters ← attrs.int "filters" c
      let kernel ← attrs.int "kernel" 3
      let stride ← attrs.int "stride" 1
      let padding ← attrs.int "padding" 0
      if stride ≤ 0 || filters < 0 then return none
      return some (x.withShape
        [n, filters.toNat, windowCount h kernel stride padding,
          windowCount w kernel stride padding])
    | _ => return none
  | none => return none

/-- Output type of a matrix product: the last dimension of the left operand gives way to that of the
right one. Without a typed right operand the left type passes through. -/
def inferMatrixProduct (inputs : InputTypes) : Option TensorType :=
  match inputs.first, inputs.second with
  | none, _ => none
  | some a, none => some a
  | some a, some b =>
    match a.shape, b.shape.getLast? with
    | [], _ => none
    | _, none => none
    | dims, some last => some (a.withShape (dims.dropLast ++ [last]))

/-- Output type of a pooling: height and width divided by the stride, which is the kernel if not
given. -/
def inferPooling (attrs : Attributes) (inputs : InputTypes) : Except Error (Option TensorType) :=
  match inputs.first with
  | some x =>
    match x.shape with
    | [n, c, h, w] => do
      let kernel ← attrs.int "kernel" 2
      let stride ← attrs.int "stride" kernel
      if stride ≤ 0 then return none
      return some (x.withShape [n, c, h / stride.toNat, w / stride.toNat])
    | _ => return none
  | none => return none

/-- Output type of a global pooling: every dimension after the second becomes 1. -/
def inferGlobalPooling (inputs : InputTypes) : Option TensorType :=
  inputs.first.map fun x =>
    if x.rank < 2 then x
    else x.withShape (x.shape.take 2 ++ List.replicate (x.rank - 2) 1)

/-- Output type of a flattening: the first dimension, then the product of the others. -/
def inferFlattening (inputs : InputTypes) : Option TensorType :=
  inputs.first.map fun x =>
    match x.shape with
    | [] => x
    | d :: rest => x.withShape [d, rest.foldl (· * ·) 1]

/-- Fill the one entry -1 of a target shape so that the dimensions multiply to `count`. A target
without -1 stands as it is. There is no answer for a target with entries below -1 or several -1, or
when the known dimensions multiply to 0 or do not divide `count`. -/
def resolveTarget (target : List Int) (count : Int) : Option (List Int) :=
  if target.any (· < -1) then none
  else
    match (target.filter (· == -1)).length with
    | 0 => some target
    | 1 =>
      let known := (target.filter (· != -1)).foldl (· * ·) 1
      if known == 0 || Int.fmod count known != 0 then none
      else some (target.map fun d => if d == -1 then Int.fdiv count known else d)
    | _ => none

/-- Output type of a reshaping. Without a target the type passes through. -/
def inferReshaping (attrs : Attributes) (inputs : InputTypes) : Except Error (Option TensorType) :=
  match inputs.first with
  | none => return none
  | some x =>
    if !attrs.contains "shape" then return some x
    else do
      match ← attrs.ints? "shape" with
      | none => return none
      | some target =>
        let count ← x.elementCount
        match resolveTarget target count with
        | none => return none
        | some dims =>
          let t ← x.withDims dims
          return some t

/-- Whether a list of integers names each of the positions below `rank` exactly once. -/
def isPermutation (perm : List Int) (rank : Nat) : Bool :=
  perm.length == rank && (List.range rank).all fun i => perm.contains (i : Int)

/-- Output type of a transposition. Without a permutation the dimensions are reversed. -/
def inferTransposition (attrs : Attributes) (inputs : InputTypes) :
    Except Error (Option TensorType) :=
  match inputs.first with
  | none => return none
  | some x =>
    if !attrs.contains "perm" then return some (x.withShape x.shape.reverse)
    else do
      match ← attrs.ints? "perm" with
      | none => return none
      | some perm =>
        if isPermutation perm x.rank then
          return some (x.withShape (perm.filterMap fun i => x.shape[i.toNat]?))
        else return none

/-- The sum of one dimension over all typed inputs; `none` if their ranks differ. -/
def sumAlong (position rank : Nat) : InputTypes → Option Nat
  | [] => some 0
  | none :: rest => sumAlong position rank rest
  | some t :: rest =>
    if t.rank = rank then
      (sumAlong position rank rest).map (t.shape.getD position 0 + ·)
    else none

/-- Output type of a concatenation: the dimensions along the axis add up, the others are those of
the first input. Untyped inputs after the first add nothing. -/
def inferConcatenation (attrs : Attributes) (inputs : InputTypes) :
    Except Error (Option TensorType) :=
  match inputs.first with
  | none => return none
  | some x => do
    let axis ← attrs.int "axis" 0
    match axisPosition axis x.rank with
    | none => return none
    | some position =>
      return (sumAlong position x.rank inputs).map fun total =>
        x.withShape (x.shape.set position total)

/-- Output type of a reduction: the axis is dropped; the last dimension to go becomes 1. -/
def inferReduction (attrs : Attributes) (inputs : InputTypes) : Except Error (Option TensorType) :=
  match inputs.first with
  | none => return none
  | some x =>
    if x.rank = 0 then return some (x.withShape [1])
    else do
      let axis ← attrs.int "axis" (-1)
      match axisPosition axis x.rank with
      | none => return none
      | some position =>
        let rest := x.shape.eraseIdx position
        return some (x.withShape (if rest.isEmpty then [1] else rest))

/-- Output type by formula. `declared` is the type that the node itself carries. -/
def Formula.infer (f : Formula) (attrs : Attributes) (declared : Option TensorType)
    (inputs : InputTypes) : Except Error (Option TensorType) :=
  match f with
  | .source => return declared
  | .convolution => inferConvolution attrs inputs
  | .matrixProduct => return inferMatrixProduct inputs
  | .pooling => inferPooling attrs inputs
  | .globalPooling => return inferGlobalPooling inputs
  | .flattening => return inferFlattening inputs
  | .reshaping => inferReshaping attrs inputs
  | .transposition => inferTransposition attrs inputs
  | .concatenation => inferConcatenation attrs inputs
  | .reduction => inferReduction attrs inputs
  | .passThrough => return inputs.first
  | .normalisation => return inputs.first
  | .elementwise => return inputs.first
  | .softmax => return inputs.first

end TensorGraph
