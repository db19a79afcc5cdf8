import TensorGraph.Op.Inference

/-!
# Costs of operators

Estimates of the arithmetic operations that an operator performs and of the trained parameters that
it holds. An untyped input counts as a dimension of 1; an untyped output costs nothing.
-/

namespace TensorGraph

/-- The second dimension of a type, 1 if it has none. -/
def channels (t : Option TensorType) : Nat :=
  match t with
  | some t => t.shape.getD 1 1
  | none => 1

/-- The last dimension of a type, 1 if it has none. -/
def features (t : Option TensorType) : Nat :=
  match t with
  | some t => t.shape.getLast?.getD 1
  | none => 1

/-- A number of operations for each element of a typed output. -/
def perElement (operations : Int) (output : Option TensorType) : Except Error Int :=
  match output with
  | none => return 0
  | some t => do
    let count ← t.elementCount
    return count * operations

/-- Arithmetic operations that an operator performs. -/
def Formula.operations (f : Formula) (attrs : Attributes) (inputs : InputTypes)
    (output : Option TensorType) : Except Error Int :=
  match f with
  | .convolution =>
    match output with
    | none => return 0
    | some t => do
      let kernel ← attrs.int "kernel" 3
      let count ← t.elementCount
      return count * channels inputs.first * kernel * kernel * 2
  | .matrixProduct => perElement (features inputs.first * 2) output
  | .normalisation => perElement 4 output
  | .elementwise => perElement 1 output
  | .softmax => perElement 3 output
  | _ => return 0

/-- Trained parameters that an operator holds. -/
def Formula.parameters (f : Formula) (attrs : Attributes) (inputs : InputTypes)
    (output : Option TensorType) : Except Error Int :=
  match f with
  | .convolution => do
    let filters ← attrs.int "filters" (channels inputs.first)
    let kernel ← attrs.int "kernel" 3
    return filters * channels inputs.first * kernel * kernel + filters
  | .matrixProduct => return features inputs.first * features output + features output
  | .normalisation => return channels inputs.first * 4
  | _ => return 0

end TensorGraph
