import TensorGraph.Op.Kind

/-!
# The operator catalogue

Each kind of operator has one entry: how many inputs it takes, how many outputs it has, whether it
can overwrite its input, and the formula that its output type and cost follow.
-/

namespace TensorGraph

/-- What an operator is for. -/
inductive Category where
  | io
  | linear
  | conv
  | norm
  | activation
  | pool
  | shape
  | reduce
  | fused
deriving DecidableEq, Repr

/-- The name of a category. -/
def Category.label : Category → String
  | .io => "io"
  | .linear => "linear"
  | .conv => "conv"
  | .norm => "norm"
  | .activation => "activation"
  | .pool => "pool"
  | .shape => "shape"
  | .reduce => "reduce"
  | .fused => "fused"

/-- The rule by which an operator's output type and cost are computed. Kinds without a rule of their
own pass the type of their first input through at no cost. -/
inductive Formula where
  | passThrough
  | source
  | convolution
  | matrixProduct
  | normalisation
  | elementwise
  | softmax
  | pooling
  | globalPooling
  | flattening
  | reshaping
  | transposition
  | concatenation
  | reduction
deriving DecidableEq, Repr

/-- The catalogue entry of an operator kind. -/
structure Signature where
  leastInputs : Nat
  mostInputs : Nat
  outputs : Nat
  description : String
  category : Category
  formula : Formula
  inPlace : Bool := false
deriving DecidableEq, Repr

/-- Whether an operator can have this many inputs. -/
def Signature.accepts (s : Signature) (inputs : Int) : Bool :=
  s.leastInputs ≤ inputs && inputs ≤ s.mostInputs

/-- The catalogue. -/
def OpKind.signature : OpKind → Signature
  | .input => ⟨0, 0, 1, "Model input tensor", .io, .source, false⟩
  | .output => ⟨1, 1, 0, "Model output tensor", .io, .passThrough, false⟩
  | .constant => ⟨0, 0, 1, "Constant tensor value", .io, .source, false⟩
  | .matMul => ⟨2, 2, 1, "Matrix multiplication", .linear, .matrixProduct, false⟩
  | .add => ⟨2, 2, 1, "Element-wise addition", .linear, .elementwise, false⟩
  | .mul => ⟨2, 2, 1, "Element-wise multiplication", .linear, .elementwise, false⟩
  | .conv2d => ⟨1, 3, 1, "2D convolution", .conv, .convolution, false⟩
  | .batchNorm => ⟨1, 1, 1, "Batch normalization", .norm, .normalisation, true⟩
  | .layerNorm => ⟨1, 1, 1, "Layer normalization", .norm, .normalisation, true⟩
  | .relu => ⟨1, 1, 1, "Rectified linear unit", .activation, .elementwise, true⟩
  | .gelu => ⟨1, 1, 1, "Gaussian error linear unit", .activation, .elementwise, true⟩
  | .sigmoid => ⟨1, 1, 1, "Sigmoid activation", .activation, .elementwise, true⟩
  | .softmax => ⟨1, 1, 1, "Softmax normalization", .activation, .softmax, false⟩
  | .maxPool2d => ⟨1, 1, 1, "2D max pooling", .pool, .pooling, false⟩
  | .avgPool2d => ⟨1, 1, 1, "2D average pooling", .pool, .pooling, false⟩
  | .globalAvgPool => ⟨1, 1, 1, "Global average pooling", .pool, .globalPooling, false⟩
  | .reshape => ⟨1, 1, 1, "Reshape tensor", .shape, .reshaping, false⟩
  | .transpose => ⟨1, 1, 1, "Transpose tensor dimensions", .shape, .transposition, false⟩
  | .flatten => ⟨1, 1, 1, "Flatten tensor to 2D", .shape, .flattening, false⟩
  | .concat => ⟨2, 16, 1, "Concatenate tensors", .shape, .concatenation, false⟩
  | .split => ⟨1, 1, 4, "Split tensor", .shape, .passThrough, false⟩
  | .reduceSum => ⟨1, 1, 1, "Sum reduction", .reduce, .reduction, false⟩
  | .reduceMean => ⟨1, 1, 1, "Mean reduction", .reduce, .reduction, false⟩
  | .fusedConvNormRelu =>
    ⟨1, 3, 1, "Fused Conv2D + BatchNorm + ReLU", .fused, .convolution, false⟩
  | .fusedLinear => ⟨1, 1, 1, "Fused MatMul + Add (linear layer)", .fused, .matrixProduct, false⟩
  | .fusedMatMulAdd => ⟨2, 3, 1, "Fused MatMul + Add", .fused, .matrixProduct, false⟩

end TensorGraph
