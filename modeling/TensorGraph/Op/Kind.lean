/-!
# Operator kinds

The operators that a node can stand for, with the names they go by.
-/

namespace TensorGraph

/-- The kind of operation that a node performs. -/
inductive OpKind where
  | input
  | output
  | constant
  | matMul
  | add
  | mul
  | conv2d
  | batchNorm
  | layerNorm
  | relu
  | gelu
  | sigmoid
  | softmax
  | maxPool2d
  | avgPool2d
  | globalAvgPool
  | reshape
  | transpose
  | flatten
  | concat
  | split
  | reduceSum
  | reduceMean
  | fusedConvNormRelu
  | fusedLinear
  | fusedMatMulAdd
deriving DecidableEq, Repr

namespace OpKind

/-- All kinds, in the order of the catalogue. -/
def all : List OpKind :=
  [.input, .output, .constant, .matMul, .add, .mul, .conv2d, .batchNorm, .layerNorm, .relu, .gelu,
   .sigmoid, .softmax, .maxPool2d, .avgPool2d, .globalAvgPool, .reshape, .transpose, .flatten,
   .concat, .split, .reduceSum, .reduceMean, .fusedConvNormRelu, .fusedLinear, .fusedMatMulAdd]

/-- The name of a kind. -/
def label : OpKind → String
  | .input => "Input"
  | .output => "Output"
  | .constant => "Constant"
  | .matMul => "MatMul"
  | .add => "Add"
  | .mul => "Mul"
  | .conv2d => "Conv2D"
  | .batchNorm => "BatchNorm"
  | .layerNorm => "LayerNorm"
  | .relu => "ReLU"
  | .gelu => "GELU"
  | .sigmoid => "Sigmoid"
  | .softmax => "Softmax"
  | .maxPool2d => "MaxPool2D"
  | .avgPool2d => "AvgPool2D"
  | .globalAvgPool => "GlobalAvgPool"
  | .reshape => "Reshape"
  | .transpose => "Transpose"
  | .flatten => "Flatten"
  | .concat => "Concat"
  | .split => "Split"
  | .reduceSum => "ReduceSum"
  | .reduceMean => "ReduceMean"
  | .fusedConvNormRelu => "FusedConvBNReLU"
  | .fusedLinear => "FusedLinear"
  | .fusedMatMulAdd => "FusedMatMulAdd"

/-- The kind of a name. -/
def ofLabel? (s : String) : Option OpKind := all.find? (·.label == s)

/-- What fresh names of nodes of a kind start with: its name in lower case. -/
def stem (k : OpKind) : String := k.label.toLower

end OpKind

end TensorGraph
