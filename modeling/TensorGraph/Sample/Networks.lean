import TensorGraph.Build.Builder
import TensorGraph.Build.Model

/-!
# Sample networks

Three small networks: a classifier given as a model description, a residual block and a stack of
convolutions made with a builder.
-/

namespace TensorGraph.Sample

/-- Building steps in sequence, up to the first that fails. -/
abbrev Building (α : Type) := ExceptT Error (StateM (Builder × IdSource)) α

/-- One building step. -/
def step (f : Builder → IdSource → BuildStep) : Building String :=
  ExceptT.mk fun state => f state.1 state.2

/-- Build a graph from steps. -/
def build {α : Type} (name : String) (steps : Building α) (ids : IdSource) :
    Except Error Graph × IdSource :=
  let (result, builder, ids) := steps.run (Builder.create (.str name) (.str "") ids)
  (result.map fun _ => builder.graph, ids)

/-- A list of integers as plain data. -/
def ints (dims : List Int) : Datum := .list (dims.map .int)

/-- The usual element type. -/
def float32 : Datum := .str ElementType.float32.label

/-- A model input. -/
def input (name : String) (dims : Datum) : Building String :=
  step fun b ids => b.input (.str name) dims float32 ids

/-- A constant with a type. -/
def constant (name : String) (dims : List Int) : Building String :=
  step fun b ids => b.constant (.str name) (ints dims) float32 ids

/-- An operator without attributes. -/
def op (kind : OpKind) (sources : List String) (name : Label) : Building String :=
  step fun b ids => b.add kind (sources.map .str) name none [] ids

/-- A convolution that keeps height and width. -/
def conv3x3 (source : String) (filters : Datum) (name : String) : Building String :=
  step fun b ids =>
    b.conv2d (.str source) filters (.int 3) (.int 1) (.int 1) (.str name) ids

/-- A model output. -/
def output (source : String) : Building String := step fun b ids => b.output (.str source) .null ids

/-- Two convolutions with a shortcut around them. -/
def residualBlock (channels size : Datum) (ids : IdSource) : Except Error Graph × IdSource :=
  build "ResNetBlock" (do
    let x ← input "x" (.list [.int 1, channels, size, size])
    let h ← conv3x3 x channels "conv1"
    let h ← op .batchNorm [h] (.str "bn1")
    let h ← op .relu [h] (.str "relu1")
    let h ← conv3x3 h channels "conv2"
    let h ← op .batchNorm [h] (.str "bn2")
    let h ← op .add [h, x] (.str "residual")
    let h ← op .relu [h] (.str "relu2")
    output h) ids

/-- Blocks of convolution, normalisation and activation, numbered from `number` on. -/
def convBlocks (h : String) (number : Nat) : Nat → Building String
  | 0 => return h
  | count + 1 => do
    let label := Text.Integer.write number
    let h ← conv3x3 h (.int 16) ("conv" ++ label)
    let h ← op .batchNorm [h] (.str ("bn" ++ label))
    let h ← op .relu [h] (.str ("relu" ++ label))
    convBlocks h (number + 1) count

/-- A stack of convolution blocks with a linear classifier on top. The number of blocks must be an
integer. -/
def convStack (blocks : Datum) (ids : IdSource) : Except Error Graph × IdSource :=
  build ("conv_stack_" ++ blocks.toName) (do
    let x ← input "x" (ints [1, 16, 32, 32])
    let count ← ExceptT.mk (pure blocks.whole)
    let h ← convBlocks x 0 count.toNat
    let h ← op .flatten [h] .null
    let w ← constant "fc_w" [16 * 32 * 32, 10]
    let bias ← constant "fc_b" [1, 10]
    let h ← op .matMul [h, w] .null
    let h ← op .add [h, bias] .null
    let h ← op .softmax [h] .null
    output h) ids

/-- The definition of a node with a type. -/
def typedNode (name kind : String) (dims : List Int) : Datum :=
  .dict [("name", .str name), ("op", .str kind),
    ("tensor_type", .dict [("dtype", float32), ("shape", ints dims)])]

/-- The definition of an operator. -/
def operatorNode (name kind : String) (inputs : List String) : Datum :=
  .dict [("name", .str name), ("op", .str kind), ("inputs", .list (inputs.map .str))]

/-- A classifier with one hidden layer. -/
def classifier : Datum :=
  .dict
    [("name", .str "SimpleMLP"),
     ("description", .str "784 -> 128 -> 10 classifier"),
     ("nodes", .list
       [typedNode "x" "Input" [1, 784],
        typedNode "w1" "Constant" [784, 128],
        typedNode "b1" "Constant" [1, 128],
        operatorNode "h1" "MatMul" ["x", "w1"],
        operatorNode "h1b" "Add" ["h1", "b1"],
        operatorNode "a1" "ReLU" ["h1b"],
        typedNode "w2" "Constant" [128, 10],
        typedNode "b2" "Constant" [1, 10],
        operatorNode "h2" "MatMul" ["a1", "w2"],
        operatorNode "h2b" "Add" ["h2", "b2"],
        operatorNode "probs" "Softmax" ["h2b"]]),
     ("outputs", .list [.str "probs"])]

end TensorGraph.Sample
