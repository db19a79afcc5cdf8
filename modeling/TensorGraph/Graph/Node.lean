import TensorGraph.Op.Cost

/-!
# Nodes

A node is one operation: its kind, a name, ports with optional types, the operator's attributes, and
annotations. Annotations record what later stages found out about a node; no operator reads them.
-/

namespace TensorGraph

/-- A place where a value enters or leaves a node. -/
structure Port where
  name : Label
  type : Option TensorType := none
deriving DecidableEq, Repr

/-- The same port with another type. -/
def Port.withType (p : Port) (type : Option TensorType) : Port := { p with type := type }

/-- Equality of ports. -/
def Port.same (p q : Port) : Bool := p.name.same q.name && p.type == q.type

/-- The kind and name of an operation that has been replaced. -/
structure Origin where
  kind : OpKind
  name : Label
deriving DecidableEq, Repr

/-- Equality of origins. -/
def Origin.same (a b : Origin) : Bool := a.kind == b.kind && a.name.same b.name

/-- Where the buffer of a node's output lies: its offset and bytes, and the ranks between which it
is live. A node that works in place reports the buffer it overwrites and no bytes of its own. -/
structure Placement where
  node : String
  offset : Int
  size : Int
  birth : Int
  death : Int
  inPlace : Bool
deriving DecidableEq, Repr

/-- A remark attached to a node. -/
inductive Annotation where
  | foldedFrom (origin : Origin)
  | fusedFrom (origins : List Origin)
  | memory (placement : Placement)
  | note (value : Datum)
deriving DecidableEq, Repr

/-- Equality of annotations, numbers in notes being compared as numbers. -/
def Annotation.same : Annotation → Annotation → Bool
  | .foldedFrom a, .foldedFrom b => a.same b
  | .fusedFrom a, .fusedFrom b => allSame Origin.same a b
  | .memory a, .memory b => a == b
  | .note a, .note b => a.same b
  | _, _ => false

/-- One operation of a graph. -/
structure Node where
  id : String
  op : OpKind
  name : Label
  inputs : List Port := []
  outputs : List Port := []
  attrs : Attributes := Dict.empty
  annotations : Dict Annotation := Dict.empty
deriving DecidableEq, Repr

namespace Node

/-- The type at the first output port. -/
def outputType (n : Node) : Option TensorType :=
  match n.outputs with
  | [] => none
  | port :: _ => port.type

/-- The node with annotations set. -/
def annotate (n : Node) (items : List (String × Annotation)) : Node :=
  { n with annotations := n.annotations.setAll items }

/-- The types at the input ports. -/
def inputTypes (n : Node) : InputTypes := n.inputs.map Port.type

/-- The type of the node's output, given the types of its inputs. -/
def infer (n : Node) (inputs : InputTypes) : Except Error (Option TensorType) :=
  n.op.signature.formula.infer n.attrs n.outputType inputs

/-- Arithmetic operations that the node performs. -/
def operations (n : Node) : Except Error Int :=
  n.op.signature.formula.operations n.attrs n.inputTypes n.outputType

/-- Trained parameters that the node holds. -/
def parameters (n : Node) : Except Error Int :=
  n.op.signature.formula.parameters n.attrs n.inputTypes n.outputType

/-- What the node leaves behind when it is replaced. -/
def origin (n : Node) : Origin := ⟨n.op, n.name⟩

/-- Equality of nodes, attributes and annotations being compared whatever their order. -/
def same (a b : Node) : Bool :=
  a.id == b.id && a.op == b.op && a.name.same b.name && allSame Port.same a.inputs b.inputs
    && allSame Port.same a.outputs b.outputs && a.attrs.sameBy Attribute.same b.attrs
    && a.annotations.sameBy Annotation.same b.annotations

end Node

end TensorGraph
