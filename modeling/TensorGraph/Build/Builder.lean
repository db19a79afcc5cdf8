import TensorGraph.Build.NewNode
import TensorGraph.Figure

/-!
# Building graphs step by step

A `Builder` holds a graph and the number of names it has made up for each kind of node. Each step
adds a node fed by earlier ones and answers its id. A step that fails leaves the graph as it was;
names and ids that it has used up stay used.
-/

namespace TensorGraph

/-- A graph under construction. `nameCounts` is a dictionary with the number of names made up so far
for each stem. -/
structure Builder where
  graph : Graph
  nameCounts : Datum := .dict []
deriving DecidableEq, Repr

/-- The outcome of a building step: the id of the new node or the cause of failure, and what to go
on with. -/
abbrev BuildStep := Except Error String × Builder × IdSource

namespace Builder

/-- Start a graph. -/
def create (name description : Label) (ids : IdSource) : Builder × IdSource :=
  let (g, ids) := Graph.create name description ids
  (⟨g, .dict []⟩, ids)

/-- One more than the number of names made up for a stem, and the counts with that number. -/
def countName (counts : Datum) (stem : String) : Except Error (Datum × Datum) := do
  let entries ← counts.entries
  let n ← Figure.succ ((entries.lookup stem).getD (.int 0))
  return (n, .dict (Dict.setEntries stem n entries))

/-- A name made up for a node of a kind: the kind's stem with the next number. -/
def freshName (b : Builder) (kind : OpKind) : Except Error Label × Builder :=
  match countName b.nameCounts kind.stem with
  | .error cause => (.error cause, b)
  | .ok (n, counts) =>
    ((Figure.plain n).map fun text => .str (kind.stem ++ text), { b with nameCounts := counts })

/-- The name given for a node of a kind, or a fresh one if none is given. -/
def nameFor (b : Builder) (kind : OpKind) (given : Label) : Except Error Label × Builder :=
  match given.truth with
  | .error cause => (.error cause, b)
  | .ok true => (.ok given, b)
  | .ok false => b.freshName kind

/-- A reference to a port of a node that must exist. -/
def existing (b : Builder) (node index : Datum) : Except Error Endpoint := do
  node.checkKey
  match node with
  | .str id => if b.graph.nodes.contains id then return ⟨id, index⟩ else throw (.unknownSource node)
  | _ => throw (.unknownSource node)

/-- The port that a source refers to: a node's id alone or in a list, possibly followed by a port
index. -/
def resolve (b : Builder) (source : Datum) : Except Error Endpoint :=
  match source with
  | .str _ => b.existing source (.int 0)
  | _ =>
    match source.members? with
    | some [node] => b.existing node (.int 0)
    | some [node, index] => b.existing node index
    | _ => .error .notASource

/-- Add a node fed by the given ports. -/
def addNode (b : Builder) (kind : OpKind) (refs : List Endpoint) (name : Label)
    (type : Option TensorType) (attrs : List (String × Datum)) (ids : IdSource) : BuildStep :=
  match b.nameFor kind name with
  | (.error cause, b) => (.error cause, b, ids)
  | (.ok label, b) =>
    let given := attrs.filter fun entry => !(entry.2 matches .null)
    let (made, ids) := makeNode kind label (.int refs.length) type (.dict given) ids
    match made.bind fun node => (b.graph.addNode node).map fun g => (node.id, g) with
    | .error cause => (.error cause, b, ids)
    | .ok (id, g) =>
      let (g, ids) := g.connect id 0 ids refs
      (.ok id, { b with graph := g }, ids)

/-- Add a node of a kind fed by the given sources. -/
def add (b : Builder) (kind : OpKind) (sources : List Datum) (name : Label)
    (type : Option TensorType) (attrs : List (String × Datum)) (ids : IdSource) : BuildStep :=
  match sources.mapM b.resolve with
  | .error cause => (.error cause, b, ids)
  | .ok refs => b.addNode kind refs name type attrs ids

/-- Add a model input. -/
def input (b : Builder) (name : Label) (shape element : Datum) (ids : IdSource) :
    BuildStep :=
  match TensorType.ofMembers element shape with
  | .error cause => (.error cause, b, ids)
  | .ok type => b.add .input [] name (some type) [] ids

/-- Add a constant, with a type if a shape is given. -/
def constant (b : Builder) (name : Label) (shape element : Datum) (ids : IdSource) :
    BuildStep :=
  match shape with
  | .null => b.add .constant [] name none [] ids
  | _ =>
    match TensorType.ofMembers element shape with
    | .error cause => (.error cause, b, ids)
    | .ok type => b.add .constant [] name (some type) [] ids

/-- Add a model output, named after its source unless a name is given. -/
def output (b : Builder) (source : Datum) (name : Label) (ids : IdSource) : BuildStep :=
  match b.resolve source with
  | .error cause => (.error cause, b, ids)
  | .ok ref =>
    match name.truth with
    | .error cause => (.error cause, b, ids)
    | .ok true => b.addNode .output [ref] name none [] ids
    | .ok false =>
      b.addNode .output [ref] (.str ("output_" ++ (b.graph.nameOf ref.node).toName)) none [] ids

/-- Add an operator. The kind is looked at first. -/
def op (b : Builder) (kind : Datum) (sources : List Datum) (name : Label)
    (attrs : List (String × Datum)) (ids : IdSource) : BuildStep :=
  match OpKind.ofDatum kind with
  | .error cause => (.error cause, b, ids)
  | .ok k => b.add k sources name none attrs ids

/-- Add a convolution. The number of filters may be nothing: as many as the input has channels. -/
def conv2d (b : Builder) (source filters kernel stride padding : Datum) (name : Label)
    (ids : IdSource) : BuildStep :=
  b.add .conv2d [source] name none
    [("filters", filters), ("kernel", kernel), ("stride", stride), ("padding", padding)] ids

end Builder

end TensorGraph
