import TensorGraph.Build.NewNode

/-!
# Graphs from model descriptions

A model description is a dictionary with a name, a description, a list of node definitions and a
list of outputs. Each definition has a name, an operator kind, the names of the nodes it reads, and
possibly a type and attributes. Definitions may refer to later ones. `Graph.ofModel` makes the nodes
in order, then the edges, then an output node for each output.
-/

namespace TensorGraph

/-- A node definition, read as far as its own fields go. `given` is the name as written. -/
structure Definition where
  given : Datum
  kind : OpKind
  inputs : List Datum
  type : Option TensorType
  attrs : Datum
deriving DecidableEq, Repr

/-- The value of a key that a definition must have. -/
def Datum.requiredField (key : String) (d : Datum) : Except Error Datum :=
  match d with
  | .dict entries =>
    match entries.lookup key with
    | some v => .ok v
    | none => .error (.missingKey key)
  | _ => .error .notADefinition

/-- The members of an optional list, none if it is absent. -/
def Datum.optionalMembers (key : String) (d : Datum) : Except Error (List Datum) :=
  match d.field? key with
  | none => .ok []
  | some v => v.members

/-- A declared type: nothing, or a dictionary with a shape and possibly an element type. -/
def TensorType.ofDeclaration (d : Datum) : Except Error (Option TensorType) :=
  match d with
  | .null => return none
  | .dict entries => do
    let element ← ElementType.ofDatum ((entries.lookup "dtype").getD (.str "float32"))
    let shape ← d.requiredField "shape"
    let dims ← Shape.ofDatum shape
    return some ⟨element, dims⟩
  | _ => .error (.notATensorType d)

/-- Read the fields of a definition other than its name. -/
def Definition.ofDatum (given d : Datum) : Except Error Definition := do
  let op ← d.requiredField "op"
  let kind ← OpKind.ofDatum op
  let inputs ← d.optionalMembers "inputs"
  let type ← TensorType.ofDeclaration ((d.field? "tensor_type").getD .null)
  let attrs ← givenAttributes ((d.field? "attributes").getD .null)
  return ⟨given, kind, inputs, type, attrs⟩

/-- A model under construction: the graph, the ids by name, and the definitions read. -/
structure Draft where
  graph : Graph
  names : Dict String := Dict.empty
  definitions : List Definition := []
deriving DecidableEq, Repr

namespace Draft

/-- Read a definition whose name must be new. -/
def readDefinition (draft : Draft) (d : Datum) : Except Error Definition := do
  let given ← d.requiredField "name"
  if draft.names.contains given.toName then throw (.duplicateName given.toName)
  Definition.ofDatum given d

/-- Make the node of a definition. -/
def define (draft : Draft) (d : Datum) (ids : IdSource) : Except Error Draft × IdSource :=
  match draft.readDefinition d with
  | .error cause => (.error cause, ids)
  | .ok definition =>
    let name := definition.given.toName
    let (made, ids) :=
      makeNode definition.kind (.str name) (.int definition.inputs.length) definition.type
        definition.attrs ids
    let next := do
      let node ← made
      let g ← draft.graph.addNode node
      return ⟨g, draft.names.set name node.id, draft.definitions ++ [definition]⟩
    (next, ids)

/-- Make the nodes of definitions in turn. -/
def defineAll (draft : Draft) (ids : IdSource) : List Datum → Except Error Draft × IdSource
  | [] => (.ok draft, ids)
  | d :: rest =>
    match draft.define d ids with
    | (.error cause, ids) => (.error cause, ids)
    | (.ok next, ids) => next.defineAll ids rest

/-- The id of the node that a reference names, if there is one. -/
def lookup (names : Dict String) (reference : Datum) : Except Error (Option String) := do
  reference.checkKey
  match reference with
  | .str s => return names.get? s
  | _ => return none

/-- Connect the inputs of a node, starting at a port index. -/
def connectInputs (names : Dict String) (given : Datum) (target : String) (g : Graph) (index : Nat)
    (ids : IdSource) : List Datum → Except Error Graph × IdSource
  | [] => (.ok g, ids)
  | reference :: rest =>
    match lookup names reference with
    | .error cause => (.error cause, ids)
    | .ok none => (.error (.unknownReference given reference), ids)
    | .ok (some source) =>
      let (id, ids) := ids.next "e"
      connectInputs names given target
        (g.addEdge ⟨id, ⟨source, .int 0⟩, ⟨target, .int index⟩, none⟩)
        (index + 1) ids rest

/-- Connect the nodes of definitions in turn. -/
def connectAll (names : Dict String) (g : Graph) (ids : IdSource) :
    List Definition → Except Error Graph × IdSource
  | [] => (.ok g, ids)
  | d :: rest =>
    match names.get? d.given.toName with
    | none => (.error (.unknownNode d.given.toName), ids)
    | some target =>
      match connectInputs names d.given target g 0 ids d.inputs with
      | (.error cause, ids) => (.error cause, ids)
      | (.ok next, ids) => connectAll names next ids rest

/-- Add an output node for each reference. -/
def addOutputs (names : Dict String) (g : Graph) (ids : IdSource) :
    List Datum → Except Error Graph × IdSource
  | [] => (.ok g, ids)
  | reference :: rest =>
    match lookup names reference with
    | .error cause => (.error cause, ids)
    | .ok none => (.error (.unknownOutput reference), ids)
    | .ok (some source) =>
      let (made, ids) :=
        makeNode .output (.str ("output_" ++ reference.toName)) (.int 1) none .null ids
      match made.bind fun sink => (g.addNode sink).map fun next => (sink.id, next) with
      | .error cause => (.error cause, ids)
      | .ok (sink, next) =>
        let (next, ids) := next.connect sink 0 ids [⟨source, .int 0⟩]
        addOutputs names next ids rest

end Draft

/-- Build the graph of a description that is a dictionary. -/
def Draft.build (model : Datum) (ids : IdSource) : Except Error Graph × IdSource :=
  let name := ((model.field? "name").getD (.str "graph")).toName
  let description := ((model.field? "description").getD (.str "")).toName
  let (g, ids) := Graph.create (.str name) (.str description) ids
  match model.optionalMembers "nodes" with
  | .error cause => (.error cause, ids)
  | .ok definitions =>
    match (Draft.mk g Dict.empty []).defineAll ids definitions with
    | (.error cause, ids) => (.error cause, ids)
    | (.ok draft, ids) =>
      match Draft.connectAll draft.names draft.graph ids draft.definitions with
      | (.error cause, ids) => (.error cause, ids)
      | (.ok connected, ids) =>
        match model.optionalMembers "outputs" with
        | .error cause => (.error cause, ids)
        | .ok outputs => Draft.addOutputs draft.names connected ids outputs

/-- The graph that a model description stands for. -/
def Graph.ofModel (model : Datum) (ids : IdSource) : Except Error Graph × IdSource :=
  match model with
  | .dict _ => Draft.build model ids
  | _ => (.error .notADictionary, ids)

end TensorGraph
