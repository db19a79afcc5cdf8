import TensorGraph.Graph.Basic

/-!
# New nodes

A new node has the ports that the catalogue prescribes for its kind. Ids are drawn from a counter
that is never turned back: a step that fails after drawing an id has used it up, so such steps
return the counter beside their result.
-/

namespace TensorGraph

/-- The input ports of a new node. -/
def inputPorts (kind : OpKind) (count : Nat) : List Port :=
  if kind = .output then [⟨.str "input", none⟩]
  else (List.range count).map fun (i : Nat) => ⟨.str ("input_" ++ Text.Integer.write i), none⟩

/-- The output ports of a new node. -/
def outputPorts (kind : OpKind) (type : Option TensorType) : List Port :=
  let count := kind.signature.outputs
  if count = 1 then [⟨.str "output", type⟩]
  else (List.range count).map fun (i : Nat) => ⟨.str ("output_" ++ Text.Integer.write i), type⟩

/-- One attribute given as a pair of a key and a value. -/
def attributePair (item : Datum) : Except Error (Datum × Datum) := do
  let pair ← item.pair
  pair.1.checkKey
  return pair

/-- Set a key among pairs: an equal key keeps its place and spelling and gets the new value. -/
def setPair (key value : Datum) : List (Datum × Datum) → List (Datum × Datum)
  | [] => [(key, value)]
  | (k, v) :: rest => if k.same key then (k, value) :: rest else (k, v) :: setPair key value rest

/-- The entries of a dictionary or of a collection of pairs. Of pairs with equal keys the last value
counts, under the first key's name. -/
def pairEntries (d : Datum) : Except Error (List (String × Datum)) :=
  match d with
  | .dict entries => .ok entries
  | _ => do
    let items ← d.members
    let pairs ← items.mapM attributePair
    let distinct := pairs.foldl (fun found pair => setPair pair.1 pair.2 found) []
    return distinct.map fun pair => (pair.1.toName, pair.2)

/-- A value that counts as given, or no attributes in its place. -/
def givenAttributes (attrs : Datum) : Except Error Datum := do
  if ← attrs.truth then return attrs else return .dict []

/-- Attributes given as a dictionary, as pairs, or not at all. -/
def attributeEntries (attrs : Datum) : Except Error (List (String × Datum)) := do
  let given ← givenAttributes attrs
  pairEntries given

/-- A node with the given id and the ports of its kind. -/
def layOutNode (kind : OpKind) (name : Label) (inputs : Nat) (type : Option TensorType)
    (attrs : Datum) (id : String) : Except Error Node := do
  let entries ← attributeEntries attrs
  let attrs ← Attributes.ofEntries entries
  return ⟨id, kind, name, inputPorts kind inputs, outputPorts kind type, attrs, Dict.empty⟩

/-- Whether an operator can have as many inputs as a number says. -/
def Signature.acceptsCount (s : Signature) (inputs : Datum) : Except Error Bool :=
  inputs.isWithin s.leastInputs s.mostInputs

@[simp] theorem Signature.acceptsCount_int (s : Signature) (n : Int) :
    s.acceptsCount (.int n) = .ok (s.accepts n) := rfl

/-- The number of input ports that a node of a kind gets when it is asked for with a number of
inputs. The number must be one that the kind accepts, and an integer unless the ports of the kind
are fixed. -/
def portCount (kind : OpKind) (name : Label) (inputs : Datum) : Except Error Nat := do
  let signature := kind.signature
  if ← signature.acceptsCount inputs then
    if kind = .output then return 1
    let count ← inputs.whole
    return count.toNat
  else throw (.wrongArity kind name signature.leastInputs signature.mostInputs inputs)

/-- Make a node with a fresh id. The number of inputs is checked before the id is drawn, the
attributes after it. -/
def makeNode (kind : OpKind) (name : Label) (inputs : Datum) (type : Option TensorType)
    (attrs : Datum) (ids : IdSource) : Except Error Node × IdSource :=
  match portCount kind name inputs with
  | .error cause => (.error cause, ids)
  | .ok count =>
    let (id, ids) := ids.next "n"
    (layOutNode kind name count type attrs id, ids)

/-- The operator kind that a piece of data names. -/
def OpKind.ofDatum (d : Datum) : Except Error OpKind :=
  match d with
  | .str s =>
    match OpKind.ofLabel? s with
    | some k => .ok k
    | none => .error (.unknownOperator d)
  | _ => .error (.unknownOperator d)

/-- Add edges with fresh ids from the given ports to the input ports of a node, starting at a port
index. -/
def Graph.connect (g : Graph) (target : String) (index : Nat) (ids : IdSource) :
    List Endpoint → Graph × IdSource
  | [] => (g, ids)
  | source :: rest =>
    let (id, ids) := ids.next "e"
    (g.addEdge ⟨id, source, ⟨target, .int index⟩, none⟩).connect target (index + 1) ids rest

end TensorGraph
