import TensorGraph.Datum.Equality
import TensorGraph.Op.Kind
import TensorGraph.Text.Column
import TensorGraph.Text.IntegerList

/-!
# Errors

Everything that can go wrong while a graph is described, built, checked, transformed or planned.
Each constructor is one cause; `Error.message` is the wording, where the cause has one.
-/

namespace TensorGraph

/-- What is wrong with one edge of a graph. -/
inductive EdgeFault where
  | repeatedId (edge : String)
  | unknownSource (edge node : String)
  | noOutputPort (edge : String) (nodeName : Label) (index : Datum)
  | unknownTarget (edge node : String)
  | noInputPort (edge : String) (nodeName : Label) (index : Datum)
deriving DecidableEq, Repr

/-- The line that reports a fault. -/
def EdgeFault.message : EdgeFault → String
  | .repeatedId edge => "duplicate edge id " ++ edge
  | .unknownSource edge node => edge ++ ": unknown source node " ++ node
  | .noOutputPort edge name index =>
    edge ++ ": source " ++ name.toName ++ " has no output port " ++ index.toName
  | .unknownTarget edge node => edge ++ ": unknown target node " ++ node
  | .noInputPort edge name index =>
    edge ++ ": target " ++ name.toName ++ " has no input port " ++ index.toName

/-- The cause of a failure. -/
inductive Error where
  /-- A text, or a value that is not a number, was read as an integer. -/
  | notAnInteger
  /-- An infinite number was read as an integer. -/
  | infiniteInteger
  /-- A value of the wrong kind was read as a number. -/
  | notANumber
  /-- A value that has no members was gone through. -/
  | notACollection
  /-- A list, array or dictionary was used as a name or key. -/
  | notAKey
  /-- Something that has to be a pair has another number of members. -/
  | notAPair
  /-- A name that becomes part of a text is no text. -/
  | notAText
  /-- An array that is not a single number was asked for its truth value. -/
  | noTruthValue
  /-- Something that has to be a dictionary is none. -/
  | notADictionary
  /-- The definition of a node is no dictionary. -/
  | notADefinition
  | missingKey (key : String)
  /-- A reference to a value is neither a node id nor a list of an id and a port. -/
  | notASource
  /-- A call lacks an argument, or has one that it does not take. -/
  | wrongArguments
  | unknownElementType
  | unknownKind
  | negativeDimension (shape : List Int)
  /-- A dimension does not fit a machine word, so elements cannot be counted. -/
  | dimensionTooLarge
  /-- A number is too large to be shown as a fraction of a unit. -/
  | numberTooLarge
  /-- A number has too many digits to be shown in full. -/
  | tooManyDigits
  /-- A value cannot be shown in the form that a report asks for. -/
  | notShowable
  | unsupportedAttribute (value : Datum)
  | notATensorType (value : Datum)
  | unknownOperator (value : Datum)
  | wrongArity (kind : OpKind) (name : Label) (least most : Nat) (given : Datum)
  | duplicateNode (id : String)
  | unknownNode (id : String)
  | cannotReplace (id : String)
  | malformed (graph : Label) (faults : List EdgeFault)
  | cyclic (graph : Label) (names : List String)
  | unknownSource (source : Datum)
  | duplicateName (name : String)
  | unknownReference (name reference : Datum)
  | unknownOutput (reference : Datum)
  | emptyChain
  | noSuchPort (index : Int)
  | badAlignment (bytes : Datum)
  | negativeSize (bytes : Datum)
  | notAllocated (offset : Datum)
  /-- A node was to share the buffer of a node that has none. -/
  | noBuffer (id : String)
  | noWorkers
deriving DecidableEq, Repr

/-- The wording of a cause, for the causes that have one. -/
def Error.message : Error → Option String
  | .negativeDimension shape =>
    some ("Negative dimension in shape " ++ Text.IntegerList.write shape)
  | .unsupportedAttribute value =>
    some ("Unsupported attribute value of type " ++ value.kindName ++ ": " ++ value.write)
  | .notATensorType value => some ("Cannot interpret " ++ value.write ++ " as a tensor type")
  | .unknownOperator value => some ("Unknown operator kind " ++ value.write)
  | .wrongArity kind name least most given =>
    some (kind.label ++ " " ++ name.write ++ " expects " ++ Text.Integer.write least
      ++ ".." ++ Text.Integer.write most ++ " inputs, got " ++ given.toName)
  | .duplicateNode id => some ("Duplicate node id: " ++ id)
  | .cannotReplace id => some ("Cannot replace unknown node " ++ Text.Quoted.write id)
  | .malformed graph faults =>
    some ("Graph " ++ graph.write ++ " is malformed:\n"
      ++ Text.unlines (faults.map EdgeFault.message))
  | .cyclic graph names =>
    some ("Graph " ++ graph.write ++ " has a cycle: "
      ++ String.intercalate " -> " names)
  | .unknownSource source => some ("Unknown source node " ++ source.write)
  | .duplicateName name => some ("Duplicate node name " ++ Text.Quoted.write name)
  | .unknownReference name reference =>
    some (name.write ++ " references unknown node " ++ reference.write)
  | .unknownOutput reference => some ("Output references unknown node " ++ reference.write)
  | .badAlignment bytes =>
    some ("alignment must be a positive power of 2, got " ++ bytes.toName)
  | .negativeSize bytes =>
    some ("Allocation size must be non-negative, got " ++ bytes.toName)
  | .notAllocated offset =>
    some ("Cannot release offset " ++ offset.toName
      ++ ": not allocated or already released")
  | _ => none

end TensorGraph
