import TensorGraph.Error

/-!
# Reading data

What a piece of data stands for where something definite is asked for: a text, an integer, a count,
a truth value, the members of a collection. Each reader says what is wrong with data of another
kind.
-/

namespace TensorGraph

open Number (Binary64 BinaryFormat)

/-- The integer part of a floating-point number. -/
def Number.Binary64.toInt (x : Binary64) : Except Error Int :=
  match x.reading with
  | .notANumber => .error .notAnInteger
  | .infinite _ => .error .infiniteInteger
  | .finite negative m => .ok (Binary64.truncate negative m)

/-- Read an integer of at most `limit` digits off a text. -/
def integerOfText (limit : Nat) (s : String) : Except Error Int :=
  match Text.Integer.read? limit s with
  | some i => .ok i
  | none => .error .notAnInteger

namespace Datum

/-- The integer that a piece of data stands for: a number without its fraction, or a text that
spells an integer. -/
def toInt : Datum → Except Error Int
  | .bool b => .ok (if b then 1 else 0)
  | .int i => .ok i
  | .float x => x.toInt
  | .str s => integerOfText Text.Integer.digitLimit s
  | _ => .error .notANumber

/-- The integer that a value is, truth values counting as 0 and 1. -/
def whole (d : Datum) : Except Error Int :=
  match d.whole? with
  | some i => .ok i
  | none => .error .notANumber

/-- The double nearest to a number, which must lie in the range of doubles. -/
def toDouble (d : Datum) : Except Error Binary64 :=
  match d with
  | .float x => .ok x
  | _ => do
    let i ← d.whole
    match BinaryFormat.double.nearest i.natAbs 1 with
    | some m => return Binary64.ofMagnitude (i < 0) (some m)
    | none => throw .numberTooLarge

/-- Whether a number is less than an integer. -/
def isLess (d : Datum) (bound : Int) : Except Error Bool :=
  match d with
  | .float x => .ok (x.isLess bound)
  | _ => d.whole.map fun i => decide (i < bound)

/-- Whether a number is at most an integer. -/
def isAtMost (d : Datum) (bound : Int) : Except Error Bool :=
  match d with
  | .float x => .ok (x.isAtMost bound)
  | _ => d.whole.map fun i => decide (i ≤ bound)

/-- Whether a number lies between two integers, ends included. -/
def isWithin (least most : Int) (d : Datum) : Except Error Bool :=
  match d with
  | .float x => .ok (x.isAtLeast least && x.isAtMost most)
  | _ => d.whole.map fun i => least ≤ i && i ≤ most

/-- The members of a collection. -/
def members (d : Datum) : Except Error (List Datum) :=
  match d.members? with
  | some items => .ok items
  | none => .error .notACollection

/-- The two members of a collection that must have two. -/
def pair (d : Datum) : Except Error (Datum × Datum) := do
  match ← d.members with
  | [first, second] => return (first, second)
  | _ => throw .notAPair

/-- The text that a value must be. -/
def text : Datum → Except Error String
  | .str s => .ok s
  | _ => .error .notAText

/-- The truth value of a value that must have one. -/
def truth (d : Datum) : Except Error Bool :=
  match d.truth? with
  | some b => .ok b
  | none => .error .noTruthValue

/-- The entries of a value that must be a dictionary. -/
def entries : Datum → Except Error (List (String × Datum))
  | .dict entries => .ok entries
  | _ => .error .notADictionary

/-- Let a value through that can be a key. -/
def checkKey (d : Datum) : Except Error Unit := if d.isKey then .ok () else .error .notAKey

end Datum

end TensorGraph
