import TensorGraph.Number.Decimal
import TensorGraph.Text.Quoted

/-!
# Plain data

A model description, a node's annotations and a caller's attribute values are plain data: nothing,
truth values, integers, floating-point numbers, texts, lists, arrays of numbers and dictionaries
with text keys. `Datum.write` is the text of a value inside messages; `Datum.same` is equality of
values, under which truth values, integers and floating-point numbers are compared as numbers.
-/

namespace TensorGraph

open Number (Binary64)

/-- A piece of plain data. -/
inductive Datum where
  | null
  | bool (b : Bool)
  | int (i : Int)
  | float (x : Binary64)
  | str (s : String)
  | list (items : List Datum)
  /-- A possibly nested array of numbers. It has the members of a list but no truth value of its
  own. -/
  | array (items : List Datum)
  | dict (entries : List (String × Datum))
deriving Repr, Inhabited

/-- What the maker of a graph calls a thing: as a rule a text, but any piece of data is kept as it
was given. -/
abbrev Label := Datum

namespace Datum

mutual

/-- Text of a value: texts in quotes, lists in brackets, dictionaries in braces. -/
def write : Datum → String
  | .null => "None"
  | .bool b => if b then "True" else "False"
  | .int i => Text.Integer.write i
  | .float x => x.write
  | .str s => Text.Quoted.write s
  | .list items => "[" ++ String.intercalate ", " (writeItems items) ++ "]"
  | .array items => "array([" ++ String.intercalate ", " (writeItems items) ++ "])"
  | .dict entries => "\x7b" ++ String.intercalate ", " (writeEntries entries) ++ "\x7d"

/-- Texts of the items of a list. -/
def writeItems : List Datum → List String
  | [] => []
  | d :: rest => d.write :: writeItems rest

/-- Texts of the entries of a dictionary. -/
def writeEntries : List (String × Datum) → List String
  | [] => []
  | (key, d) :: rest => (Text.Quoted.write key ++ ": " ++ d.write) :: writeEntries rest

end

/-- Text of a value that is a name: a text stands for itself. -/
def toName : Datum → String
  | .str s => s
  | d => d.write

/-- Word for the kind of a value. -/
def kindName : Datum → String
  | .null => "NoneType"
  | .bool _ => "bool"
  | .int _ => "int"
  | .float _ => "float"
  | .str _ => "str"
  | .list _ => "list"
  | .array _ => "array"
  | .dict _ => "dict"

/-- Whether a value counts as given: nothing, zero and whatever is empty do not. -/
def isGiven : Datum → Bool
  | .null => false
  | .bool b => b
  | .int i => i != 0
  | .float x => x.toInt? != some 0
  | .str s => !s.isEmpty
  | .list items => !items.isEmpty
  | .array items => !items.isEmpty
  | .dict entries => !entries.isEmpty

mutual

/-- The numbers in an array, row by row. Any other value is its own element. -/
def elements : Datum → List Datum
  | .array items => elementsOf items
  | d => [d]

/-- The elements of items in turn. -/
def elementsOf : List Datum → List Datum
  | [] => []
  | d :: rest => d.elements ++ elementsOf rest

end

/-- The truth value of a value: whether it counts as given. An array has one only if it has a single
element, and then it is that element's. -/
def truth? (d : Datum) : Option Bool :=
  match d.elements with
  | [x] => some x.isGiven
  | _ => none

/-- Whether a value can be a key. Collections other than texts cannot. -/
def isKey : Datum → Bool
  | .list _ => false
  | .array _ => false
  | .dict _ => false
  | _ => true

/-- The members of a collection: the items of a list or array, the characters of a text, the keys of
a dictionary. Other values have none. -/
def members? : Datum → Option (List Datum)
  | .list items => some items
  | .array items => some items
  | .str s => some (s.toList.map fun c => .str (String.singleton c))
  | .dict entries => some (entries.map fun entry => .str entry.1)
  | _ => none

/-- The value of a key. -/
def field? (key : String) : Datum → Option Datum
  | .dict entries => entries.lookup key
  | _ => none

/-- Whether a value is a number, truth values included. -/
def isNumber : Datum → Bool
  | .bool _ => true
  | .int _ => true
  | .float _ => true
  | _ => false

/-- The integer that a value is, truth values counting as 0 and 1. -/
def whole? : Datum → Option Int
  | .bool b => some (if b then 1 else 0)
  | .int i => some i
  | _ => none

/-- The integer that a number equals, truth values counting as 0 and 1. -/
def integral? : Datum → Option Int
  | .bool b => some (if b then 1 else 0)
  | .int i => some i
  | .float x => x.toInt?
  | _ => none

mutual

/-- Equality of values. Numbers are compared as numbers, dictionaries by key whatever their
order. -/
def same : Datum → Datum → Bool
  | .null, .null => true
  | .str s, .str t => s == t
  | .float x, .float y => x.same y
  | .list xs, .list ys => sameItems xs ys
  | .array xs, .array ys => sameItems xs ys
  | .dict xs, .dict ys => xs.length == ys.length && sameEntries xs ys
  | x, y => x.integral?.isSome && x.integral? == y.integral?

/-- Equality of lists, item by item. -/
def sameItems : List Datum → List Datum → Bool
  | [], [] => true
  | x :: xs, y :: ys => same x y && sameItems xs ys
  | _, _ => false

/-- Whether every entry of the first dictionary has an equal one in the second. -/
def sameEntries : List (String × Datum) → List (String × Datum) → Bool
  | [], _ => true
  | (key, x) :: rest, ys =>
    (match ys.lookup key with
      | some y => same x y
      | none => false) && sameEntries rest ys

end

/-- Equality of two values that are compared on their own, not as parts of something larger: a NaN
then differs even from itself. -/
def sameAlone (a b : Datum) : Bool :=
  match a with
  | .float x => !x.isNaN && a.same b
  | _ => a.same b

end Datum

/-- Whether two lists have equal items in the same order, by a given equality. -/
def allSame {α : Type} (same : α → α → Bool) : List α → List α → Bool
  | [], [] => true
  | x :: xs, y :: ys => same x y && allSame same xs ys
  | _, _ => false

end TensorGraph
