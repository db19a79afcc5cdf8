import TensorGraph.Text.Integer

/-!
# Lists of integers as text

A list of integers is written with its entries between brackets, a comma and a space between two of
them. `IntegerList.read?` is more liberal: it ignores brackets, parentheses and spaces at both ends,
takes any integers between commas, and skips parts that are blank.
-/

namespace TensorGraph.Text.IntegerList

/-- The entries of a list, a separator between two of them. -/
def joinChars (separator : List Char) : List Int → List Char
  | [] => []
  | [i] => Integer.chars i
  | i :: rest => Integer.chars i ++ separator ++ joinChars separator rest

/-- A list of integers in brackets. -/
def chars (is : List Int) : List Char := '[' :: joinChars [',', ' '] is ++ [']']

/-- A list of integers in brackets. -/
def write (is : List Int) : String := String.ofList (chars is)

/-- What may enclose a list. -/
def isEdge (c : Char) : Bool := c == '[' || c == ']' || c == '(' || c == ')' || c == ' '

/-- Integers of at most `limit` digits separated by commas, blank parts being skipped. -/
def readChars? (limit : Nat) (cs : List Char) : Option (List Int) :=
  let parts := splitAtChar ',' (trimBoth isEdge cs)
  (parts.filter fun part => !part.all isBlank).mapM (Integer.readChars? limit)

/-- Integers of at most `limit` digits separated by commas, blank parts being skipped. -/
def read? (limit : Nat) (s : String) : Option (List Int) := readChars? limit s.toList

end TensorGraph.Text.IntegerList
