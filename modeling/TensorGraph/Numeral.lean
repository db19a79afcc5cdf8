import TensorGraph.Error

/-!
# Numerals in reports

Reports show integers in decimal, plainly, grouped by three digits, or in lists. A number of more
than `Text.Integer.digitLimit` digits is not shown, and the report that needs it fails.
-/

namespace TensorGraph.Numeral

/-- Let an integer through that is short enough to be shown. -/
def check (i : Int) : Except Error Unit :=
  if Text.Integer.fits Text.Integer.digitLimit i then .ok () else .error .tooManyDigits

/-- Decimal text of an integer. -/
def plain (i : Int) : Except Error String := do
  check i
  return Text.Integer.write i

/-- Decimal text of an integer with its digits grouped by three. -/
def grouped (i : Int) : Except Error String := do
  check i
  return Text.grouped i

/-- A list of integers in brackets. -/
def list (is : List Int) : Except Error String := do
  is.forM check
  return Text.IntegerList.write is

end TensorGraph.Numeral
