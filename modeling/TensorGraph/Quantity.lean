import TensorGraph.Figure

/-!
# Quantities

Counts of bytes and of operations, shown in the largest unit that they fill. A fraction of a unit is
the double nearest to it, written with one place, or with two in the largest unit.
-/

namespace TensorGraph.Quantity

/-- A number of bytes, in units of 1024. -/
def bytes (d : Datum) : Except Error String := do
  if ← d.isLess 1024 then (Figure.plain d).map (· ++ " B")
  else if ← d.isLess 1048576 then (Figure.ratio 1 d 1024).map (· ++ " KB")
  else if ← d.isLess 1073741824 then (Figure.ratio 1 d 1048576).map (· ++ " MB")
  else (Figure.ratio 2 d 1073741824).map (· ++ " GB")

/-- The double nearest to a number, divided by a count, with a fixed number of places. -/
def roundedRatio (places : Nat) (d : Datum) (den : Nat) : Except Error String := do
  let x ← d.toDouble
  Figure.ratio places (.float x) den

/-- A number of operations, in units of 1000. -/
def operations (d : Datum) : Except Error String := do
  if ← d.isLess 1000 then Figure.plain d
  else if ← d.isLess 1000000 then (roundedRatio 1 d 1000).map (· ++ "K")
  else if ← d.isLess 1000000000 then (roundedRatio 1 d 1000000).map (· ++ "M")
  else if ← d.isLess 1000000000000 then (roundedRatio 1 d 1000000000).map (· ++ "G")
  else (roundedRatio 2 d 1000000000000).map (· ++ "T")

end TensorGraph.Quantity
