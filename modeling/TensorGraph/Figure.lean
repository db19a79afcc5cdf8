import TensorGraph.Datum.Reading
import TensorGraph.Numeral

/-!
# Figures in reports

The figures of a report are data. Where a figure is shown as it is, any value will do. Where it is
grouped, compared, divided or shown as an address it has to be a number, and a truth value then
counts as 0 or 1.
-/

namespace TensorGraph.Figure

open Number (Binary64 BinaryFormat fixedChars)

/-- A figure as it is. -/
def plain : Datum → Except Error String
  | .int i => Numeral.plain i
  | d => .ok d.toName

/-- A number with its digits grouped by three. -/
def grouped : Datum → Except Error String
  | .float x => .ok (Text.groupWhole x.write)
  | .str _ => .error .notShowable
  | d => do
    let i ← d.whole
    Numeral.grouped i

/-- An integer as an address. -/
def address : Datum → Except Error String
  | .float _ => .error .notShowable
  | .str _ => .error .notShowable
  | d => d.whole.map Text.address

/-- The double nearest to a quotient, with a sign and a fixed number of places. -/
def quotient (places : Nat) (negative : Bool) (num den : Nat) : Except Error String :=
  match BinaryFormat.double.nearest num den with
  | none => .error .numberTooLarge
  | some x =>
    let digits := fixedChars places x
    .ok (String.ofList (if negative then '-' :: digits else digits))

/-- A number divided by a count, with a fixed number of places. -/
def ratio (places : Nat) (d : Datum) (den : Nat) : Except Error String :=
  match d with
  | .float x =>
    match x.reading with
    | .finite negative m => quotient places negative m.num (m.den * den)
    | _ => .ok x.write
  | _ => do
    let i ← d.whole
    quotient places (i < 0) i.natAbs den

/-- The difference of two numbers: exact for integers, a double if one of them is a floating-point
number. -/
def difference (a b : Datum) : Except Error Datum := do
  if !(a.isNumber && b.isNumber) then throw .notANumber
  match a.whole?, b.whole? with
  | some i, some j => return .int (i - j)
  | _, _ =>
    let x ← a.toDouble
    let y ← b.toDouble
    return .float (x.sub y)

/-- A number, or zero if it is less than that. -/
def atLeastZero (d : Datum) : Except Error Datum := do
  if ← d.isLess 0 then return .int 0 else return d

/-- A number and one more. -/
def succ : Datum → Except Error Datum
  | .float x => .ok (.float x.succ)
  | d => d.whole.map fun i => .int (i + 1)

end TensorGraph.Figure
