import TensorGraph.Dict
import TensorGraph.Tensor

/-!
# Attributes

An operator's parameters (kernel size, axis, target shape, ...) are attributes: truth values,
integers, floating-point numbers, texts, or tuples of these. `Datum.freeze` turns plain data into an
attribute. Formulas read attributes as integers (`Attributes.int`) or as lists of integers
(`Attributes.ints?`); a list may also be spelled as a text such as `"[2, -1]"`.
-/

namespace TensorGraph

open Number (Binary64)

/-- The value of an operator parameter. -/
inductive Attribute where
  | bool (b : Bool)
  | int (i : Int)
  | float (x : Binary64)
  | str (s : String)
  | tuple (items : List Attribute)
deriving Repr, Inhabited

mutual

/-- An attribute as plain data, tuples becoming lists. -/
def Attribute.toDatum : Attribute → Datum
  | .bool b => .bool b
  | .int i => .int i
  | .float x => .float x
  | .str s => .str s
  | .tuple items => .list (Attribute.itemsToData items)

/-- Attributes as plain data. -/
def Attribute.itemsToData : List Attribute → List Datum
  | [] => []
  | a :: rest => a.toDatum :: Attribute.itemsToData rest

end

mutual

/-- Decide whether two attributes are the same. -/
def Attribute.decEq : (a b : Attribute) → Decidable (a = b)
  | .bool x, .bool y => decidable_of_iff (x = y) (by simp)
  | .int x, .int y => decidable_of_iff (x = y) (by simp)
  | .float x, .float y => decidable_of_iff (x = y) (by simp)
  | .str x, .str y => decidable_of_iff (x = y) (by simp)
  | .tuple xs, .tuple ys =>
    match Attribute.decEqItems xs ys with
    | isTrue h => isTrue (h ▸ rfl)
    | isFalse h => isFalse fun e => h (Attribute.tuple.inj e)
  | .bool _, .int _ | .bool _, .float _ | .bool _, .str _ | .bool _, .tuple _ => isFalse nofun
  | .int _, .bool _ | .int _, .float _ | .int _, .str _ | .int _, .tuple _ => isFalse nofun
  | .float _, .bool _ | .float _, .int _ | .float _, .str _ | .float _, .tuple _ => isFalse nofun
  | .str _, .bool _ | .str _, .int _ | .str _, .float _ | .str _, .tuple _ => isFalse nofun
  | .tuple _, .bool _ | .tuple _, .int _ | .tuple _, .float _ | .tuple _, .str _ => isFalse nofun

/-- Decide whether two lists of attributes are the same. -/
def Attribute.decEqItems : (xs ys : List Attribute) → Decidable (xs = ys)
  | [], [] => isTrue rfl
  | [], _ :: _ => isFalse nofun
  | _ :: _, [] => isFalse nofun
  | x :: xs, y :: ys =>
    match Attribute.decEq x y, Attribute.decEqItems xs ys with
    | isTrue h, isTrue hs => isTrue (by rw [h, hs])
    | isFalse h, _ => isFalse fun e => h (List.cons.inj e).1
    | _, isFalse hs => isFalse fun e => hs (List.cons.inj e).2

end

instance : DecidableEq Attribute := Attribute.decEq

/-- Equality of attributes, numbers being compared as numbers. -/
def Attribute.same (a b : Attribute) : Bool := a.toDatum.same b.toDatum

mutual

/-- The attribute that a piece of data stands for. Nothing and dictionaries stand for none. -/
def Datum.freeze : Datum → Except Error Attribute
  | .bool b => .ok (.bool b)
  | .int i => .ok (.int i)
  | .float x => .ok (.float x)
  | .str s => .ok (.str s)
  | .list items => (Datum.freezeItems items).map .tuple
  | .array items => (Datum.freezeItems items).map .tuple
  | .null => .error (.unsupportedAttribute .null)
  | .dict entries => .error (.unsupportedAttribute (.dict entries))

/-- The attributes that the items of a list stand for. -/
def Datum.freezeItems : List Datum → Except Error (List Attribute)
  | [] => .ok []
  | d :: rest => do
    let a ← d.freeze
    let others ← Datum.freezeItems rest
    return a :: others

end

/-- The parameters of an operator, by name. -/
abbrev Attributes := Dict Attribute

/-- Parameters from entries of plain data. -/
def Attributes.ofEntries (entries : List (String × Datum)) : Except Error Attributes := do
  let frozen ← entries.mapM fun entry => do
    let a ← entry.2.freeze
    return (entry.1, a)
  return Dict.ofList frozen

/-- The integer that an attribute stands for, a text spelling it in at most `limit` digits. -/
def Attribute.toInt (limit : Nat) : Attribute → Except Error Int
  | .bool b => .ok (if b then 1 else 0)
  | .int i => .ok i
  | .float x => x.toInt
  | .str s => integerOfText limit s
  | .tuple _ => .error .notANumber

/-- Give up quietly on whatever is not an integer, but not on an infinite number. -/
def quietly {α : Type} (x : Except Error α) : Except Error (Option α) :=
  match x with
  | .ok a => .ok (some a)
  | .error .notAnInteger => .ok none
  | .error .notANumber => .ok none
  | .error e => .error e

/-- The list of integers that an attribute stands for, if it stands for one, texts spelling an
integer in at most `limit` digits. A number stands for a list of one. -/
def Attribute.toInts? (limit : Nat) : Attribute → Except Error (Option (List Int))
  | .str s => .ok (Text.IntegerList.read? limit s)
  | .tuple items => quietly (items.mapM (Attribute.toInt limit))
  | a => quietly ((a.toInt limit).map fun i => [i])

/-- An integer parameter, or a default if it is absent. -/
def Attributes.int (attrs : Attributes) (key : String) (default : Int) : Except Error Int :=
  match attrs.get? key with
  | none => .ok default
  | some a => a.toInt Text.Integer.digitLimit

/-- A parameter that is a list of integers; `none` if it is absent or not such a list. -/
def Attributes.ints? (attrs : Attributes) (key : String) : Except Error (Option (List Int)) :=
  match attrs.get? key with
  | none => .ok none
  | some a => a.toInts? Text.Integer.digitLimit

end TensorGraph
