import TensorGraph.Text.Integer

/-!
# Columns of reports

Reports group the digits of large numbers by three, right-align columns, write addresses in
hexadecimal and list texts in order.
-/

namespace TensorGraph.Text

/-- Put a comma after every third digit, counted from the front of a reversed number. -/
def groupReversed : List Char → List Char
  | a :: b :: c :: d :: rest => a :: b :: c :: ',' :: groupReversed (d :: rest)
  | cs => cs

/-- Decimal text of an integer with its digits grouped by three. -/
def grouped (i : Int) : String :=
  let digits := (groupReversed (Integer.natChars i.natAbs).reverse).reverse
  String.ofList (if i < 0 then '-' :: digits else digits)

/-- The text of a number with the digits before its point grouped by three. -/
def groupWhole (s : String) : String :=
  let sign := s.toList.takeWhile (· == '-')
  let body := s.toList.dropWhile (· == '-')
  let digits := body.takeWhile Char.isDigit
  String.ofList (sign ++ (groupReversed digits.reverse).reverse ++ body.dropWhile Char.isDigit)

/-- A text moved to the right end of a column of the given width. -/
def alignRight (width : Nat) (s : String) : String :=
  String.ofList (List.replicate (width - s.length) ' ') ++ s

/-- An address: upper-case hexadecimal digits, filled with zeros to four characters in all, of which
a minus sign is one. -/
def address (i : Int) : String :=
  let digits := (Nat.toDigits 16 i.natAbs).map Char.toUpper
  if i < 0 then String.ofList ('-' :: (List.replicate (3 - digits.length) '0' ++ digits))
  else String.ofList (List.replicate (4 - digits.length) '0' ++ digits)

/-- Texts in order of their characters. -/
def sorted (texts : List String) : List String := texts.mergeSort fun a b => !(b < a)

/-- Lines put under one another. -/
def unlines (lines : List String) : String := String.intercalate "\n" lines

end TensorGraph.Text
