import TensorGraph.Text.CharClass

/-!
# Integers as text

`Integer.write` gives the plain decimal text of an integer. `Integer.read?` accepts more than
`write` produces: padding around the number, a leading plus, leading zeros, digits of any script
and single underscores between digits. Reading and writing go through every digit against every
other, so texts of more than `digitLimit` digits are neither read nor put into reports.
-/

namespace TensorGraph.Text

/-- Drop the characters of a class from both ends. -/
def trimBoth (p : Char → Bool) (cs : List Char) : List Char :=
  ((cs.dropWhile p).reverse.dropWhile p).reverse

/-- The parts of a text between its separators; a text without one is its own only part. -/
def splitAtChar (separator : Char) : List Char → List (List Char)
  | [] => [[]]
  | c :: cs =>
    if c = separator then [] :: splitAtChar separator cs
    else
      match splitAtChar separator cs with
      | [] => [[c]]
      | part :: parts => (c :: part) :: parts

namespace Integer

/-- Decimal text of a natural number, without leading zeros. -/
def natChars (n : Nat) : List Char := Nat.toDigits 10 n

/-- Decimal text of an integer: a minus sign if it is negative, then its digits. -/
def chars (i : Int) : List Char :=
  if i < 0 then '-' :: natChars i.natAbs else natChars i.natAbs

/-- Decimal text of an integer. -/
def write (i : Int) : String := String.ofList (chars i)

/-- The most digits that a number is read from or shown with. -/
def digitLimit : Nat := 4300

/-- Whether an integer has at most the given number of digits. -/
def fits (limit : Nat) (i : Int) : Bool := (natChars i.natAbs).length ≤ limit

/-- The digits after the first one, each possibly preceded by one underscore; `acc` is the value of
the digits before them. -/
def readRest (acc : Nat) : List Char → Option Nat
  | [] => some acc
  | '_' :: c :: cs => (digit? c).bind fun d => readRest (10 * acc + d) cs
  | c :: cs => (digit? c).bind fun d => readRest (10 * acc + d) cs

/-- A natural number of any length: at least one digit, with single underscores allowed between
digits. -/
def readDigits? : List Char → Option Nat
  | [] => none
  | c :: cs => (digit? c).bind fun d => readRest d cs

/-- A natural number of at most `limit` digits, leading zeros included. -/
def readNat? (limit : Nat) (cs : List Char) : Option Nat :=
  if cs.countP (· != '_') ≤ limit then readDigits? cs else none

/-- A natural number with an optional sign directly before it. -/
def readSigned? (limit : Nat) : List Char → Option Int
  | '-' :: cs => (readNat? limit cs).map fun n => -(n : Int)
  | '+' :: cs => (readNat? limit cs).map fun n => (n : Int)
  | cs => (readNat? limit cs).map fun n => (n : Int)

/-- An integer of at most `limit` digits, with padding allowed on both sides. -/
def readChars? (limit : Nat) (cs : List Char) : Option Int :=
  readSigned? limit (trimBoth isPadding cs)

/-- An integer of at most `limit` digits, with padding allowed on both sides. -/
def read? (limit : Nat) (s : String) : Option Int := readChars? limit s.toList

end Integer

end TensorGraph.Text
