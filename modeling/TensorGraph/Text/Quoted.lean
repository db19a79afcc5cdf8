import TensorGraph.Text.Invisible

/-!
# Quoted text

Names in messages stand in quotes. Single quotes are used unless the text holds a single quote and
no double quote. The quote in use, the backslash and every invisible character are escaped.
-/

namespace TensorGraph.Text.Quoted

/-- Lower-case hexadecimal digits of a number, filled with zeros to a width. -/
def hexChars (width n : Nat) : List Char :=
  let digits := Nat.toDigits 16 n
  List.replicate (width - digits.length) '0' ++ digits

/-- An escape by code point: two, four or eight hexadecimal digits, whichever is enough. -/
def codeEscape (code : Nat) : List Char :=
  if code < 0x100 then '\\' :: 'x' :: hexChars 2 code
  else if code < 0x10000 then '\\' :: 'u' :: hexChars 4 code
  else '\\' :: 'U' :: hexChars 8 code

/-- How one character is written between quotes of the given kind. -/
def escapeChar (quote c : Char) : List Char :=
  if c = quote || c = '\\' then ['\\', c]
  else if c = '\n' then ['\\', 'n']
  else if c = '\r' then ['\\', 'r']
  else if c = '\t' then ['\\', 't']
  else if isVisible c then [c]
  else codeEscape c.toNat

/-- The quote that a text is written in. -/
def quoteFor (cs : List Char) : Char :=
  if cs.contains '\'' && !cs.contains '"' then '"' else '\''

/-- A text in quotes, with escapes. -/
def write (s : String) : String :=
  let quote := quoteFor s.toList
  String.ofList (quote :: s.toList.flatMap (escapeChar quote) ++ [quote])

end TensorGraph.Text.Quoted
