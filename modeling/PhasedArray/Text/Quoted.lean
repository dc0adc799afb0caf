import PhasedArray.Text.CodePoint
import PhasedArray.Text.Signless

set_option autoImplicit false

/-!
# Quoted text

A text within a list stands between quotes: single ones, or double ones if it holds a
single one and no double one.  The quote itself and the backslash are escaped, and so are
the characters that have no sign of their own: by a letter, or by two, four or eight
hexadecimal digits, as few as hold the code point.
-/

namespace PhasedArray

namespace Text

/-- The character that stands around a text. -/
def quoteFor (cs : List Char) : Char :=
  if cs.contains '\'' && !cs.contains '"' then '"' else '\''

/-- A code point in `width` lower-case hexadecimal digits. -/
def hexText (width n : Nat) : List Char :=
  let digits := Nat.toDigits 16 n
  List.replicate (width - digits.length) '0' ++ digits

/-- A code point behind a backslash, by its hexadecimal digits. -/
def hexEscape (n : Nat) : List Char :=
  if n < 0x100 then '\\' :: 'x' :: hexText 2 n
  else if n < 0x10000 then '\\' :: 'u' :: hexText 4 n
  else '\\' :: 'U' :: hexText 8 n

/-- A character within quotes. -/
def escaped (quote c : Char) : List Char :=
  if c = quote || c = '\\' then ['\\', c]
  else if c = '\n' then ['\\', 'n']
  else if c = '\r' then ['\\', 'r']
  else if c = '\t' then ['\\', 't']
  else if isSignless c then hexEscape (codePoint c)
  else [c]

/-- A text between quotes. -/
def quoted (s : String) : String :=
  let cs := s.toList
  let quote := quoteFor cs
  String.ofList (quote :: cs.flatMap (escaped quote) ++ [quote])

end Text

end PhasedArray
