import PhasedArray.Decimal.Layout
import PhasedArray.Scalar
import PhasedArray.Text.Blank
import PhasedArray.Text.Digit

set_option autoImplicit false

/-!
# Reading numbers

A whole number is a sign and digits.  Any other number may have a point among its
digits and an exponent behind them, or be one of the words for infinity and for an
undefined value.  Blanks around a number do not count, and a single underscore may
stand between two digits.
-/

namespace PhasedArray

namespace Decimal

/-- The value of a row of digits, read after `n`. -/
def valueFrom (n : Nat) (digits : List Nat) : Nat := digits.foldl (fun n d => 10 * n + d) n

/-- Takes digits off the front, with single underscores between them.  `between` says
that a digit was read just before. -/
def takeDigits : (between : Bool) → List Char → List Nat × List Char
  | _, [] => ([], [])
  | between, c :: cs =>
      match Text.digitValue? c with
      | some d =>
          let (ds, rest) := takeDigits true cs
          (d :: ds, rest)
      | none =>
          if between && c == '_' then
            match takeDigits false cs with
            | ([], _) => ([], c :: cs)
            | read => read
          else ([], c :: cs)

/-- Takes a sign off the front; `true` stands for a minus. -/
def takeSign : List Char → Bool × List Char
  | '-' :: cs => (true, cs)
  | '+' :: cs => (false, cs)
  | cs => (false, cs)

/-- Reads a whole number to its end. -/
def whole? (cs : List Char) : Option Int :=
  let (negative, cs) := takeSign cs
  match takeDigits false cs with
  | (d :: ds, []) =>
      let n : Int := valueFrom 0 (d :: ds)
      some (if negative then -n else n)
  | _ => none

/-- Reads an exponent to its end; nothing at all is an exponent of zero. -/
def exponent? : List Char → Option Int
  | [] => some 0
  | c :: cs => if c = 'e' || c = 'E' then whole? cs else none

/-- Reads the digits, the point and the exponent of a number to its end. -/
def unsigned? (negative : Bool) (cs : List Char) : Option Decimal :=
  let (before, cs) := takeDigits false cs
  let (after, cs) :=
    match cs with
    | '.' :: cs => takeDigits false cs
    | _ => ([], cs)
  if before.isEmpty && after.isEmpty then none
  else (exponent? cs).map fun e =>
    ⟨negative, valueFrom (valueFrom 0 before) after, e - after.length⟩

/-- The number as a scalar. -/
def toScalar {α : Type} [Scalar α] (d : Decimal) : α :=
  let magnitude : α :=
    match d.exponent with
    | .ofNat e => Scalar.ofScientific d.digits false e
    | .negSucc e => Scalar.ofScientific d.digits true (e + 1)
  if d.negative then -magnitude else magnitude

/-- Reads the words for values that have no digits. -/
def word? {α : Type} [Scalar α] (negative : Bool) (cs : List Char) : Option α :=
  let word := String.ofList (cs.map Char.toLower)
  if word = "inf" || word = "infinity" then some (if negative then -1 / 0 else 1 / 0)
  else if word = "nan" then some Scalar.undefined
  else none

/-- Reads a number. -/
def read? {α : Type} [Scalar α] (text : String) : Option α :=
  let (negative, cs) := takeSign (Text.trim text.toList)
  match unsigned? negative cs with
  | some d => some d.toScalar
  | none => word? negative cs

/-- The most digits that a whole number may be written with. -/
def digitLimit : Nat := 4300

/-- Reads a whole number, unless it has too many digits. -/
def readInt? (text : String) : Option Int :=
  let cs := Text.trim text.toList
  if digitLimit < cs.countP Text.isDigit then none else whole? cs

end Decimal

end PhasedArray
