set_option autoImplicit false

/-!
# Decimal numbers and how they are written

A `Decimal` is a whole number of tenths, hundredths and so on.  A `Layout` says
how such a number becomes text: where plain notation ends and an exponent begins,
and how the exponent looks.
-/

namespace PhasedArray

/-- The number `digits * 10 ^ exponent`, negated if `negative` is set. -/
structure Decimal where
  negative : Bool
  digits : Nat
  exponent : Int
  deriving DecidableEq, Repr, Inhabited

/-- The choices in writing a decimal. -/
structure Layout where
  /-- The lowest power of ten of the leading digit that is written plainly. -/
  lowest : Int
  /-- The highest power of ten of the leading digit that is written plainly. -/
  highest : Int
  /-- Whole numbers in plain notation end in a point and a zero. -/
  pointZero : Bool
  /-- A positive exponent carries its sign. -/
  exponentPlus : Bool
  /-- The exponent has at least this many digits. -/
  exponentWidth : Nat
  deriving DecidableEq, Repr

namespace Decimal

/-- Takes up to `fuel` zeros off the end. -/
def dropZeros : (fuel : Nat) → Decimal → Decimal
  | 0, d => d
  | fuel + 1, d =>
      if d.digits ≠ 0 ∧ d.digits % 10 = 0 then
        dropZeros fuel { d with digits := d.digits / 10, exponent := d.exponent + 1 }
      else d

/-- The same number without zeros at the end of its digits; zero is `0 * 10 ^ 0`. -/
def trimmed (d : Decimal) : Decimal :=
  if d.digits = 0 then { d with exponent := 0 } else dropZeros (Nat.log2 d.digits) d

/-- The digits as text. -/
def digitText (n : Nat) : List Char := Nat.toDigits 10 n

/-- `n` zeros. -/
def zeros (n : Nat) : List Char := List.replicate n '0'

/-- Plain notation of the magnitude. -/
def plainText (pointZero : Bool) (d : Decimal) : List Char :=
  let ds := digitText d.digits
  match d.exponent with
  | .ofNat e => ds ++ zeros e ++ (if pointZero then ['.', '0'] else [])
  | .negSucc e =>
      let places := e + 1
      let padded := zeros (places + 1 - ds.length) ++ ds
      let whole := padded.take (padded.length - places)
      whole ++ '.' :: padded.drop (padded.length - places)

/-- Notation with an exponent, of the magnitude, whose leading digit stands for
`10 ^ power`. -/
def exponentText (layout : Layout) (power : Int) (d : Decimal) : List Char :=
  let mantissa :=
    match digitText d.digits with
    | [] => []
    | [c] => [c]
    | c :: cs => c :: '.' :: cs
  let sign := if power < 0 then ['-'] else if layout.exponentPlus then ['+'] else []
  let ds := digitText power.natAbs
  mantissa ++ 'e' :: sign ++ zeros (layout.exponentWidth - ds.length) ++ ds

/-- The number as `layout` writes it. -/
def render (layout : Layout) (d : Decimal) : String :=
  let t := d.trimmed
  let power := t.exponent + ((digitText t.digits).length - 1 : Nat)
  let text :=
    if t.digits = 0 ∨ (layout.lowest ≤ power ∧ power ≤ layout.highest) then
      plainText layout.pointZero t
    else exponentText layout power t
  String.ofList (if d.negative then '-' :: text else text)

end Decimal

end PhasedArray
