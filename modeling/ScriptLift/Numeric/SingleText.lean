import ScriptLift.Numeric.Single
import ScriptLift.Numeric.Numeral

/- The written forms of a 32-bit number.

   A literal has six places and rounds the shortest decimal that tells the
   number apart among 64-bit ones. A coordinate has six places and rounds the
   exact value, with a sign and zeros up to a fixed width. A diagnostic has the
   fewest digits that tell the number apart among 32-bit ones, in exponent form
   when it is very small or very large. -/
namespace ScriptLift.Single

/-- What stands for a number that is not finite. -/
def notFinite (x : Single) : String :=
  if x.isNaN then "NaN" else if x.negative then "-inf" else "inf"

/-- The number as a positional numeral, with the fewest digits that tell it
apart among 64-bit numbers. Rounding its magnitude to 64 bits changes only its
unit. -/
def numeral (x : Single) : Numeral :=
  let m := x.magnitude
  .ofDecimal x.negative
    (.shortest .binary64 ((Format.binary64.nearest m.numerator m.denominator).getD .zero))

/-- Digits after the point in literals and coordinates. -/
def places : Nat := 6

/-- The number as a literal: six places, a half going away from zero. -/
def literal (x : Single) : String :=
  if x.isFinite then (x.numeral.toPlaces places).text else x.notFinite

/-- Zeros between the sign and the digits, up to `width` characters in all. -/
def zeroFill (width : Nat) (sign digits : String) : String :=
  sign ++ String.ofList (List.replicate (width - sign.length - digits.length) '0') ++ digits

/-- The sign written in front of a coordinate. -/
def sign (x : Single) : String :=
  if x.isNaN then "" else if x.negative then "-" else "+"

/-- The magnitude to six places, the exact value rounded with a half going to
the even neighbour. -/
def rounded (x : Single) : Numeral :=
  let m := x.magnitude
  let units := roundHalfEven (m.numerator * Nat.pow 10 places) m.denominator
  let fraction := digitsOf (units % Nat.pow 10 places)
  ⟨false, digitsOf (units / Nat.pow 10 places),
    List.replicate (places - fraction.length) Digit.zero ++ fraction⟩

/-- The number as a coordinate: always signed, at least thirteen characters. -/
def coordinate (x : Single) : String :=
  let digits :=
    if x.isFinite then x.rounded.text else if x.isNaN then "NaN" else "inf"
  zeroFill 13 x.sign digits

/-- The power of ten of a decimal's first digit. -/
def leadingPower (d : Decimal) : Int := d.exponent + ((digitsOf d.coefficient).length - 1)

/-- One digit before the point and the rest after it, times a power of ten. -/
def scientific (negative : Bool) (d : Decimal) : String :=
  let digits := digitsOf d.coefficient
  (Numeral.mk negative (digits.take 1) (digits.drop 1)).text ++ "e" ++ toString (leadingPower d)

/-- A positional numeral that keeps a zero after the point when it is whole. -/
def withPoint (n : Numeral) : Numeral :=
  { n with fraction := if n.fraction.isEmpty then [Digit.zero] else n.fraction }

/-- The number in a diagnostic, by its shortest decimal: positional from
`10 ^ -4` up to below `10 ^ 16`, in exponent form outside. -/
def diagnostic (x : Single) : String :=
  if x.isFinite then
    let d := Decimal.shortest .binary32 x.magnitude
    if -4 ≤ leadingPower d ∧ leadingPower d < 16 then
      (withPoint (.ofDecimal x.negative d)).text
    else scientific x.negative d
  else x.notFinite

end ScriptLift.Single
