import ScriptLift.Numeric.Shortest

/- Decimal numerals as lists of digits: the positional writing of a decimal,
   and its cut to a fixed number of places. A cut rounds on the digits
   themselves, a half going away from zero, so a carry may run through every
   digit and lengthen the numeral by one. -/
namespace ScriptLift

abbrev Digit := Fin 10

namespace Digit

def zero : Digit := 0

def char (d : Digit) : Char := Char.ofNat ('0'.toNat + d.val)

/-- The digit a character stands for. -/
def ofChar? (c : Char) : Option Digit :=
  if '0' ≤ c ∧ c ≤ '9' then some (Fin.ofNat 10 (c.toNat - '0'.toNat)) else none

/-- The digits of a whole number, the first not zero, appended before `rest`.
The fuel is any bound on their number. -/
def prepend : Nat → Nat → List Digit → List Digit
  | 0, _, rest => rest
  | fuel + 1, n, rest =>
    if n < 10 then Fin.ofNat 10 n :: rest
    else prepend fuel (n / 10) (Fin.ofNat 10 n :: rest)

end Digit

/-- The digits of a whole number; zero has one. -/
def digitsOf (n : Nat) : List Digit := Digit.prepend (n + 1) n []

/-- The whole number that digits write. -/
def ofDigits (ds : List Digit) : Nat := ds.foldl (fun n d => 10 * n + d.val) 0

/-- A positional numeral: sign, digits before the point, digits after it. -/
structure Numeral where
  negative : Bool
  whole : List Digit
  fraction : List Digit
deriving DecidableEq

namespace Numeral

/-- The positional writing of a decimal: no exponent, at least one digit
before the point, none after it when the decimal is whole. -/
def ofDecimal (negative : Bool) (d : Decimal) : Numeral :=
  let digits := digitsOf d.coefficient
  if 0 ≤ d.exponent then
    ⟨negative, digits ++ List.replicate d.exponent.toNat 0, []⟩
  else
    let places := (-d.exponent).toNat
    if places < digits.length then
      let split := digits.length - places
      ⟨negative, digits.take split, digits.drop split⟩
    else ⟨negative, [0], List.replicate (places - digits.length) 0 ++ digits⟩

/-- The text of the numeral: the point is written when digits follow it. -/
def text (n : Numeral) : String :=
  String.ofList <|
    (if n.negative then ['-'] else []) ++ n.whole.map Digit.char ++
      (if n.fraction.isEmpty then [] else '.' :: n.fraction.map Digit.char)

/-- One more in the last place: the digits, and whether a carry runs out of
the first of them. -/
def bump : List Digit → Bool × List Digit
  | [] => (true, [])
  | d :: ds =>
    match bump ds with
    | (true, ds) => if d = 9 then (true, 0 :: ds) else (false, (d + 1) :: ds)
    | (false, ds) => (false, d :: ds)

/-- One more in the last place, a carry out of the first digit in front. -/
def increment (ds : List Digit) : List Digit :=
  match bump ds with
  | (true, ds) => 1 :: ds
  | (false, ds) => ds

/-- The first `places` digits of a fraction, zeros standing for missing ones. -/
def padded (places : Nat) (fraction : List Digit) : List Digit :=
  fraction.take places ++ List.replicate (places - fraction.length) 0

/-- The numeral cut to `places` digits after the point, rounded up when the
first digit dropped is five or more. -/
def toPlaces (places : Nat) (n : Numeral) : Numeral :=
  let kept := n.whole ++ padded places n.fraction
  let kept :=
    match n.fraction.drop places with
    | d :: _ => if 5 ≤ d then increment kept else kept
    | [] => kept
  let split := kept.length - places
  ⟨n.negative, kept.take split, kept.drop split⟩

end Numeral

end ScriptLift
