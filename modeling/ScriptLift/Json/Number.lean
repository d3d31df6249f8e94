import ScriptLift.Json.Basic
import ScriptLift.Numeric.Single

/- What a written number denotes.

   Digits are gathered into a significand of 64 bits. Once a digit no longer
   fits, the further digits before the point only raise the exponent, and those
   after it are dropped. A number with neither point nor exponent that fits is a
   whole number; any other is a 64-bit float: the rounded significand times or
   divided by a rounded power of ten, each step rounded again. A float too large
   denotes nothing. -/
namespace ScriptLift

inductive Number where
  | integer (i : Int)
  | real (negative : Bool) (m : Magnitude)
deriving DecidableEq

namespace Number

/-- The significand after as many of the digits as fit in 64 bits, and the
digits left over. -/
def gather : Nat → List Digit → Nat × List Digit
  | n, [] => (n, [])
  | n, d :: ds => if 10 * n + d.val < UInt64.size then gather (10 * n + d.val) ds else (n, d :: ds)

/-- The 64-bit float nearest to a power of ten that the format can hold. -/
def powerOfTen (e : Nat) : Magnitude := (Format.binary64.nearest (Nat.pow 10 e) 1).getD .zero

/-- The largest power of ten of the format. -/
def maxPower : Nat := 308

/-- `significand * 10 ^ exponent` by one rounded product or quotient. Below the
range of the powers of ten the quotient is taken in two steps, and further down
nothing is left. -/
def scale (significand : Nat) (exponent : Int) : Option Magnitude := do
  let f ← Format.binary64.nearest significand 1
  if f.significand = 0 then return .zero
  if 0 ≤ exponent then
    if (maxPower : Int) < exponent then none
    else Format.binary64.mul f (powerOfTen exponent.toNat)
  else
    let e := (-exponent).toNat
    if e ≤ maxPower then Format.binary64.div f (powerOfTen e)
    else if e ≤ 2 * maxPower then
      let f ← Format.binary64.div f (powerOfTen maxPower)
      Format.binary64.div f (powerOfTen (e - maxPower))
    else return .zero

/-- The exponent written after the digits; nothing written is zero. -/
def exponentValue : Option (Bool × List Digit) → Int
  | none => 0
  | some (negative, ds) => if negative then -(ofDigits ds : Int) else ofDigits ds

end Number

/-- What the literal denotes; none for a float out of range. -/
def NumberLiteral.value (n : NumberLiteral) : Option Number :=
  let (whole, beyond) := Number.gather 0 n.whole
  if n.fraction.isEmpty && n.exponent.isNone && beyond.isEmpty then
    if !n.negative then some (.integer whole)
    else if whole = 0 ∨ 0x8000000000000000 < whole then
      (Format.binary64.nearest whole 1).map (.real true ·)
    else some (.integer (-(whole : Int)))
  else
    let (significand, dropped) := Number.gather whole n.fraction
    let exponent : Int :=
      beyond.length - ((n.fraction.length : Int) - dropped.length) + Number.exponentValue n.exponent
    (Number.scale significand exponent).map (.real n.negative ·)

/-- The 32-bit number nearest to what the literal denotes. -/
def Number.single : Number → Single
  | .integer i => .ofInt i
  | .real negative m => .round negative m

end ScriptLift
