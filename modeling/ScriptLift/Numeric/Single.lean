import ScriptLift.Numeric.Binary

/- Numbers of the 32-bit format, kept as their bits: one sign bit, eight bits
   of exponent and twenty-three of fraction. All that the rest of the library
   asks of one is its sign, whether it is finite, its magnitude, and whether
   two of them are the same number. -/
namespace ScriptLift

structure Single where
  bits : UInt32
deriving DecidableEq, Inhabited

namespace Single

def negative (x : Single) : Bool := 0x80000000 ≤ x.bits.toNat

def exponentField (x : Single) : Nat := x.bits.toNat / 0x800000 % 0x100

def fractionField (x : Single) : Nat := x.bits.toNat % 0x800000

/-- The top exponent is kept for the infinities and for what is not a number. -/
def isFinite (x : Single) : Bool := x.exponentField != 255

def isNaN (x : Single) : Bool := x.exponentField == 255 && x.fractionField != 0

def isZero (x : Single) : Bool := x.exponentField == 0 && x.fractionField == 0

/-- The magnitude of a finite number. The lowest exponent has no hidden bit. -/
def magnitude (x : Single) : Magnitude :=
  if x.exponentField = 0 then ⟨x.fractionField, -149⟩
  else ⟨0x800000 + x.fractionField, (x.exponentField : Int) - 150⟩

/-- The number with this sign and magnitude of the format; none stands for the
infinite one. -/
def ofMagnitude (negative : Bool) (m : Option Magnitude) : Single :=
  let word := match m with
    | none => 255 * 0x800000
    | some m =>
      if m.significand < 0x800000 then m.significand
      else (m.exponent + 150).toNat * 0x800000 + (m.significand - 0x800000)
  ⟨UInt32.ofNat (if negative then 0x80000000 + word else word)⟩

/-- The nearest number to a whole one. -/
def ofInt (i : Int) : Single :=
  ofMagnitude (decide (i < 0)) (Format.binary32.nearest i.natAbs 1)

/-- The nearest number to a signed magnitude of any format. -/
def round (negative : Bool) (m : Magnitude) : Single :=
  ofMagnitude negative (Format.binary32.nearest m.numerator m.denominator)

/-- Equality of numbers: the two zeros are one number, and what is not a
number equals nothing. -/
def same (x y : Single) : Bool :=
  !x.isNaN && !y.isNaN && (x.bits == y.bits || (x.isZero && y.isZero))

end Single

end ScriptLift
