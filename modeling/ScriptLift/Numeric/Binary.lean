/- Binary floating formats over exact arithmetic.

   A finite magnitude is a significand times a power of two. `Format.nearest`
   is the rounding of an exact quotient to a format: the nearest magnitude the
   format holds, a half going to the even significand, and `none` past the
   largest. Products, quotients and conversions are this one rounding applied
   to the exact result. -/
namespace ScriptLift

/-- The whole number nearest to `num / den`, a half going to the even one. -/
def roundHalfEven (num den : Nat) : Nat :=
  let low := num / den
  let rest := num % den
  if 2 * rest < den then low
  else if den < 2 * rest then low + 1
  else if low % 2 = 0 then low else low + 1

/-- `significand * 2 ^ exponent`. -/
structure Magnitude where
  significand : Nat
  exponent : Int
deriving DecidableEq, Inhabited

namespace Magnitude

def zero : Magnitude := ⟨0, 0⟩

/-- The magnitude as a quotient of two whole numbers, the second a power of two. -/
def numerator (m : Magnitude) : Nat := m.significand * Nat.pow 2 m.exponent.toNat

def denominator (m : Magnitude) : Nat := Nat.pow 2 (-m.exponent).toNat

end Magnitude

/-- A binary format: the width of a full significand, and the exponents of
the finest and of the coarsest unit it has. -/
structure Format where
  width : Nat
  finest : Int
  coarsest : Int

namespace Format

/-- The 32-bit interchange format. -/
def binary32 : Format := ⟨24, -149, 104⟩

/-- The 64-bit interchange format. -/
def binary64 : Format := ⟨53, -1074, 971⟩

/-- The greatest `e` with `2 ^ e ≤ num / den`, for positive `num` and `den`. -/
def floorLog2 (num den : Nat) : Int :=
  let e : Int := (num.log2 : Int) - (den.log2 : Int)
  if den * Nat.pow 2 e.toNat ≤ num * Nat.pow 2 (-e).toNat then e else e - 1

/-- The magnitude of the format nearest to `num / den`; none when that lies
past the largest. -/
def nearest (f : Format) (num den : Nat) : Option Magnitude :=
  if num = 0 then some .zero
  else
    let unit := max f.finest (floorLog2 num den - ((f.width : Int) - 1))
    let significand :=
      roundHalfEven (num * Nat.pow 2 (-unit).toNat) (den * Nat.pow 2 unit.toNat)
    let rounded : Magnitude :=
      if significand = Nat.pow 2 f.width then ⟨Nat.pow 2 (f.width - 1), unit + 1⟩
      else ⟨significand, unit⟩
    if f.coarsest < rounded.exponent then none else some rounded

/-- The rounded product of two magnitudes. -/
def mul (f : Format) (a b : Magnitude) : Option Magnitude :=
  f.nearest (a.numerator * b.numerator) (a.denominator * b.denominator)

/-- The rounded quotient of two magnitudes, the second positive. -/
def div (f : Format) (a b : Magnitude) : Option Magnitude :=
  f.nearest (a.numerator * b.denominator) (a.denominator * b.numerator)

end Format

end ScriptLift
