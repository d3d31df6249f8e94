import ScriptLift.Numeric.Binary

/- The shortest decimal of a binary magnitude: the one with the fewest digits
   among those that round to the magnitude, and the nearest to it among the
   shortest. The decimals `c * 10 ^ t` of one exponent form a grid; the grids
   are tried from the coarsest that has a point at or below the magnitude, and
   on each only the two neighbours of the magnitude matter. -/
namespace ScriptLift

/-- `coefficient * 10 ^ exponent`. -/
structure Decimal where
  coefficient : Nat
  exponent : Int
deriving DecidableEq, Inhabited

namespace Decimal

/-- The decimals that round to a magnitude, as a pair of bounds in units of a
quarter of its last place, and whether the bounds belong to them. The bound
below is nearer when the magnitude is the least of its binade. -/
structure Basin where
  low : Nat
  high : Nat
  unit : Int
  closed : Bool

/-- The basin of a positive magnitude of the format. -/
def basin (f : Format) (m : Magnitude) : Basin :=
  { low := 4 * m.significand -
      (if m.significand = Nat.pow 2 (f.width - 1) ∧ f.finest < m.exponent then 1 else 2)
    high := 4 * m.significand + 2
    unit := m.exponent - 2
    closed := m.significand % 2 == 0 }

/-- Whether `c * 10 ^ t` lies in the basin. -/
def Basin.holds (b : Basin) (c : Nat) (t : Int) : Bool :=
  let decimal := c * Nat.pow 10 t.toNat * Nat.pow 2 (-b.unit).toNat
  let scale := Nat.pow 2 b.unit.toNat * Nat.pow 10 (-t).toNat
  if b.closed then b.low * scale ≤ decimal && decimal ≤ b.high * scale
  else b.low * scale < decimal && decimal < b.high * scale

/-- The neighbour of the magnitude on the grid of `10 ^ t` that lies in the
basin: of two the nearer, the upper when they are equally near. -/
def onGrid (b : Basin) (m : Magnitude) (t : Int) : Option Nat :=
  let num := m.numerator * Nat.pow 10 (-t).toNat
  let den := m.denominator * Nat.pow 10 t.toNat
  let low := num / den
  if low = 0 then none
  else match b.holds low t, b.holds (low + 1) t with
    | true, true => some (if 2 * (num % den) < den then low else low + 1)
    | true, false => some low
    | false, true => some (low + 1)
    | false, false => none

/-- Tries `fuel` grids, from that of `10 ^ t` to finer ones. -/
def search (b : Basin) (m : Magnitude) : Nat → Int → Decimal
  | 0, t => ⟨m.numerator * Nat.pow 10 (-t).toNat / (m.denominator * Nat.pow 10 t.toNat), t⟩
  | fuel + 1, t =>
    match onGrid b m t with
    | some c => ⟨c, t⟩
    | none => search b m fuel (t - 1)

/-- Drops the zeros at the end of the coefficient, up to `fuel` of them. -/
def trim : Nat → Decimal → Decimal
  | 0, d => d
  | fuel + 1, d =>
    if d.coefficient % 10 = 0 then trim fuel ⟨d.coefficient / 10, d.exponent + 1⟩ else d

/-- The shortest decimal of a magnitude of the format. A power of ten just
above the magnitude starts the search; seventeen digits always suffice in the
formats here. -/
def shortest (f : Format) (m : Magnitude) : Decimal :=
  if m.significand = 0 then ⟨0, 0⟩
  else
    let bits : Int := (m.significand.log2 : Int) + m.exponent + 1
    trim 2 (search (basin f m) m 24 (bits * 30103 / 100000 + 1))

end Decimal

end ScriptLift
