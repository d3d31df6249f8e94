/- Compact indices: signed whole numbers of one to five bytes.

   The first byte has the sign in bit 7, a mark that more follows in bit 6 and
   six bits of the magnitude. Each further byte has the mark in bit 7 and seven
   bits, more significant than those before it. -/
namespace ScriptLift.CompactIndex

/-- The magnitude that up to `count` further bytes add, the first of them in
units of `weight`. -/
def continued : Nat → Nat → List UInt8 → Option Nat
  | 0, _, _ => none
  | _ + 1, _, [] => none
  | count + 1, weight, b :: bytes =>
    let part := b.toNat % 128 * weight
    if 128 ≤ b.toNat then (continued count (weight * 128) bytes).map (part + ·) else some part

/-- The index that the bytes start with, none when they are cut short, run past
five bytes, or give a number outside 32 bits. -/
def read : List UInt8 → Option Int32
  | [] => none
  | b :: bytes => do
    let low := b.toNat % 64
    let magnitude ← if 64 ≤ b.toNat % 128 then (continued 4 64 bytes).map (low + ·) else some low
    let value : Int := if 128 ≤ b.toNat then -(magnitude : Int) else magnitude
    if Int32.minValue.toInt ≤ value ∧ value ≤ Int32.maxValue.toInt then some (.ofInt value) else none

/-- The index at an offset. -/
def readAt (bytes : List UInt8) (offset : Nat) : Option Int32 := read (bytes.drop offset)

end ScriptLift.CompactIndex
