import ScriptLift.Numeric.Numeral

/- JSON values as they are written.

   Numbers keep their digits, objects keep their members in order with repeats,
   and a string is `none` when its escapes name half of a surrogate pair: such a
   string is well formed as text but holds no characters, so it can be skipped
   and not read. What a value means is left to the decoders. -/
namespace ScriptLift

/-- A number as it is written: sign, digits before the point, digits after it
(none without a point), and the exponent with its sign. -/
structure NumberLiteral where
  negative : Bool
  whole : List Digit
  fraction : List Digit
  exponent : Option (Bool × List Digit)
deriving DecidableEq

inductive Json where
  | null
  | bool (b : Bool)
  | number (n : NumberLiteral)
  | string (s : Option String)
  | array (elements : List Json)
  | object (members : List (Option String × Json))

namespace Json

/-- A string that holds characters. -/
def str (s : String) : Json := .string (some s)

/-- A whole number in plain digits. -/
def int (i : Int) : Json := .number ⟨decide (i < 0), digitsOf i.natAbs, [], none⟩

def nat (n : Nat) : Json := .number ⟨false, digitsOf n, [], none⟩

/-- An object from named members. -/
def record (members : List (String × Json)) : Json :=
  .object (members.map fun (name, value) => (some name, value))

/-- The first member of that name. -/
def member? (j : Json) (name : String) : Option Json :=
  match j with
  | .object members => members.lookup (some name)
  | _ => none

end Json

end ScriptLift
