import ScriptLift.Declaration.Property
import ScriptLift.Script.Token

/- Values stored in a package: the defaults of a class and the properties of an
   object. A setting is a property with a value for each of its slots; a slot
   without a value, or past the stored ones, is unset. -/
namespace ScriptLift

mutual

inductive Value where
  | byte (value : UInt8)
  | int (value : Int32)
  | bool (value : Bool)
  | float (value : Single)
  | name (value : String)
  | string (value : String)
  | object (reference : Reference)
  | array (elements : List Value)
  | struct (fields : List Setting)

structure Setting where
  template : Property
  slots : List (Option Value)

end

/-- The value of a slot, none when it is unset. -/
def Setting.slot (s : Setting) (i : Nat) : Option Value := s.slots[i]?.join

end ScriptLift
