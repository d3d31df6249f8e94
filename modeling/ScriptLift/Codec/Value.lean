import ScriptLift.Codec.Property
import ScriptLift.Codec.Token
import ScriptLift.Stored.Value

/- Stored values and settings as JSON. -/
namespace ScriptLift

open Json

/-- The values that are not made of values. -/
def Value.ofScalar? (content : Json) : String → Option Value
  | "Byte" => content.asUInt8?.map .byte
  | "Int" => content.asInt32?.map .int
  | "Bool" => content.asBool?.map .bool
  | "Float" => content.asSingle?.map .float
  | "Name" => content.asString?.map .name
  | "Str" => content.asString?.map .string
  | "Object" => (Reference.ofJson? content).map .object
  | _ => none

mutual

/-- Reads a value: the object of one member and a list in it each spend a
container. -/
def Value.ofJson? : Decoder Value
  | 0, _ => none
  | 1, j => do
    let (tag, content) ← tagged? j
    Value.ofScalar? content tag
  | depth + 2, j => do
    let (tag, content) ← tagged? j
    match tag with
    | "Array" => (elementsWith (Value.ofJson? depth) content).map .array
    | "Struct" => (elementsWith (Setting.ofJson? depth) content).map .struct
    | _ => Value.ofScalar? content tag

/-- Reads a setting: the record and the list of slots each spend a container. -/
def Setting.ofJson? : Decoder Setting
  | 0, _ => none
  | 1, _ => none
  | depth + 2, j => do
    let r ← fields? ["template", "slots"] j
    return {
      template := ← r.required "template" (Property.ofJson? (depth + 1))
      slots := ← r.required "slots" (elementsWith (orNull (Value.ofJson? depth))) }

end

mutual

def Value.toJson (float : Single → Json) : Value → Json
  | .byte value => record [("Byte", .nat value.toNat)]
  | .int value => record [("Int", .int value.toInt)]
  | .bool value => record [("Bool", .bool value)]
  | .float value => record [("Float", float value)]
  | .name value => record [("Name", .str value)]
  | .string value => record [("Str", .str value)]
  | .object reference => record [("Object", reference.toJson)]
  | .array elements => record [("Array", .array (Value.listToJson float elements))]
  | .struct fields => record [("Struct", .array (Setting.listToJson float fields))]

def Value.listToJson (float : Single → Json) : List Value → List Json
  | [] => []
  | v :: vs => v.toJson float :: Value.listToJson float vs

def Value.slotsToJson (float : Single → Json) : List (Option Value) → List Json
  | [] => []
  | none :: vs => .null :: Value.slotsToJson float vs
  | some v :: vs => v.toJson float :: Value.slotsToJson float vs

def Setting.toJson (float : Single → Json) : Setting → Json
  | ⟨template, slots⟩ =>
    record [("template", template.toJson), ("slots", .array (Value.slotsToJson float slots))]

def Setting.listToJson (float : Single → Json) : List Setting → List Json
  | [] => []
  | s :: ss => s.toJson float :: Setting.listToJson float ss

end

end ScriptLift
