import ScriptLift.Json.Decode
import ScriptLift.Declaration.Property

/- Properties and their kinds as JSON. Flag words are plain numbers. A property
   and the kind in it read each other; each opens a container at least. -/
namespace ScriptLift

open Json

/-- The kinds without content. -/
def Kind.ofUnitTag? : String → Option Kind
  | "Int" => some .int
  | "Bool" => some .bool
  | "Float" => some .float
  | "Name" => some .name
  | "Str" => some .string
  | _ => none

/-- The kinds that hold a type name. -/
def Kind.ofPath? (depth : Nat) (content : Json) : String → Option Kind
  | "Byte" =>
    recordOf ["enum_type"] (fun _ r =>
      (r.defaulted "enum_type" none (orNull asString?)).map .byte) depth content
  | "Object" =>
    recordOf ["class"] (fun _ r => (r.required "class" asString?).map .object) depth content
  | "Class" =>
    recordOf ["meta_class"] (fun _ r =>
      (r.required "meta_class" asString?).map .metaclass) depth content
  | "Struct" =>
    recordOf ["struct_name"] (fun _ r =>
      (r.required "struct_name" asString?).map .struct) depth content
  | "Delegate" =>
    recordOf ["function"] (fun _ r => (r.required "function" asString?).map .delegate) depth content
  | _ => none

def Property.fieldNames : List String :=
  ["name", "kind", "flags", "object_flags", "array_dim", "category"]

/-- The property of these fields, given a reader of its kind. -/
def Property.ofRecord? (kind : Json → Option Kind) (r : Record) : Option Property := do
  return {
    name := ← r.required "name" asString?
    kind := ← r.required "kind" kind
    flags := ⟨← r.defaulted "flags" 0 asUInt32?⟩
    objectFlags := ⟨← r.defaulted "object_flags" 0 asUInt32?⟩
    arrayDim := ← r.defaulted "array_dim" 1 asUInt32?
    category := ← r.defaulted "category" none (orNull asString?) }

mutual

def Kind.ofJson? : Decoder Kind
  | 0, j => j.asString?.bind Kind.ofUnitTag?
  | 1, j => (unitTag? j).bind Kind.ofUnitTag?
  | depth + 2, j =>
    match unitTag? j with
    | some tag => Kind.ofUnitTag? tag
    | none => do
      let (tag, content) ← tagged? j
      match tag with
      | "Array" =>
        let r ← fields? ["inner"] content
        return .array (← r.required "inner" (Property.ofJson? depth))
      | _ => Kind.ofPath? (depth + 1) content tag

def Property.ofJson? : Decoder Property
  | 0, _ => none
  | depth + 1, j => do
    Property.ofRecord? (Kind.ofJson? depth) (← fields? Property.fieldNames j)

end

mutual

def Kind.toJson : Kind → Json
  | .byte none => record [("Byte", record [("enum_type", .null)])]
  | .byte (some path) => record [("Byte", record [("enum_type", .str path)])]
  | .int => .str "Int"
  | .bool => .str "Bool"
  | .float => .str "Float"
  | .name => .str "Name"
  | .string => .str "Str"
  | .object path => record [("Object", record [("class", .str path)])]
  | .metaclass path => record [("Class", record [("meta_class", .str path)])]
  | .array element => record [("Array", record [("inner", element.toJson)])]
  | .struct path => record [("Struct", record [("struct_name", .str path)])]
  | .delegate path => record [("Delegate", record [("function", .str path)])]

def Property.toJson : Property → Json
  | ⟨name, kind, flags, objectFlags, arrayDim, category⟩ =>
    record
      [ ("name", .str name)
      , ("kind", kind.toJson)
      , ("flags", .nat flags.bits.toNat)
      , ("object_flags", .nat objectFlags.bits.toNat)
      , ("array_dim", .nat arrayDim.toNat)
      , ("category", (category.map Json.str).getD .null) ]

end

end ScriptLift
