import ScriptLift.Codec.Value
import ScriptLift.Declaration.Member

/- Declarations as JSON. -/
namespace ScriptLift

open Json

def EnumDecl.ofJson? : Decoder EnumDecl :=
  recordOf ["name", "values"] fun depth r => do
    return {
      name := ← r.required "name" asString?
      values := ← r.required "values" (listOf (flat asString?) depth) }

def EnumDecl.toJson (e : EnumDecl) : Json :=
  record [("name", .str e.name), ("values", .array (e.values.map .str))]

def ConstDecl.ofJson? : Decoder ConstDecl :=
  recordOf ["name", "value"] fun _ r => do
    return ⟨← r.required "name" asString?, ← r.required "value" asString?⟩

def ConstDecl.toJson (c : ConstDecl) : Json :=
  record [("name", .str c.name), ("value", .str c.value)]

def FunctionDecl.ofJson? : Decoder FunctionDecl :=
  recordOf ["name", "flags", "native_index", "operator_precedence", "properties", "bytecode"]
    fun depth r => do
      return {
        name := ← r.required "name" asString?
        flags := ⟨← r.defaulted "flags" 0 asUInt32?⟩
        nativeIndex := ← r.defaulted "native_index" 0 asUInt16?
        precedence := ← r.defaulted "operator_precedence" 0 asUInt8?
        properties := ← r.defaulted "properties" [] (listOf Property.ofJson? depth)
        body := ← r.defaulted "bytecode" [] (listOf Instruction.ofJson? depth) }

def FunctionDecl.toJson (float : Single → Json) (f : FunctionDecl) : Json :=
  record
    [ ("name", .str f.name)
    , ("flags", .nat f.flags.bits.toNat)
    , ("native_index", .nat f.nativeIndex.toNat)
    , ("operator_precedence", .nat f.precedence.toNat)
    , ("properties", .array (f.properties.map Property.toJson))
    , ("bytecode", .array (f.body.map (Instruction.toJson float))) ]

/-- A name that may be missing. -/
def optionalName (name : Option String) : Json := (name.map Json.str).getD .null

def Scope.fieldNames : List String := ["name", "super_name", "children"]

/-- The scope of these fields, given a reader of its list of members. -/
def Scope.ofRecord? (members : Json → Option (List Member)) (r : Record) : Option Scope := do
  return {
    name := ← r.required "name" asString?
    parent := ← r.defaulted "super_name" none (orNull asString?)
    members := ← r.defaulted "children" [] members }

/-- Reads a member: the object of one member, a scope's record and its list of
members each spend a container. -/
def Member.ofJson? : Decoder Member
  | 0, _ => none
  | depth + 1, j => do
    let (tag, content) ← tagged? j
    match tag with
    | "Const" => (ConstDecl.ofJson? depth content).map .const
    | "Enum" => (EnumDecl.ofJson? depth content).map .enum
    | "Property" => (Property.ofJson? depth content).map .property
    | "Function" => (FunctionDecl.ofJson? depth content).map .function
    | _ =>
      match depth with
      | 0 => none
      | inner + 1 =>
        let members := match inner with
          | 0 => fun _ => none
          | left + 1 => elementsWith (Member.ofJson? left)
        match tag with
        | "Struct" => do
          return .struct (← Scope.ofRecord? members (← fields? Scope.fieldNames content))
        | "State" => do
          return .state (← Scope.ofRecord? members (← fields? Scope.fieldNames content))
        | _ => none

mutual

def Member.toJson (float : Single → Json) : Member → Json
  | .const c => record [("Const", c.toJson)]
  | .enum e => record [("Enum", e.toJson)]
  | .struct s => record [("Struct", s.toJson float)]
  | .property p => record [("Property", p.toJson)]
  | .function f => record [("Function", f.toJson float)]
  | .state s => record [("State", s.toJson float)]

def Scope.toJson (float : Single → Json) : Scope → Json
  | ⟨name, parent, members⟩ =>
    record
      [ ("name", .str name)
      , ("super_name", optionalName parent)
      , ("children", .array (Member.listToJson float members)) ]

def Member.listToJson (float : Single → Json) : List Member → List Json
  | [] => []
  | m :: ms => m.toJson float :: Member.listToJson float ms

end

def ClassDecl.ofJson? : Decoder ClassDecl :=
  recordOf ["name", "super_name", "children", "defaults"] fun depth r => do
    return {
      name := ← r.required "name" asString?
      parent := ← r.defaulted "super_name" none (orNull asString?)
      members := ← r.defaulted "children" [] (listOf Member.ofJson? depth)
      defaults := ← r.defaulted "defaults" [] (listOf Setting.ofJson? depth) }

def ClassDecl.toJson (float : Single → Json) (c : ClassDecl) : Json :=
  record
    [ ("name", .str c.name)
    , ("super_name", optionalName c.parent)
    , ("children", .array (Member.listToJson float c.members))
    , ("defaults", .array (Setting.listToJson float c.defaults)) ]

end ScriptLift
