import ScriptLift.Codec.Member
import ScriptLift.Json.Reader
import ScriptLift.Json.Writer
import ScriptLift.Numeric.SingleText
import ScriptLift.Package.Directory

/- Packages as JSON text. -/
namespace ScriptLift

open Json

def Import.ofJson? : Decoder Import :=
  recordOf ["name", "class_package", "class_name", "outer"] fun _ r => do
    return {
      name := ← r.required "name" asString?
      classPackage := ← r.required "class_package" asString?
      className := ← r.required "class_name" asString?
      outer := ← r.defaulted "outer" .none Reference.ofJson? }

def Import.toJson (i : Import) : Json :=
  record
    [ ("name", .str i.name)
    , ("class_package", .str i.classPackage)
    , ("class_name", .str i.className)
    , ("outer", i.outer.toJson) ]

def Polygon.ofJson? : Decoder Polygon :=
  recordOf ["vertices", "origin", "normal", "texture_u", "texture_v", "item_name", "texture",
      "flags", "link"] fun depth r => do
    return {
      vertices := ← r.required "vertices" (listOf Vec3.ofJson? depth)
      origin := ← r.required "origin" (Vec3.ofJson? depth)
      normal := ← r.required "normal" (Vec3.ofJson? depth)
      textureU := ← r.required "texture_u" (Vec3.ofJson? depth)
      textureV := ← r.required "texture_v" (Vec3.ofJson? depth)
      itemName := ← r.defaulted "item_name" "None" asString?
      texture := ← r.defaulted "texture" .none Reference.ofJson?
      flags := ← r.defaulted "flags" 0 asUInt32?
      link := ← r.defaulted "link" 0 asInt32? }

def Polygon.toJson (float : Single → Json) (p : Polygon) : Json :=
  record
    [ ("vertices", .array (p.vertices.map (Vec3.toJson float)))
    , ("origin", p.origin.toJson float)
    , ("normal", p.normal.toJson float)
    , ("texture_u", p.textureU.toJson float)
    , ("texture_v", p.textureV.toJson float)
    , ("item_name", .str p.itemName)
    , ("texture", p.texture.toJson)
    , ("flags", .nat p.flags.toNat)
    , ("link", .int p.link.toInt) ]

def ObjectInstance.ofJson? : Decoder ObjectInstance :=
  recordOf ["properties", "unread_bytes"] fun depth r => do
    return {
      settings := ← r.defaulted "properties" [] (listOf Setting.ofJson? depth)
      unread := ← r.defaulted "unread_bytes" [] (listOf (flat asUInt8?) depth) }

def ObjectInstance.toJson (float : Single → Json) (o : ObjectInstance) : Json :=
  record
    [ ("properties", .array (Setting.listToJson float o.settings))
    , ("unread_bytes", .array (o.unread.map fun b => .nat b.toNat)) ]

def Payload.ofJson? : Decoder Payload
  | 0, _ => none
  | depth + 1, j => do
    let (tag, content) ← tagged? j
    match tag with
    | "Class" => (ClassDecl.ofJson? depth content).map .classDecl
    | "Object" => (ObjectInstance.ofJson? depth content).map .object
    | "Polys" =>
      recordOf ["polygons"] (fun depth r =>
        (r.required "polygons" (listOf Polygon.ofJson? depth)).map .polygons) depth content
    | _ => none

def Payload.toJson (float : Single → Json) : Payload → Json
  | .classDecl c => record [("Class", c.toJson float)]
  | .object o => record [("Object", o.toJson float)]
  | .polygons list =>
    record [("Polys", record [("polygons", .array (list.map (Polygon.toJson float)))])]

def Export.ofJson? : Decoder Export :=
  recordOf ["name", "class", "super_class", "outer", "flags", "object"] fun depth r => do
    return {
      name := ← r.required "name" asString?
      classRef := ← r.defaulted "class" .none Reference.ofJson?
      superRef := ← r.defaulted "super_class" .none Reference.ofJson?
      outer := ← r.defaulted "outer" .none Reference.ofJson?
      flags := ⟨← r.defaulted "flags" 0 asUInt32?⟩
      payload := ← r.defaulted "object" none (orNull (Payload.ofJson? depth)) }

def Export.toJson (float : Single → Json) (e : Export) : Json :=
  record
    [ ("name", .str e.name)
    , ("class", e.classRef.toJson)
    , ("super_class", e.superRef.toJson)
    , ("outer", e.outer.toJson)
    , ("flags", .nat e.flags.bits.toNat)
    , ("object", (e.payload.map (Payload.toJson float)).getD .null) ]

namespace Package

def ofJson? : Decoder Package :=
  recordOf ["name", "imports", "exports", "class_hierarchy", "enums"] fun depth r => do
    return {
      name := ← r.required "name" asString?
      imports := ← r.defaulted "imports" [] (listOf Import.ofJson? depth)
      exports := ← r.defaulted "exports" [] (listOf Export.ofJson? depth)
      hierarchy := .ofList (← r.defaulted "class_hierarchy" [] (tableOf (flat asString?) depth))
      enums := .ofList (← r.defaulted "enums" [] (tableOf EnumDecl.ofJson? depth)) }

def toJson (float : Single → Json) (p : Package) : Json :=
  record
    [ ("name", .str p.name)
    , ("imports", .array (p.imports.map Import.toJson))
    , ("exports", .array (p.exports.map (Export.toJson float)))
    , ("class_hierarchy", record (p.hierarchy.entries.map fun (name, parent) => (name, .str parent)))
    , ("enums", record (p.enums.entries.map fun (path, e) => (path, e.toJson))) ]

/-- The package that a text describes. -/
def ofText? (text : String) : Option Package := (Json.parse? text).bind (ofJson? maxDepth)

/-- A finite float in the fewest digits that tell it apart, in exponent form;
null for any other. -/
def floatJson (x : Single) : Json :=
  if x.isFinite then
    let d := Decimal.shortest .binary32 x.magnitude
    .number ⟨x.negative, digitsOf d.coefficient, [Digit.zero],
      some (decide (d.exponent < 0), digitsOf d.exponent.natAbs)⟩
  else .null

/-- The text of a package. -/
def toText (p : Package) : String := (p.toJson floatJson).render

end Package

end ScriptLift
