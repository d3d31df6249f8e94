import ScriptLift.Declaration.Member
import ScriptLift.Package.Table

/- A loaded package: a directory of imported and exported objects, the payloads
   of its exports, and what is known of classes and enums of other packages. -/
namespace ScriptLift

/-- An object of another package. -/
structure Import where
  name : String
  classPackage : String
  className : String
  outer : Reference

/-- One face of a brush. -/
structure Polygon where
  vertices : List Vec3
  origin : Vec3
  normal : Vec3
  textureU : Vec3
  textureV : Vec3
  itemName : String
  texture : Reference
  flags : UInt32
  link : Int32

/-- An object's settings, and the bytes after them that were not understood. -/
structure ObjectInstance where
  settings : List Setting
  unread : List UInt8

/-- What an export holds. -/
inductive Payload where
  | classDecl (decl : ClassDecl)
  | object (content : ObjectInstance)
  | polygons (list : List Polygon)

/-- An object of this package. -/
structure Export where
  name : String
  classRef : Reference
  superRef : Reference
  outer : Reference
  flags : ObjectFlags
  payload : Option Payload

structure Package where
  name : String
  imports : List Import
  exports : List Export
  /-- The parent of each class whose ancestry is known, by full names. -/
  hierarchy : Table String
  /-- Enums of other packages by full path. -/
  enums : Table EnumDecl

namespace Package

/-- A package that holds nothing. -/
def named (name : String) : Package := ⟨name, [], [], .empty, .empty⟩

/-- The exported classes, in directory order. -/
def classes (p : Package) : List ClassDecl :=
  p.exports.filterMap fun e =>
    match e.payload with
    | some (.classDecl c) => some c
    | _ => none

end Package

end ScriptLift
