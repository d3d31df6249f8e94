import ScriptLift.Diagnostic.Value

/- Why recovering source from a package fails. Each constructor is a cause;
   `Error.message` is its wording. -/
namespace ScriptLift

/-- What a name was looked up as. -/
inductive Sought where
  | classDecl
  | enum
  | object

def Sought.word : Sought → String
  | .classDecl => "Class"
  | .enum => "Enum"
  | .object => "Object"

inductive Error where
  /-- A file could not be read or written. -/
  | file
  /-- The text is not the JSON form of a package. -/
  | model
  | notFound (sought : Sought) (name : String)
  /-- The reference points outside the directory, or not to an export. -/
  | unresolved (reference : Reference)
  /-- A stored ordinal has no literal in its enum. -/
  | noLiteral (enumName : String) (ordinal : UInt8) (count : Nat)
  /-- The kind of the property demands a value. -/
  | unsetSlot (template : Property)
  /-- The value is not of the property's kind. -/
  | cannotHold (template : Property) (value : Value)
  /-- No reference to a polygon list was found behind a brush. -/
  | noPolygons (object : String)
  /-- The outer objects of a reference form a cycle. -/
  | cyclicOuter (reference : Reference)
  /-- Objects written in place would contain one another without end. -/
  | cyclicExport (reference : Reference)

def Error.message : Error → String
  | .file => "I/O error"
  | .model => "Invalid object model"
  | .notFound sought name => sought.word ++ " '" ++ name ++ "' not found"
  | .unresolved r =>
    "Object reference " ++ toString r.index.toInt ++ " does not resolve to an import or export"
  | .noLiteral enumName ordinal count =>
    "Ordinal " ++ toString ordinal.toNat ++ " is out of range for enum " ++ enumName ++
      " (" ++ toString count ++ " literals)"
  | .unsetSlot template =>
    "Malformed value: " ++ template.kind.label ++ " property " ++ template.name ++
      " has an unset slot"
  | .cannotHold template value =>
    "Malformed value: " ++ template.kind.label ++ " property " ++ template.name ++
      " cannot hold " ++ Diagnostic.value value
  | .noPolygons object => "Polygon list not found in brush " ++ object
  | .cyclicOuter r =>
    "Internal error: cyclic outer chain at reference " ++ toString r.index.toInt
  | .cyclicExport r =>
    "Internal error: cyclic export at reference " ++ toString r.index.toInt

end ScriptLift
