import ScriptLift.Declaration.Property
import ScriptLift.Package.Name

/- The words of a property's declaration: its type, its modifiers and its
   category. -/
namespace ScriptLift

/-- The type of a kind in source. Types are written by their last name. -/
def Kind.typeName : Kind → String
  | .byte none => "byte"
  | .byte (some path) => shortName path
  | .int => "int"
  | .bool => "bool"
  | .float => "float"
  | .name => "name"
  | .string => "string"
  | .object path => shortName path
  | .metaclass path => "class<" ++ shortName path ++ ">"
  | .array ⟨_, element, _, _, _, _⟩ => "array<" ++ element.typeName ++ ">"
  | .struct path => shortName path
  | .delegate path => "delegate<" ++ shortName path ++ ">"

namespace Property

def typeName (p : Property) : String := p.kind.typeName

/-- The enum that types the property itself, not its elements. -/
def enumName (p : Property) : Option String :=
  match p.kind with
  | .byte (some path) => some (shortName path)
  | _ => none

/-- A modifier: its word, the flag that asks for it, and the flag that makes it
redundant. -/
structure Modifier where
  word : String
  flag : PropertyFlags
  impliedBy : Option PropertyFlags

/-- The modifiers in the order of writing. -/
def modifierTable : List Modifier :=
  [ ⟨"const", .const, none⟩
  , ⟨"input", .input, none⟩
  , ⟨"export", .exportObject, none⟩
  , ⟨"optional", .optionalParm, none⟩
  , ⟨"out", .outParm, none⟩
  , ⟨"skip", .skipParm, none⟩
  , ⟨"coerce", .coerceParm, none⟩
  , ⟨"native", .native, none⟩
  , ⟨"transient", .transient, none⟩
  , ⟨"globalconfig", .globalConfig, none⟩
  , ⟨"config", .config, some .globalConfig⟩
  , ⟨"localized", .localized, none⟩
  , ⟨"travel", .travel, none⟩
  , ⟨"editconst", .editConst, none⟩
  , ⟨"editinlineuse", .editInlineUse, none⟩
  , ⟨"editinline", .editInline, some .editInlineUse⟩
  , ⟨"edfindable", .edFindable, none⟩
  , ⟨"deprecated", .deprecated, none⟩
  , ⟨"editinlinenotify", .editInlineNotify, none⟩ ]

def Modifier.appliesTo (m : Modifier) (flags : PropertyFlags) : Bool :=
  flags.has m.flag && !(m.impliedBy.any flags.has)

/-- The modifiers of a property, in the order of writing. -/
def modifiers (p : Property) : List String :=
  (if p.objectFlags.has .isPrivate then ["private"] else []) ++
    (modifierTable.filter (·.appliesTo p.flags)).map (·.word)

/-- The category of an editable property, left empty when it is the name of the
owner. -/
def categoryText (p : Property) (owner : String) : Option String :=
  if p.flags.has .edit then
    let category := match p.category with
      | some category => if sameName category owner then "" else category
      | none => ""
    some ("(" ++ category ++ ")")
  else none

end Property

end ScriptLift
