/- Variables, parameters and locals as they are declared.

   The flag words are the bits the compiler writes into a package. A kind says
   what a property holds; an array's kind has the property of its elements. -/
namespace ScriptLift

/-- Whether every bit of `mask` is set in `word`. -/
def includesBits (word mask : UInt32) : Bool := word &&& mask == mask

/-- The flags of a property. -/
structure PropertyFlags where
  bits : UInt32
deriving DecidableEq, Inhabited

namespace PropertyFlags

def has (flags mask : PropertyFlags) : Bool := includesBits flags.bits mask.bits

def edit : PropertyFlags := ⟨0x00000001⟩
def const : PropertyFlags := ⟨0x00000002⟩
def input : PropertyFlags := ⟨0x00000004⟩
def exportObject : PropertyFlags := ⟨0x00000008⟩
def optionalParm : PropertyFlags := ⟨0x00000010⟩
def parm : PropertyFlags := ⟨0x00000080⟩
def outParm : PropertyFlags := ⟨0x00000100⟩
def skipParm : PropertyFlags := ⟨0x00000200⟩
def returnParm : PropertyFlags := ⟨0x00000400⟩
def coerceParm : PropertyFlags := ⟨0x00000800⟩
def native : PropertyFlags := ⟨0x00001000⟩
def transient : PropertyFlags := ⟨0x00002000⟩
def config : PropertyFlags := ⟨0x00004000⟩
def localized : PropertyFlags := ⟨0x00008000⟩
def travel : PropertyFlags := ⟨0x00010000⟩
def editConst : PropertyFlags := ⟨0x00020000⟩
def globalConfig : PropertyFlags := ⟨0x00040000⟩
def editInline : PropertyFlags := ⟨0x04000000⟩
def edFindable : PropertyFlags := ⟨0x08000000⟩
def editInlineUse : PropertyFlags := ⟨0x10000000⟩
def deprecated : PropertyFlags := ⟨0x20000000⟩
def editInlineNotify : PropertyFlags := ⟨0x40000000⟩

end PropertyFlags

/-- The flags of a directory entry or of a declared object. -/
structure ObjectFlags where
  bits : UInt32
deriving DecidableEq, Inhabited

namespace ObjectFlags

def has (flags mask : ObjectFlags) : Bool := includesBits flags.bits mask.bits

def isPrivate : ObjectFlags := ⟨0x00000080⟩

end ObjectFlags

mutual

/-- What a property holds. Type names are dotted paths. -/
inductive Kind where
  | byte (enumPath : Option String)
  | int
  | bool
  | float
  | name
  | string
  | object (classPath : String)
  | metaclass (classPath : String)
  | array (element : Property)
  | struct (structPath : String)
  | delegate (functionPath : String)

/-- A variable, parameter or local. -/
structure Property where
  name : String
  kind : Kind
  flags : PropertyFlags
  objectFlags : ObjectFlags
  /-- Slots of a fixed array; zero and one both mean a single slot. -/
  arrayDim : UInt32
  category : Option String

end

/-- The word for a kind in diagnostics. -/
def Kind.label : Kind → String
  | .byte _ => "byte"
  | .int => "int"
  | .bool => "bool"
  | .float => "float"
  | .name => "name"
  | .string => "string"
  | .object _ => "object"
  | .metaclass _ => "class"
  | .array _ => "array"
  | .struct _ => "struct"
  | .delegate _ => "delegate"

/-- How many slots the property has, at least one. -/
def Property.slotCount (p : Property) : Nat := max p.arrayDim.toNat 1

/-- Whether the slots are told apart by an index. -/
def Property.isMultiSlot (p : Property) : Bool := 1 < p.arrayDim

end ScriptLift
