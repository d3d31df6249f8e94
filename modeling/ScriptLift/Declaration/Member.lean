import ScriptLift.Stored.Value

/- Declarations: the members of a class, of a struct and of a state. A struct
   and a state are both a named scope with members of its own. -/
namespace ScriptLift

/-- The flags of a function. -/
structure FunctionFlags where
  bits : UInt32
deriving DecidableEq, Inhabited

namespace FunctionFlags

def has (flags mask : FunctionFlags) : Bool := includesBits flags.bits mask.bits

def final : FunctionFlags := ⟨0x00000001⟩
def iterator : FunctionFlags := ⟨0x00000004⟩
def latent : FunctionFlags := ⟨0x00000008⟩
def simulated : FunctionFlags := ⟨0x00000100⟩
def exec : FunctionFlags := ⟨0x00000200⟩
def native : FunctionFlags := ⟨0x00000400⟩
def event : FunctionFlags := ⟨0x00000800⟩
def operator : FunctionFlags := ⟨0x00001000⟩
def static : FunctionFlags := ⟨0x00002000⟩

end FunctionFlags

structure EnumDecl where
  name : String
  values : List String
deriving DecidableEq, Inhabited

/-- A constant with its literal as it is stored. -/
structure ConstDecl where
  name : String
  value : String
deriving DecidableEq

/-- A function or operator. Its properties are parameters, return value and
locals in declaration order, told apart by their flags. -/
structure FunctionDecl where
  name : String
  flags : FunctionFlags
  nativeIndex : UInt16
  precedence : UInt8
  properties : List Property
  body : List Instruction

namespace FunctionDecl

/-- The property that holds the return value. -/
def returned (f : FunctionDecl) : Option Property :=
  f.properties.find? (·.flags.has .returnParm)

def parameters (f : FunctionDecl) : List Property :=
  f.properties.filter fun p => p.flags.has .parm && !p.flags.has .returnParm

def locals (f : FunctionDecl) : List Property :=
  f.properties.filter fun p => !p.flags.has .parm

/-- Whether the body does nothing: no instruction, or only the final return. -/
def isEmptyBody (f : FunctionDecl) : Bool :=
  match f.body with
  | [] => true
  | [only] => only.item.isEmptyReturn
  | _ => false

end FunctionDecl

mutual

inductive Member where
  | const (decl : ConstDecl)
  | enum (decl : EnumDecl)
  | struct (scope : Scope)
  | property (decl : Property)
  | function (decl : FunctionDecl)
  | state (scope : Scope)

/-- A struct or a state: its name, what it extends, its members. -/
structure Scope where
  name : String
  parent : Option String
  members : List Member

end

namespace Member

/-- The rank of a member's kind in written source. -/
def rank : Member → Nat
  | .const _ => 0
  | .enum _ => 1
  | .struct _ => 2
  | .property _ => 3
  | .function _ => 4
  | .state _ => 5

def name : Member → String
  | .const c => c.name
  | .enum e => e.name
  | .struct s => s.name
  | .property p => p.name
  | .function f => f.name
  | .state s => s.name

end Member

/-- A class: its members and its default values. -/
structure ClassDecl where
  name : String
  parent : Option String
  members : List Member
  defaults : List Setting

end ScriptLift
