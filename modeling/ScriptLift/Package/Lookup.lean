import ScriptLift.Error
import ScriptLift.Options
import ScriptLift.Package.Directory
import ScriptLift.Package.Name

/- Finding things in a package: entries by reference, paths along outer
   objects, classes by name, ancestors, and enums by path. -/
namespace ScriptLift

/-- A resolved directory entry. -/
inductive Entry where
  | imported (i : Import)
  | exported (e : Export)

namespace Entry

def name : Entry → String
  | .imported i => i.name
  | .exported e => e.name

def outer : Entry → Reference
  | .imported i => i.outer
  | .exported e => e.outer

end Entry

namespace Package

/-- The entry of a reference, none for the reference to nothing. -/
def entry (p : Package) (r : Reference) : Except Error (Option Entry) :=
  let n := r.index.toInt
  if n = 0 then .ok none
  else if 0 < n then
    match p.exports[n.toNat - 1]? with
    | some e => .ok (some (.exported e))
    | none => .error (.unresolved r)
  else
    match p.imports[(-n).toNat - 1]? with
    | some i => .ok (some (.imported i))
    | none => .error (.unresolved r)

/-- The entry of a reference that has to be an export. -/
def exportOf (p : Package) (r : Reference) : Except Error Export := do
  match ← p.entry r with
  | some (.exported e) => return e
  | _ => throw (.unresolved r)

/-! Paths. -/

/-- How many objects the directory holds: no chain of outer objects without a
cycle is longer. -/
def objectCount (p : Package) : Nat := p.imports.length + p.exports.length

/-- The names from an object outwards, up to `fuel` of them. -/
def namesOutward (p : Package) (start : Reference) : Nat → Reference → Except Error (List String)
  | 0, r => do
    match ← p.entry r with
    | none => return []
    | some _ => throw (.cyclicOuter start)
  | fuel + 1, r => do
    match ← p.entry r with
    | none => return []
    | some e => return e.name :: (← namesOutward p start fuel e.outer)

/-- The path of an object inside its package, outermost name first. -/
def innerName (p : Package) (r : Reference) : Except Error String := do
  return ".".intercalate (← p.namesOutward r (p.objectCount + 1) r).reverse

/-- The full path of an object. An import's outermost object is its package;
an export's path starts with the name of this package. -/
def fullName (p : Package) (r : Reference) : Except Error String := do
  match ← p.entry r with
  | none => return "None"
  | some (.imported _) => p.innerName r
  | some (.exported _) => return extendPath p.name (← p.innerName r)

/-- The name of an entry's class. -/
def className (p : Package) : Entry → Except Error String
  | .imported i => .ok i.className
  | .exported e => do
    match ← p.entry e.classRef with
    | some c => return c.name
    | none => return "Class"

/-- The full path of an export's class. -/
def classFullName (p : Package) (e : Export) : Except Error String :=
  if e.classRef.isNone then .ok "Core.Class" else p.fullName e.classRef

/-! Classes. -/

/-- Whether `base` is met on the way up from `name`, in at most `fuel` names. -/
def meets (hierarchy : Table String) (base : String) : Nat → String → Bool
  | 0, _ => false
  | fuel + 1, name =>
    sameName name base ||
      match hierarchy.get? name with
      | some parent => meets hierarchy base fuel parent
      | none => false

/-- Whether the class is `base` or one of its descendants. -/
def isSubclass (p : Package) (base name : String) : Bool :=
  meets p.hierarchy base (p.hierarchy.size + 1) name

/-- The exported class of that name. -/
def findClass (p : Package) (name : String) : Except Error ClassDecl :=
  match p.classes.find? fun c => sameName c.name name with
  | some c => .ok c
  | none => .error (.notFound .classDecl name)

/-! Enums. -/

mutual

/-- The enums declared in a member, with their paths. -/
def memberEnums (path : String) : Member → List (String × EnumDecl)
  | .enum e => [(extendPath path e.name, e)]
  | .struct s => scopeEnums path s
  | .state s => scopeEnums path s
  | _ => []

def scopeEnums (path : String) : Scope → List (String × EnumDecl)
  | ⟨name, _, members⟩ => membersEnums (extendPath path name) members

def membersEnums (path : String) : List Member → List (String × EnumDecl)
  | [] => []
  | m :: ms => memberEnums path m ++ membersEnums path ms

end

/-- The enums declared in the classes of the package, with their paths. -/
def declaredEnums (p : Package) : List (String × EnumDecl) :=
  p.classes.flatMap fun c => membersEnums (extendPath p.name c.name) c.members

/-- The first enum whose path ends in `name`: of those declared here, else of
those known from other packages. -/
def findEnum (p : Package) (name : String) : Except Error EnumDecl :=
  match (p.declaredEnums ++ p.enums.entries).find? fun (path, _) => endsPath path name with
  | some (_, e) => .ok e
  | none => .error (.notFound .enum name)

end Package

/-- A package under the options that decide how its objects are named. -/
structure Context where
  package : Package
  mapMode : Bool

namespace Context

def ofOptions (p : Package) (o : Options) : Context := ⟨p, o.mapMode⟩

/-- What paths of this package start with when they belong to a level. -/
def levelName : String := "myLevel"

/-- The path of an entry in a literal. -/
def pathOf (c : Context) (r : Reference) : Entry → Except Error String
  | .imported _ => c.package.fullName r
  | .exported _ => do
    if c.mapMode then return extendPath levelName (← c.package.innerName r)
    else c.package.fullName r

/-- An object as a literal: its class and its quoted path. -/
def link (c : Context) (r : Reference) : Except Error String := do
  match ← c.package.entry r with
  | none => return "None"
  | some e => return (← c.package.className e) ++ "'" ++ (← c.pathOf r e) ++ "'"

end Context

end ScriptLift
