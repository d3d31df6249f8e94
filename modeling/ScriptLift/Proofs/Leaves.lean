import ScriptLift.Package.Directory

/- The strings and the floats that a package is made of.

   All other data of a package is numbers of fixed width, truth values and the shape of its
   trees. `leaves` lists the strings and the floats of each kind of data in it, names of
   fields and alternatives apart; a condition on "every string of the package" or "every
   float of the package" is a condition on its leaves. -/
namespace ScriptLift

/-- A string or a float in the data. -/
inductive Leaf where
  | string (s : String)
  | single (x : Single)

namespace Leaf

/-- The strings among the leaves. -/
def strings (leaves : List Leaf) : List String :=
  leaves.filterMap fun
    | .string s => some s
    | .single _ => none

/-- The floats among the leaves. -/
def singles (leaves : List Leaf) : List Single :=
  leaves.filterMap fun
    | .string _ => none
    | .single x => some x

theorem mem_strings {s : String} {leaves : List Leaf} : s ∈ strings leaves ↔ .string s ∈ leaves := by
  unfold strings
  rw [List.mem_filterMap]
  refine ⟨?_, fun h => ⟨_, h, rfl⟩⟩
  rintro ⟨leaf, hleaf, heq⟩
  cases leaf with
  | string t => exact Option.some.inj heq ▸ hleaf
  | single x => simp at heq

theorem mem_singles {x : Single} {leaves : List Leaf} : x ∈ singles leaves ↔ .single x ∈ leaves := by
  unfold singles
  rw [List.mem_filterMap]
  refine ⟨?_, fun h => ⟨_, h, rfl⟩⟩
  rintro ⟨leaf, hleaf, heq⟩
  cases leaf with
  | string t => simp at heq
  | single y => exact Option.some.inj heq ▸ hleaf

/-- A string that may be missing. -/
def ofName? (name : Option String) : List Leaf := name.toList.map .string

end Leaf

def Vec3.leaves (v : Vec3) : List Leaf := [.single v.x, .single v.y, .single v.z]

/-! Tokens. -/

namespace Token

mutual

def leaves : Token → List Leaf
  | .localVariable name => [.string name]
  | .instanceVariable name => [.string name]
  | .defaultVariable name => [.string name]
  | .floatConst value => [.single value]
  | .stringConst value => [.string value]
  | .nameConst value => [.string value]
  | .vectorConst value => value.leaves
  | .assign lhs rhs => lhs.leaves ++ rhs.leaves
  | .context object member => object.leaves ++ member.leaves
  | .element array index => array.leaves ++ index.leaves
  | .call name params => .string name :: listLeaves params
  | .globalCall name params => .string name :: listLeaves params
  | .binary op lhs rhs => .string op :: lhs.leaves ++ rhs.leaves
  | .prefixOp op operand => .string op :: operand.leaves
  | .postfixOp op operand => .string op :: operand.leaves
  | .dynamicCast className value => .string className :: value.leaves
  | .metaCast className value => .string className :: value.leaves
  | .ret value => value.leaves
  | .jumpIfNot _ condition => condition.leaves
  | .iterator expression _ => expression.leaves
  | .switch expression => expression.leaves
  | .case _ (some value) => value.leaves
  | _ => []

def listLeaves : List Token → List Leaf
  | [] => []
  | t :: ts => t.leaves ++ listLeaves ts

end

end Token

/-! Properties and stored values. -/

mutual

def Kind.leaves : Kind → List Leaf
  | .byte path => Leaf.ofName? path
  | .object path => [.string path]
  | .metaclass path => [.string path]
  | .array element => element.leaves
  | .struct path => [.string path]
  | .delegate path => [.string path]
  | _ => []

def Property.leaves : Property → List Leaf
  | ⟨name, kind, _, _, _, category⟩ => .string name :: kind.leaves ++ Leaf.ofName? category

end

mutual

def Value.leaves : Value → List Leaf
  | .float value => [.single value]
  | .name value => [.string value]
  | .string value => [.string value]
  | .array elements => Value.listLeaves elements
  | .struct fields => Setting.listLeaves fields
  | _ => []

def Value.listLeaves : List Value → List Leaf
  | [] => []
  | v :: vs => v.leaves ++ Value.listLeaves vs

def Value.slotLeaves : List (Option Value) → List Leaf
  | [] => []
  | none :: vs => Value.slotLeaves vs
  | some v :: vs => v.leaves ++ Value.slotLeaves vs

def Setting.leaves : Setting → List Leaf
  | ⟨template, slots⟩ => template.leaves ++ Value.slotLeaves slots

def Setting.listLeaves : List Setting → List Leaf
  | [] => []
  | s :: ss => s.leaves ++ Setting.listLeaves ss

end

/-! Declarations. -/

def EnumDecl.leaves (e : EnumDecl) : List Leaf := .string e.name :: e.values.map .string

def ConstDecl.leaves (c : ConstDecl) : List Leaf := [.string c.name, .string c.value]

def FunctionDecl.leaves (f : FunctionDecl) : List Leaf :=
  .string f.name :: f.properties.flatMap Property.leaves ++ f.body.flatMap (·.item.leaves)

mutual

def Member.leaves : Member → List Leaf
  | .const c => c.leaves
  | .enum e => e.leaves
  | .struct s => s.leaves
  | .property p => p.leaves
  | .function f => f.leaves
  | .state s => s.leaves

def Scope.leaves : Scope → List Leaf
  | ⟨name, parent, members⟩ => .string name :: Leaf.ofName? parent ++ Member.listLeaves members

def Member.listLeaves : List Member → List Leaf
  | [] => []
  | m :: ms => m.leaves ++ Member.listLeaves ms

end

def ClassDecl.leaves (c : ClassDecl) : List Leaf :=
  .string c.name :: Leaf.ofName? c.parent ++ Member.listLeaves c.members ++ Setting.listLeaves c.defaults

/-! Packages. -/

def Import.leaves (i : Import) : List Leaf :=
  [.string i.name, .string i.classPackage, .string i.className]

def Polygon.leaves (p : Polygon) : List Leaf :=
  p.vertices.flatMap Vec3.leaves ++ p.origin.leaves ++ p.normal.leaves ++ p.textureU.leaves ++
    p.textureV.leaves ++ [.string p.itemName]

def ObjectInstance.leaves (o : ObjectInstance) : List Leaf := Setting.listLeaves o.settings

def Payload.leaves : Payload → List Leaf
  | .classDecl decl => decl.leaves
  | .object content => content.leaves
  | .polygons list => list.flatMap Polygon.leaves

def Export.leaves (e : Export) : List Leaf := .string e.name :: e.payload.toList.flatMap Payload.leaves

/-- The leaves of a table, names included. -/
def Table.leaves {α : Type} (ofValue : α → List Leaf) (t : Table α) : List Leaf :=
  t.entries.flatMap fun (name, value) => .string name :: ofValue value

def Package.leaves (p : Package) : List Leaf :=
  .string p.name :: p.imports.flatMap Import.leaves ++ p.exports.flatMap Export.leaves ++
    p.hierarchy.leaves (fun parent => [.string parent]) ++ p.enums.leaves EnumDecl.leaves

/-! Lists of parts. -/

theorem Value.listLeaves_eq (vs : List Value) : Value.listLeaves vs = vs.flatMap Value.leaves := by
  induction vs with
  | nil => simp only [Value.listLeaves, List.flatMap_nil]
  | cons v vs ih => rw [Value.listLeaves, ih, List.flatMap_cons]

theorem Member.listLeaves_eq (ms : List Member) : Member.listLeaves ms = ms.flatMap Member.leaves := by
  induction ms with
  | nil => simp only [Member.listLeaves, List.flatMap_nil]
  | cons m ms ih => rw [Member.listLeaves, ih, List.flatMap_cons]

end ScriptLift
