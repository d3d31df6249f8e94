import ScriptLift.Stored.Assignment
import ScriptLift.Stored.Brush

/- Objects written in place. A block holds the settings of an object, and with
   them the blocks of the objects these export in turn; a brush holds its
   polygons. -/
namespace ScriptLift

/-- The class of brushes, by name. -/
def brushClass : String := "Model"

/-- The class of what can be placed in a level. -/
def actorClass : String := "Engine.Actor"

/-- The word for an export in a block. -/
def Package.blockWord (p : Package) (e : Export) : Except Error String := do
  return if p.isSubclass actorClass (← p.classFullName e) then "Actor" else "Object"

/-- The block of an exported object, from a line at `indent`. At most `budget`
blocks stand inside one another, this one included. -/
def Context.objectBlock (c : Context) : Nat → Nat → Reference → Except Error Text
  | 0, _, r => .error (.cyclicExport r)
  | budget + 1, indent, r => do
    let e ← c.package.exportOf r
    let className ← c.package.className (.exported e)
    match e.payload with
    | some (.object o) =>
      if sameName className brushClass then c.package.brushText r e o indent
      else
        let word ← c.package.blockWord e
        let body ← Setting.text c (c.objectBlock budget (indent + 1)) (indent + 1) o.settings
        return Text.lit ("Begin " ++ word ++ " Class=" ++ className ++ " Name=" ++ e.name) ++
          Text.line (indent + 1) ++ body ++ Text.lineOf indent ("End " ++ word)
    | _ => throw (.notFound .object (← c.package.fullName r))

/-- How many blocks can stand inside one another without an object inside
itself, and one more. -/
def Package.blockBudget (p : Package) : Nat := p.exports.length + 1

/-- The block of an exported object. -/
def Context.exportText (c : Context) (indent : Nat) (r : Reference) : Except Error Text :=
  c.objectBlock c.package.blockBudget indent r

/-- The assignment lines of settings with the blocks they need, line breaks at
`indent`. -/
def Context.settingsText (c : Context) (indent : Nat) (settings : List Setting) :
    Except Error Text :=
  Setting.text c (c.exportText indent) indent settings

end ScriptLift
