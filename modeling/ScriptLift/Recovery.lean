import ScriptLift.Declaration.Layout
import ScriptLift.Stored.ObjectBlock

/- Recovering source from a package: classes, single functions, and lists of
   settings. -/
namespace ScriptLift

/-- The text of a token in a package. -/
def Context.tokenText (c : Context) (t : Token) : Except Error String := t.render c.link

/-- The members of a class after an empty line, nothing when it has none. -/
def Context.membersText (c : Context) (indent : Nat) (decl : ClassDecl) : Except Error Text := do
  if decl.members.isEmpty then return []
  let owner : Owner := ⟨.classDecl, decl.name, decl.members⟩
  return Text.line 0 ++ (← owner.text c.tokenText indent)

/-- The default values of a class after an empty line, nothing when it has none. -/
def Context.defaultsText (c : Context) (indent : Nat) (decl : ClassDecl) : Except Error Text := do
  if decl.defaults.isEmpty then return []
  return Text.line 0 ++ Text.lineOf indent "defaultproperties\x7b" ++ Text.line (indent + 1) ++
    (← c.settingsText (indent + 1) decl.defaults) ++ Text.lineOf indent "\x7d"

/-- A class: its heading, its members, and its default values. -/
def Context.classText (c : Context) (indent : Nat) (decl : ClassDecl) : Except Error Text := do
  let members ← c.membersText indent decl
  let defaults ← c.defaultsText indent decl
  return Text.lit (heading "class" decl.name decl.parent ++ ";") ++ members ++ defaults

namespace Package

/-- The source of a class. -/
def classSource (p : Package) (o : Options) (decl : ClassDecl) : Except Error String := do
  return (← (Context.ofOptions p o).classText 0 decl).render o.lineEnding

/-- The source of the exported class of that name. -/
def sourceOf (p : Package) (o : Options) (name : String) : Except Error String := do
  p.classSource o (← p.findClass name)

/-- The sources of these classes, with their names. -/
def sourcesOf (p : Package) (o : Options) : List ClassDecl → Except Error (List (String × String))
  | [] => return []
  | decl :: rest => do
    let source ← p.classSource o decl
    return (decl.name, source) :: (← p.sourcesOf o rest)

/-- The sources of all exported classes, in directory order. -/
def sources (p : Package) (o : Options) : Except Error (List (String × String)) :=
  p.sourcesOf o p.classes

/-- The source of a function. -/
def functionSource (p : Package) (o : Options) (f : FunctionDecl) : Except Error String := do
  return (← f.text (Context.ofOptions p o).tokenText 0).render o.lineEnding

/-- The source of a function body at `indent`. -/
def bodySource (p : Package) (o : Options) (indent : Nat) (code : List Instruction) :
    Except Error String := do
  let text ← Block.text (Context.ofOptions p o).tokenText indent (Block.ofBody code)
  return text.render o.lineEnding

/-- The source of a list of settings. -/
def settingsSource (p : Package) (o : Options) (indent : Nat) (settings : List Setting) :
    Except Error String := do
  return (← (Context.ofOptions p o).settingsText indent settings).render o.lineEnding

end Package

end ScriptLift
