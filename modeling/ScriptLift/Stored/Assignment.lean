import ScriptLift.Stored.Literal
import ScriptLift.Text

/- Settings as assignment lines. An object that its property exports is written
   as a block before the line that refers to it; how a block is written is the
   caller's choice. -/
namespace ScriptLift

/-- Whether the property asks for the object it refers to to be written in
place. -/
def Property.exports (p : Property) : Bool :=
  p.flags.has .exportObject || p.flags.has .editInlineNotify

/-- Whether the object is one of the package that its property exports. -/
def Package.needsExport (p : Package) (template : Property) (r : Reference) :
    Except Error Bool := do
  match ← p.entry r with
  | some (.exported _) => return template.exports
  | _ => return false

/-- The block before a line that assigns the value, if there is one. -/
def Value.exportBlock (p : Package) (block : Reference → Except Error Text) (template : Property) :
    Value → Except Error (List Text)
  | .object r => do
    if ← p.needsExport template r then return [← block r] else return []
  | _ => return []

/-- The lines that assign one value to a name. -/
def Value.lines (c : Context) (block : Reference → Except Error Text) (template : Property)
    (name : String) (v : Value) : Except Error (List Text) := do
  let exported ← v.exportBlock c.package block template
  return exported ++ [Text.lit (name ++ "=" ++ (← v.literal c template))]

/-- The lines of the elements of an array from index `i` on. -/
def Value.elementLines (c : Context) (block : Reference → Except Error Text) (element : Property)
    (name : String) (i : Nat) : List Value → Except Error (List Text)
  | [] => return []
  | v :: vs => do
    let first ← v.lines c block element (name ++ "(" ++ toString i ++ ")")
    return first ++ (← Value.elementLines c block element name (i + 1) vs)

/-- The lines of one slot: one for each element of an array, else one for the
value. -/
def Property.slotLines (c : Context) (block : Reference → Except Error Text) (p : Property)
    (i : Nat) : Option Value → Except Error (List Text)
  | some v =>
    match v, p.kind with
    | .array elements, .array element => Value.elementLines c block element p.name 0 elements
    | v, _ => v.lines c block p (p.slotName i)
  | none => do
    return ((← p.unsetLiteral).map fun text => Text.lit (p.slotName i ++ "=" ++ text)).toList

namespace Setting

/-- The lines of the slots from `i` on, `count` of them. -/
def linesFrom (c : Context) (block : Reference → Except Error Text) (s : Setting) (i : Nat) :
    Nat → Except Error (List Text)
  | 0 => return []
  | count + 1 => do
    let first ← s.template.slotLines c block i (s.slot i)
    return first ++ (← s.linesFrom c block (i + 1) count)

/-- The lines of a list of settings. -/
def lines (c : Context) (block : Reference → Except Error Text) :
    List Setting → Except Error (List Text)
  | [] => return []
  | s :: rest => do
    let first ← s.linesFrom c block 0 s.template.slotCount
    return first ++ (← lines c block rest)

/-- The lines of a list of settings, with line breaks at `indent` between them. -/
def text (c : Context) (block : Reference → Except Error Text) (indent : Nat)
    (settings : List Setting) : Except Error Text := do
  return Text.join (Text.line indent) (← lines c block settings)

end Setting

end ScriptLift
