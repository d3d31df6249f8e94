import ScriptLift.Package.Lookup

/- Stored values as literals.

   A literal is written by the kind of its property, which has to fit the value.
   The members of a struct are written as assignments in parentheses; an unset
   slot is left out of a struct, is `None` for a reference, and is an error for
   any other kind. -/
namespace ScriptLift

/-- The name of a slot: the property's name, with an index when there are
several slots. -/
def Property.slotName (p : Property) (i : Nat) : String :=
  if p.isMultiSlot then p.name ++ "(" ++ toString i ++ ")" else p.name

/-- The literal of an unset slot, none when it is left out. -/
def Property.unsetLiteral (p : Property) : Except Error (Option String) :=
  match p.kind with
  | .struct _ => .ok none
  | .object _ => .ok (some "None")
  | .metaclass _ => .ok (some "None")
  | _ => .error (.unsetSlot p)

/-- The literal of an enum's ordinal. -/
def Package.enumLiteral (p : Package) (path : String) (ordinal : UInt8) : Except Error String := do
  let e ← p.findEnum path
  match e.values[ordinal.toNat]? with
  | some literal => return literal
  | none => throw (.noLiteral e.name ordinal e.values.length)

/-- The assignments of the slots from `i` on, `count` of them, given the literals
of the stored slots. -/
def Property.slotParts (p : Property) (stored : List (Option (Except Error String))) (i : Nat) :
    Nat → Except Error (List String)
  | 0 => return []
  | count + 1 => do
    let literal ←
      match stored[i]?.join with
      | some literal => literal.map some
      | none => p.unsetLiteral
    let rest ← p.slotParts stored (i + 1) count
    return (literal.map (p.slotName i ++ "=" ++ ·)).toList ++ rest

mutual

/-- The literal of a value of the property. -/
def Value.literal (c : Context) (template : Property) : Value → Except Error String
  | .byte ordinal =>
    match template.kind with
    | .byte (some path) => c.package.enumLiteral path ordinal
    | .byte none => .ok (toString ordinal.toNat)
    | _ => .error (.cannotHold template (.byte ordinal))
  | .int value =>
    match template.kind with
    | .int => .ok (toString value.toInt)
    | _ => .error (.cannotHold template (.int value))
  | .bool value =>
    match template.kind with
    | .bool => .ok (if value then "true" else "false")
    | _ => .error (.cannotHold template (.bool value))
  | .float value =>
    match template.kind with
    | .float => .ok value.literal
    | _ => .error (.cannotHold template (.float value))
  | .name value =>
    match template.kind with
    | .name => .ok ("\"" ++ value ++ "\"")
    | _ => .error (.cannotHold template (.name value))
  | .string value =>
    match template.kind with
    | .string => .ok ("\"" ++ value ++ "\"")
    | _ => .error (.cannotHold template (.string value))
  | .object reference =>
    match template.kind with
    | .object _ => c.link reference
    | .metaclass _ => c.link reference
    | _ => .error (.cannotHold template (.object reference))
  | .array elements =>
    match template.kind with
    | .array element => do
      return "(" ++ ",".intercalate (← Value.literals c element elements) ++ ")"
    | _ => .error (.cannotHold template (.array elements))
  | .struct fields =>
    match template.kind with
    | .struct _ => do return "(" ++ ",".intercalate (← Setting.literals c fields) ++ ")"
    | _ => .error (.cannotHold template (.struct fields))

def Value.literals (c : Context) (template : Property) : List Value → Except Error (List String)
  | [] => return []
  | v :: vs => return (← v.literal c template) :: (← Value.literals c template vs)

def Value.slotLiterals (c : Context) (template : Property) :
    List (Option Value) → List (Option (Except Error String))
  | [] => []
  | none :: vs => none :: Value.slotLiterals c template vs
  | some v :: vs => some (v.literal c template) :: Value.slotLiterals c template vs

/-- The assignments of a struct's member with commas between them, none when
every slot is left out. -/
def Setting.literal (c : Context) : Setting → Except Error (Option String)
  | ⟨template, slots⟩ => do
    match ← template.slotParts (Value.slotLiterals c template slots) 0 template.slotCount with
    | [] => return none
    | parts => return some (",".intercalate parts)

def Setting.literals (c : Context) : List Setting → Except Error (List String)
  | [] => return []
  | s :: ss => do
    let text ← s.literal c
    return text.toList ++ (← Setting.literals c ss)

end

/-- The literal of a struct with these members. -/
def Setting.structLiteral (c : Context) (fields : List Setting) : Except Error String := do
  return "(" ++ ",".intercalate (← Setting.literals c fields) ++ ")"

end ScriptLift
