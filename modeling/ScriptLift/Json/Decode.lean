import ScriptLift.Json.Number

/- Reading typed values out of JSON.

   A decoder takes the number of containers that may still be opened. Opening
   an array or an object spends one, so a value nested too deep is refused; a
   part that no decoder looks at is never counted. A record is an object with
   its known members, each at most once, or an array of its fields in order;
   members of other names are passed over. -/
namespace ScriptLift.Json

/-- How many containers may be opened around a value that is read. -/
def maxDepth : Nat := 127

/-- A reader of values, given how many containers it may open. -/
abbrev Decoder (α : Type) := Nat → Json → Option α

/-! Values without parts. -/

def asString? : Json → Option String
  | .string s => s
  | _ => none

def asBool? : Json → Option Bool
  | .bool b => some b
  | _ => none

/-- A whole number from `low` to `high`. -/
def asIntIn? (low high : Int) : Json → Option Int
  | .number n =>
    match n.value with
    | some (.integer i) => if low ≤ i ∧ i ≤ high then some i else none
    | _ => none
  | _ => none

def asUInt8? (j : Json) : Option UInt8 := (j.asIntIn? 0 (UInt8.size - 1)).map fun i => .ofNat i.toNat

def asUInt16? (j : Json) : Option UInt16 := (j.asIntIn? 0 (UInt16.size - 1)).map fun i => .ofNat i.toNat

def asUInt32? (j : Json) : Option UInt32 := (j.asIntIn? 0 (UInt32.size - 1)).map fun i => .ofNat i.toNat

def asInt32? (j : Json) : Option Int32 := (j.asIntIn? Int32.minValue.toInt Int32.maxValue.toInt).map .ofInt

/-- Any number, rounded to 32 bits. -/
def asSingle? : Json → Option Single
  | .number n => n.value.map Number.single
  | _ => none

/-- A value that may be null. -/
def orNull {α : Type} (read : Json → Option α) : Json → Option (Option α)
  | .null => some none
  | j => (read j).map some

/-- The elements of an array. -/
def elementsWith {α : Type} (read : Json → Option α) : Json → Option (List α)
  | .array es => es.mapM read
  | _ => none

/-- A list: opening it spends one container. -/
def listOf {α : Type} (read : Decoder α) : Decoder (List α)
  | 0, _ => none
  | depth + 1, j => elementsWith (read depth) j

/-- Decoders of values without parts open nothing. -/
def flat {α : Type} (read : Json → Option α) : Decoder α := fun _ => read

/-! Records. -/

/-- The fields found, by name. -/
abbrev Record := List (String × Json)

/-- All names of members, none when one holds no characters. -/
def named? (members : List (Option String × Json)) : Option (List (String × Json)) :=
  members.mapM fun (name, value) => name.map (·, value)

/-- The fields of a record with these field names. -/
def fields? (names : List String) : Json → Option Record
  | .array es => if es.length ≤ names.length then some (names.zip es) else none
  | .object members => do
    let known := (← named? members).filter fun m => names.contains m.1
    if (known.map (·.1)).Nodup then some known else none
  | _ => none

/-- A record: opening it spends one container. -/
def recordOf {α : Type} (names : List String) (read : Nat → Record → Option α) : Decoder α
  | 0, _ => none
  | depth + 1, j => do read depth (← fields? names j)

/-- A field that has to be there. -/
def Record.required {α : Type} (r : Record) (name : String) (read : Json → Option α) : Option α :=
  (r.lookup name).bind read

/-- A field with a value of its own when it is missing. -/
def Record.defaulted {α : Type} (r : Record) (name : String) (default : α)
    (read : Json → Option α) : Option α :=
  match r.lookup name with
  | some j => read j
  | none => some default

/-! Alternatives and tables. -/

/-- The one member of an object: the name of an alternative and its content. -/
def tagged? : Json → Option (String × Json)
  | .object [(some tag, content)] => some (tag, content)
  | _ => none

/-- The members of an object as a table. -/
def membersWith {α : Type} (read : Json → Option α) : Json → Option (List (String × α))
  | .object members => do
    (← named? members).mapM fun (name, value) => (read value).map (name, ·)
  | _ => none

/-- A table: opening it spends one container. -/
def tableOf {α : Type} (read : Decoder α) : Decoder (List (String × α))
  | 0, _ => none
  | depth + 1, j => membersWith (read depth) j

/-- An alternative without content: its name, or its name with a null. -/
def unitTag? : Json → Option String
  | .string s => s
  | .object [(some tag, .null)] => some tag
  | _ => none

end ScriptLift.Json
