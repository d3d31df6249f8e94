import ScriptLift.Declaration.Member
import ScriptLift.Declaration.TypeName
import ScriptLift.Script.Layout
import ScriptLift.Script.Regroup

/- Functions as source text: the header line, the locals grouped by type, and
   the statements. -/
namespace ScriptLift.FunctionDecl

/-- Words written after `native`, in order. -/
def specifiers : List (String × FunctionFlags) :=
  [ ("simulated", .simulated)
  , ("static", .static)
  , ("final", .final)
  , ("iterator", .iterator)
  , ("latent", .latent)
  , ("exec", .exec) ]

def nativeWord (f : FunctionDecl) : String :=
  if f.flags.has .native then
    "native" ++ (if f.nativeIndex == 0 then "" else "(" ++ toString f.nativeIndex.toNat ++ ")") ++ " "
  else ""

def specifierWords (f : FunctionDecl) : String :=
  String.join ((specifiers.filter (f.flags.has ·.2)).map (·.1 ++ " "))

/-- The word for what is declared. -/
def declarator (f : FunctionDecl) : String :=
  if f.flags.has .event then "event "
  else if f.flags.has .operator then "operator(" ++ toString f.precedence.toNat ++ ") "
  else "function "

def returnWord (f : FunctionDecl) : String :=
  match f.returned with
  | some p => p.typeName ++ " "
  | none => ""

/-- A parameter in the header. -/
def parameterText (p : Property) : String :=
  (if p.flags.has .optionalParm then "optional " else "") ++
    (if p.flags.has .outParm then "out " else "") ++ p.typeName ++ " " ++ p.name

/-- The header of a function. -/
def signature (f : FunctionDecl) : String :=
  f.nativeWord ++ f.specifierWords ++ f.declarator ++ f.returnWord ++ f.name ++
    "(" ++ ", ".intercalate (f.parameters.map parameterText) ++ ")"

/-- Adds a name to the group of its type, a new one at the end if there is
none. -/
def addLocal (type name : String) : List (String × List String) → List (String × List String)
  | [] => [(type, [name])]
  | (t, names) :: groups =>
    if t = type then (t, names ++ [name]) :: groups
    else (t, names) :: addLocal type name groups

/-- The names of locals by type, types in the order of their first use. -/
def localGroups (locals : List Property) : List (String × List String) :=
  locals.foldl (fun groups p => addLocal p.typeName p.name groups) []

/-- The line that declares the locals of one type. -/
def localLine : String × List String → String
  | (type, names) => "local " ++ type ++ " " ++ ", ".intercalate names ++ ";"

/-- The lines of the locals, and an empty one after them. -/
def localsText (f : FunctionDecl) (indent : Nat) : Text :=
  match localGroups f.locals with
  | [] => []
  | groups => (groups.flatMap fun g => Text.lineOf indent (localLine g)) ++ Text.line 0

/-- Whether only the header is written. -/
def isHeaderOnly (f : FunctionDecl) : Bool := f.flags.has .native || f.isEmptyBody

/-- The function with its body, tokens written by `render`. -/
def text (render : Token → Except Error String) (indent : Nat) (f : FunctionDecl) :
    Except Error Text := do
  if f.isHeaderOnly then return Text.lit (f.signature ++ ";")
  let body ← Block.text render (indent + 1) (Block.ofBody f.body)
  return Text.lit f.signature ++ Stmt.braces indent (f.localsText (indent + 1) ++ body)

end ScriptLift.FunctionDecl
