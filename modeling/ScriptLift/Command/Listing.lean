import ScriptLift.Recovery

/- Flat listings: the instructions of every function as they are stored, without
   regrouping. -/
namespace ScriptLift

mutual

/-- The functions in a member, with their paths. Those of structs are not
listed. -/
def Member.functions (path : String) : Member → List (String × FunctionDecl)
  | .function f => [(extendPath path f.name, f)]
  | .state s => Scope.functions path s
  | _ => []

def Scope.functions (path : String) : Scope → List (String × FunctionDecl)
  | ⟨name, _, members⟩ => Member.listFunctions (extendPath path name) members

def Member.listFunctions (path : String) : List Member → List (String × FunctionDecl)
  | [] => []
  | m :: ms => m.functions path ++ Member.listFunctions path ms

end

namespace Listing

/-- One instruction on a line. -/
def instructionLine (c : Context) (i : Instruction) : Except Error String := do
  return Token.hexOffset i.offset ++ ": " ++ (← c.tokenText i.item) ++ "\n"

def instructionLines (c : Context) : List Instruction → Except Error String
  | [] => return ""
  | i :: rest => return (← instructionLine c i) ++ (← instructionLines c rest)

/-- A function: a heading, its instructions, an empty line. -/
def functionText (c : Context) (path : String) (f : FunctionDecl) : Except Error String := do
  return "; " ++ path ++ " (" ++ toString f.body.length ++ " instructions)\n" ++
    (← instructionLines c f.body) ++ "\n"

def functionTexts (c : Context) : List (String × FunctionDecl) → Except Error String
  | [] => return ""
  | (path, f) :: rest => return (← functionText c path f) ++ (← functionTexts c rest)

end Listing

/-- The listing of these classes. -/
def Package.listing (p : Package) (classes : List ClassDecl) : Except Error String :=
  Listing.functionTexts (Context.ofOptions p .standard)
    (classes.flatMap fun c => Member.listFunctions c.name c.members)

end ScriptLift
