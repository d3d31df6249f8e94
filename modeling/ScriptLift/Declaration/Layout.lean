import ScriptLift.Declaration.Function

/- Declarations as source text.

   The members of a class, struct or state are written by kind: constants, enums,
   structs, variables, functions, states, and within a kind in stored order. An
   enum of a struct that types one of its variables directly has no line of its
   own: the first such variable carries its body. -/
namespace ScriptLift

/-- What kind of declaration owns a list of members. -/
inductive OwnerKind where
  | classDecl
  | struct
  | state
deriving DecidableEq

/-- A list of members with its owner. -/
structure Owner where
  kind : OwnerKind
  name : String
  members : List Member

namespace Owner

/-- The enum of that name declared in a struct. -/
def nestedEnum (o : Owner) (name : String) : Option EnumDecl :=
  if o.kind = .struct then
    o.members.findSome? fun
      | .enum e => if sameName e.name name then some e else none
      | _ => none
  else none

/-- The variable of a struct that carries the body of the enum of that name: the
first that is typed with it. -/
def carrier (o : Owner) (enumName : String) : Option Property :=
  if o.kind = .struct then
    o.members.findSome? fun
      | .property p => if p.enumName.any (sameName · enumName) then some p else none
      | _ => none
  else none

/-- The enum whose body a variable carries. -/
def carriedEnum (o : Owner) (p : Property) : Option EnumDecl := do
  let name ← p.enumName
  let first ← o.carrier name
  if first.name = p.name then o.nestedEnum name else none

/-- Members without a line of their own: carried enums, and delegates. -/
def omits (o : Owner) : Member → Bool
  | .enum e => (o.carrier e.name).isSome
  | .property p =>
    match p.kind with
    | .delegate _ => true
    | _ => false
  | _ => false

end Owner

def ConstDecl.text (c : ConstDecl) : Text := Text.lit ("const " ++ c.name ++ " = " ++ c.value)

/-- An enum, one literal a line. -/
def EnumDecl.text (indent : Nat) (e : EnumDecl) : Text :=
  Text.lit ("enum " ++ e.name) ++
    Stmt.braces indent (Text.line (indent + 1) ++
      Text.join (Text.lit "," ++ Text.line (indent + 1)) (e.values.map Text.lit))

/-- A variable: category, modifiers, type, name, and the number of its slots. -/
def Property.text (owner : Owner) (indent : Nat) (p : Property) : Text :=
  Text.lit ("var" ++ (p.categoryText owner.name).getD "" ++ " " ++
      String.join (p.modifiers.map (· ++ " "))) ++
    (match owner.carriedEnum p with
      | some e => e.text indent
      | none => Text.lit p.typeName) ++
    Text.lit (" " ++ p.name ++
      if p.isMultiSlot then "[" ++ toString p.arrayDim.toNat ++ "]" else "")

/-- The first words of a declaration that may extend another. -/
def heading (word name : String) (parent : Option String) : String :=
  word ++ " " ++ name ++
    match parent with
    | some parent => " extends " ++ parent
    | none => ""

namespace Member

/-- What ends a member's line. -/
def terminator : Member → String
  | .function _ => ""
  | .state _ => ""
  | _ => ";"

/-- A written member with the rank of its kind; none when it has no line. -/
structure Written where
  rank : Nat
  text : Option (Except Error Text)

/-- The written members in the order of their ranks, stored order within one. -/
def byRank (written : List Written) : List Written :=
  [0, 1, 2, 3, 4, 5].flatMap fun r => written.filter (·.rank == r)

/-- The written members one after another; the first that failed makes the whole
fail. -/
def concat : List Written → Except Error Text
  | [] => return []
  | w :: rest =>
    match w.text with
    | none => concat rest
    | some text => return (← text) ++ (← concat rest)

end Member

mutual

/-- A member as it is declared in its owner. -/
def Member.text (render : Token → Except Error String) (owner : Owner) (indent : Nat) :
    Member → Except Error Text
  | .const c => return c.text
  | .enum e => return e.text indent
  | .struct s => Scope.text render .struct indent s
  | .property p => return p.text owner indent
  | .function f => f.text render indent
  | .state s => Scope.text render .state indent s

/-- A struct or a state with its members. -/
def Scope.text (render : Token → Except Error String) (kind : OwnerKind) (indent : Nat) :
    Scope → Except Error Text
  | ⟨name, parent, members⟩ => do
    let word := if kind = .struct then "struct" else "state"
    let written := Member.written render ⟨kind, name, members⟩ (indent + 1) members
    let body ← Member.concat (Member.byRank written)
    return Text.lit (heading word name parent) ++ Stmt.braces indent body

/-- Each member on a line of its own at `indent`, in stored order. -/
def Member.written (render : Token → Except Error String) (owner : Owner) (indent : Nat) :
    List Member → List Member.Written
  | [] => []
  | m :: rest =>
    let line := (Member.text render owner indent m).map fun text =>
      Text.line indent ++ text ++ Text.lit m.terminator
    ⟨m.rank, if owner.omits m then none else some line⟩ :: Member.written render owner indent rest

end

/-- The members of an owner, by kind. -/
def Owner.text (render : Token → Except Error String) (indent : Nat) (o : Owner) :
    Except Error Text :=
  Member.concat (Member.byRank (Member.written render o indent o.members))

end ScriptLift
