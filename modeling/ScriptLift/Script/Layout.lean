import ScriptLift.Script.Expression
import ScriptLift.Script.Statement
import ScriptLift.Text

/- Statements as source text. The tokens in them are written by the caller's
   `render`, and the first that fails makes the whole fail. -/
namespace ScriptLift

/-- A token as a statement. A case label has no semicolon. -/
def Token.statement : Token → String → String
  | .case _ _, text => text
  | _, text => text ++ ";"

namespace Stmt

/-- Braces on lines of their own around a body. -/
def braces (indent : Nat) (body : Text) : Text :=
  Text.lineOf indent "\x7b" ++ body ++ Text.lineOf indent "\x7d"

/-- A part of a counted loop's header, with a blank after it. -/
def headerPart (render : Token → Except Error String) : Option (Placed Token) → Except Error String
  | none => return ""
  | some part => return (← render part.item) ++ " "

/-- The label of a case. -/
def labelText (render : Token → Except Error String) : Option Token → Except Error String
  | none => return "default:"
  | some value => return "case " ++ (← render value) ++ ":"

end Stmt

mutual

/-- A statement that starts on a line at `indent`. -/
def Stmt.text (render : Token → Except Error String) (indent : Nat) : Stmt → Except Error Text
  | .plain token => return Text.lit (token.statement (← render token))
  | .leave => return Text.lit "break;"
  | .branch condition body none => do
    let head := Text.lit ("if ( " ++ (← render condition) ++ " )")
    return head ++ Stmt.braces indent (← Block.text render (indent + 1) body)
  | .branch condition body (some ⟨_, [⟨_, other⟩]⟩) => do
    let head := Text.lit ("if ( " ++ (← render condition) ++ " )")
    let first := head ++ Stmt.braces indent (← Block.text render (indent + 1) body)
    if other.isBranch then
      return first ++ Text.lineOf indent "else " ++ (← Stmt.text render indent other)
    else
      return first ++ Text.lineOf indent "else" ++
        Stmt.braces indent (Text.line (indent + 1) ++ (← Stmt.text render (indent + 1) other))
  | .branch condition body (some ⟨_, others⟩) => do
    let head := Text.lit ("if ( " ++ (← render condition) ++ " )")
    let first := head ++ Stmt.braces indent (← Block.text render (indent + 1) body)
    return first ++ Text.lineOf indent "else" ++
      Stmt.braces indent (← Block.text render (indent + 1) others)
  | .whileLoop condition body _ => do
    let head := Text.lit ("while ( " ++ (← render condition) ++ " )")
    return head ++ Stmt.braces indent (← Block.text render (indent + 1) body)
  | .doUntil condition body => do
    let first := Text.lit "do" ++ Stmt.braces indent (← Block.text render (indent + 1) body)
    return first ++ Text.lineOf indent ("until ( " ++ (← render condition.item) ++ " );")
  | .forLoop start condition step body _ => do
    let head := Text.lit ("for ( " ++ (← Stmt.headerPart render start) ++ "; " ++
      (← Stmt.headerPart render condition) ++ "; " ++ (← Stmt.headerPart render step) ++ ")")
    return head ++ Stmt.braces indent (← Block.text render (indent + 1) body)
  | .forEach iterator body _ _ => do
    let head := Text.lit ("ForEach " ++ (← render iterator))
    return head ++ Stmt.braces indent (← Block.text render (indent + 1) body)
  | .switch subject arms => do
    let head := Text.lit ("switch ( " ++ (← render subject) ++ " )")
    return head ++ Stmt.braces indent (← Arms.text render (indent + 1) arms)

/-- The statements of a block, each on a line of its own at `indent`. -/
def Block.text (render : Token → Except Error String) (indent : Nat) :
    List (Placed Stmt) → Except Error Text
  | [] => return []
  | ⟨_, s⟩ :: rest => do
    let first ← Stmt.text render indent s
    return Text.line indent ++ first ++ (← Block.text render indent rest)

/-- The cases of a switch: labels at `indent`, bodies one deeper. -/
def Arms.text (render : Token → Except Error String) (indent : Nat) :
    List (Placed (Arm (List (Placed Stmt)))) → Except Error Text
  | [] => return []
  | ⟨_, ⟨label, body⟩⟩ :: rest => do
    let head := Text.lineOf indent (← Stmt.labelText render label)
    let first := head ++ (← Block.text render (indent + 1) body)
    return first ++ (← Arms.text render indent rest)

end

end ScriptLift
