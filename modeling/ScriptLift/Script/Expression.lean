import ScriptLift.Error

/- Tokens as source text. All that a token needs of its surroundings is how an
   object literal is written, which the caller gives; only that can fail. -/
namespace ScriptLift.Token

/-- A number in upper-case hexadecimal, at least four digits. -/
def hexOffset (n : UInt32) : String :=
  let digits := (Nat.toDigits 16 n.toNat).map Char.toUpper
  "0x" ++ String.ofList (List.replicate (4 - digits.length) '0' ++ digits)

/-- A binary operation is put in parentheses where it is an operand. -/
def parenthesized : Token → String → String
  | .binary _ _ _, text => "(" ++ text ++ ")"
  | _, text => text

mutual

/-- The source text of a token. -/
def render (link : Reference → Except Error String) : Token → Except Error String
  | .localVariable name => return name
  | .instanceVariable name => return name
  | .defaultVariable name => return "Default." ++ name
  | .selfObject => return "self"
  | .noObject => return "None"
  | .nothing => return ""
  | .intConst value => return toString value.toInt
  | .byteConst value => return toString value.toNat
  | .floatConst value => return value.literal
  | .boolConst true => return "True"
  | .boolConst false => return "False"
  | .stringConst value => return "\"" ++ value ++ "\""
  | .nameConst value => return "'" ++ value ++ "'"
  | .objectConst reference => link reference
  | .vectorConst v =>
    return "vect(" ++ v.x.literal ++ "," ++ v.y.literal ++ "," ++ v.z.literal ++ ")"
  | .rotatorConst pitch yaw roll =>
    return "rot(" ++ toString pitch.toInt ++ "," ++ toString yaw.toInt ++ "," ++
      toString roll.toInt ++ ")"
  | .assign lhs rhs => return (← render link lhs) ++ " = " ++ (← render link rhs)
  | .context object member => return (← render link object) ++ "." ++ (← render link member)
  | .element array index => return (← render link array) ++ "[" ++ (← render link index) ++ "]"
  | .call name params => return name ++ "(" ++ ", ".intercalate (← renderList link params) ++ ")"
  | .globalCall name params =>
    return "Global." ++ name ++ "(" ++ ", ".intercalate (← renderList link params) ++ ")"
  | .binary op lhs rhs =>
    return parenthesized lhs (← render link lhs) ++ " " ++ op ++ " " ++
      parenthesized rhs (← render link rhs)
  | .prefixOp op operand => return op ++ parenthesized operand (← render link operand)
  | .postfixOp op operand => return parenthesized operand (← render link operand) ++ op
  | .dynamicCast className value => return className ++ "(" ++ (← render link value) ++ ")"
  | .metaCast className value => return "class<" ++ className ++ ">(" ++ (← render link value) ++ ")"
  | .ret .nothing => return "return"
  | .ret value => return "return " ++ (← render link value)
  | .stop => return "stop"
  | .jump target => return "jump " ++ hexOffset target
  | .jumpIfNot target condition =>
    return "if ( !(" ++ (← render link condition) ++ ") ) jump " ++ hexOffset target
  | .iterator expression loopEnd =>
    return "iterator " ++ (← render link expression) ++ " end " ++ hexOffset loopEnd
  | .iteratorNext => return "iteratornext"
  | .iteratorPop => return "iteratorpop"
  | .switch expression => return "switch ( " ++ (← render link expression) ++ " )"
  | .case _ none => return "default:"
  | .case next (some value) =>
    if next == defaultLink then return "default:"
    else return "case " ++ (← render link value) ++ ":"

def renderList (link : Reference → Except Error String) : List Token → Except Error (List String)
  | [] => return []
  | t :: ts => return (← render link t) :: (← renderList link ts)

end

end ScriptLift.Token
