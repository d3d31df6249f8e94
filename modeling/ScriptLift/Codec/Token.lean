import ScriptLift.Json.Decode
import ScriptLift.Script.Token

/- Tokens and instructions as JSON. An alternative without operands is its name;
   one with a single unnamed operand is an object of one member; one with named
   operands holds a record. Floats are written by the caller's choice. -/
namespace ScriptLift

open Json

/-! Reading. -/

namespace Reference

def ofJson? (j : Json) : Option Reference := j.asInt32?.map .mk

def toJson (r : Reference) : Json := .int r.index.toInt

end Reference

namespace Vec3

def ofJson? : Decoder Vec3 :=
  recordOf ["x", "y", "z"] fun _ r => do
    return ⟨← r.required "x" asSingle?, ← r.required "y" asSingle?, ← r.required "z" asSingle?⟩

def toJson (float : Single → Json) (v : Vec3) : Json :=
  record [("x", float v.x), ("y", float v.y), ("z", float v.z)]

end Vec3

namespace Token

/-- The tokens without operands. -/
def ofUnitTag? : String → Option Token
  | "SelfRef" => some .selfObject
  | "NoObject" => some .noObject
  | "Nothing" => some .nothing
  | "Stop" => some .stop
  | "IteratorNext" => some .iteratorNext
  | "IteratorPop" => some .iteratorPop
  | _ => none

/-- The tokens whose content is not made of tokens. -/
def ofConstant? (depth : Nat) (content : Json) : String → Option Token
  | "LocalVariable" => content.asString?.map .localVariable
  | "InstanceVariable" => content.asString?.map .instanceVariable
  | "DefaultVariable" => content.asString?.map .defaultVariable
  | "IntConst" => content.asInt32?.map .intConst
  | "ByteConst" => content.asUInt8?.map .byteConst
  | "FloatConst" => content.asSingle?.map .floatConst
  | "BoolConst" => content.asBool?.map .boolConst
  | "StringConst" => content.asString?.map .stringConst
  | "NameConst" => content.asString?.map .nameConst
  | "ObjectConst" => (Reference.ofJson? content).map .objectConst
  | "VectorConst" => (Vec3.ofJson? depth content).map .vectorConst
  | "RotatorConst" =>
    recordOf ["pitch", "yaw", "roll"] (fun _ r => do
      return .rotatorConst (← r.required "pitch" asInt32?) (← r.required "yaw" asInt32?)
        (← r.required "roll" asInt32?)) depth content
  | "Jump" =>
    recordOf ["target"] (fun _ r => (r.required "target" asUInt32?).map .jump) depth content
  | _ => none

/-- The names of the operands of a token that holds a record of them. -/
def operandNames : String → List String
  | "Let" => ["lhs", "rhs"]
  | "Context" => ["object", "member"]
  | "ArrayElement" => ["array", "index"]
  | "FunctionCall" => ["name", "params"]
  | "GlobalFunction" => ["name", "params"]
  | "BinaryOperator" => ["op", "lhs", "rhs"]
  | "PreOperator" => ["op", "operand"]
  | "PostOperator" => ["op", "operand"]
  | "DynamicCast" => ["class", "value"]
  | "MetaCast" => ["class", "value"]
  | "JumpIfNot" => ["target", "condition"]
  | "Iterator" => ["expression", "end_of_loop"]
  | "Switch" => ["expression"]
  | "Case" => ["next_offset", "value"]
  | _ => []

/-- The tokens that hold a record, given readers of one operand and of a list
of them. -/
def ofRecord? (operand : Json → Option Token) (operands : Json → Option (List Token))
    (r : Record) : String → Option Token
  | "Let" => do return .assign (← r.required "lhs" operand) (← r.required "rhs" operand)
  | "Context" => do
    return .context (← r.required "object" operand) (← r.required "member" operand)
  | "ArrayElement" => do
    return .element (← r.required "array" operand) (← r.required "index" operand)
  | "FunctionCall" => do
    return .call (← r.required "name" asString?) (← r.required "params" operands)
  | "GlobalFunction" => do
    return .globalCall (← r.required "name" asString?) (← r.required "params" operands)
  | "BinaryOperator" => do
    return .binary (← r.required "op" asString?) (← r.required "lhs" operand)
      (← r.required "rhs" operand)
  | "PreOperator" => do
    return .prefixOp (← r.required "op" asString?) (← r.required "operand" operand)
  | "PostOperator" => do
    return .postfixOp (← r.required "op" asString?) (← r.required "operand" operand)
  | "DynamicCast" => do
    return .dynamicCast (← r.required "class" asString?) (← r.required "value" operand)
  | "MetaCast" => do
    return .metaCast (← r.required "class" asString?) (← r.required "value" operand)
  | "JumpIfNot" => do
    return .jumpIfNot (← r.required "target" asUInt32?) (← r.required "condition" operand)
  | "Iterator" => do
    return .iterator (← r.required "expression" operand) (← r.required "end_of_loop" asUInt32?)
  | "Switch" => do return .switch (← r.required "expression" operand)
  | "Case" => do
    return .case (← r.required "next_offset" asUInt16?)
      (← r.defaulted "value" none (orNull operand))
  | _ => none

/-- Reads a token. The object of one member spends a container, and so does
the record or list in it. -/
def ofJson? : Decoder Token
  | 0, j => j.asString?.bind ofUnitTag?
  | 1, j =>
    match unitTag? j with
    | some tag => ofUnitTag? tag
    | none => do
      let (tag, content) ← tagged? j
      match tag with
      | "Return" => (ofJson? 0 content).map .ret
      | _ => ofConstant? 0 content tag
  | depth + 2, j =>
    match unitTag? j with
    | some tag => ofUnitTag? tag
    | none => do
      let (tag, content) ← tagged? j
      match tag with
      | "Return" => (ofJson? (depth + 1) content).map .ret
      | _ =>
        match ofConstant? (depth + 1) content tag with
        | some t => some t
        | none =>
          let operands := match depth with
            | 0 => fun _ => none
            | inner + 1 => elementsWith (ofJson? inner)
          ofRecord? (ofJson? depth) operands (← fields? (operandNames tag) content) tag

end Token

namespace Instruction

def ofJson? : Decoder Instruction :=
  recordOf ["offset", "token"] fun depth r => do
    return ⟨← r.required "offset" asUInt32?, ← r.required "token" (Token.ofJson? depth)⟩

end Instruction

/-! Writing. -/

namespace Token

/-- An alternative with one unnamed content. -/
def tag (name : String) (content : Json) : Json := record [(name, content)]

mutual

def toJson (float : Single → Json) : Token → Json
  | .localVariable name => tag "LocalVariable" (.str name)
  | .instanceVariable name => tag "InstanceVariable" (.str name)
  | .defaultVariable name => tag "DefaultVariable" (.str name)
  | .selfObject => .str "SelfRef"
  | .noObject => .str "NoObject"
  | .nothing => .str "Nothing"
  | .intConst value => tag "IntConst" (.int value.toInt)
  | .byteConst value => tag "ByteConst" (.nat value.toNat)
  | .floatConst value => tag "FloatConst" (float value)
  | .boolConst value => tag "BoolConst" (.bool value)
  | .stringConst value => tag "StringConst" (.str value)
  | .nameConst value => tag "NameConst" (.str value)
  | .objectConst reference => tag "ObjectConst" reference.toJson
  | .vectorConst value => tag "VectorConst" (value.toJson float)
  | .rotatorConst pitch yaw roll =>
    tag "RotatorConst" (record
      [("pitch", .int pitch.toInt), ("yaw", .int yaw.toInt), ("roll", .int roll.toInt)])
  | .assign lhs rhs => tag "Let" (record [("lhs", toJson float lhs), ("rhs", toJson float rhs)])
  | .context owner member =>
    tag "Context" (record [("object", toJson float owner), ("member", toJson float member)])
  | .element base index =>
    tag "ArrayElement" (record [("array", toJson float base), ("index", toJson float index)])
  | .call name params =>
    tag "FunctionCall" (record [("name", .str name), ("params", .array (listToJson float params))])
  | .globalCall name params =>
    tag "GlobalFunction"
      (record [("name", .str name), ("params", .array (listToJson float params))])
  | .binary op lhs rhs =>
    tag "BinaryOperator"
      (record [("op", .str op), ("lhs", toJson float lhs), ("rhs", toJson float rhs)])
  | .prefixOp op operand =>
    tag "PreOperator" (record [("op", .str op), ("operand", toJson float operand)])
  | .postfixOp op operand =>
    tag "PostOperator" (record [("op", .str op), ("operand", toJson float operand)])
  | .dynamicCast className value =>
    tag "DynamicCast" (record [("class", .str className), ("value", toJson float value)])
  | .metaCast className value =>
    tag "MetaCast" (record [("class", .str className), ("value", toJson float value)])
  | .ret value => tag "Return" (toJson float value)
  | .stop => .str "Stop"
  | .jump target => tag "Jump" (record [("target", .nat target.toNat)])
  | .jumpIfNot target condition =>
    tag "JumpIfNot"
      (record [("target", .nat target.toNat), ("condition", toJson float condition)])
  | .iterator expression loopEnd =>
    tag "Iterator"
      (record [("expression", toJson float expression), ("end_of_loop", .nat loopEnd.toNat)])
  | .iteratorNext => .str "IteratorNext"
  | .iteratorPop => .str "IteratorPop"
  | .switch expression => tag "Switch" (record [("expression", toJson float expression)])
  | .case next none =>
    tag "Case" (record [("next_offset", .nat next.toNat), ("value", .null)])
  | .case next (some value) =>
    tag "Case" (record [("next_offset", .nat next.toNat), ("value", toJson float value)])

def listToJson (float : Single → Json) : List Token → List Json
  | [] => []
  | t :: ts => toJson float t :: listToJson float ts

end

end Token

def Instruction.toJson (float : Single → Json) (i : Instruction) : Json :=
  record [("offset", .nat i.offset.toNat), ("token", i.item.toJson float)]

end ScriptLift
