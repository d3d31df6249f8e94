import ScriptLift.Diagnostic.Hidden
import ScriptLift.Numeric.SingleText
import ScriptLift.Stored.Value

/- Stored values as they are shown in error messages: every part named, on one
   line. -/
namespace ScriptLift.Diagnostic

/-- The code of a character in lower-case hexadecimal. -/
def codeText (c : Char) : String := String.ofList (Nat.toDigits 16 c.toNat)

/-- A character inside quotes. -/
def escape (c : Char) : String :=
  if c == '"' then "\\\""
  else if c == '\\' then "\\\\"
  else if c == '\n' then "\\n"
  else if c == '\r' then "\\r"
  else if c == '\t' then "\\t"
  else if c == '\x00' then "\\0"
  else if isHidden c then "\\u\x7b" ++ codeText c ++ "\x7d"
  else String.singleton c

def quoted (s : String) : String := "\"" ++ String.join (s.toList.map escape) ++ "\""

/-- A name with its content in parentheses. -/
def wrapped (name content : String) : String := name ++ "(" ++ content ++ ")"

/-- A name with named parts in braces. -/
def parts (name : String) (fields : List (String × String)) : String :=
  name ++ " \x7b " ++ ", ".intercalate (fields.map fun (n, t) => n ++ ": " ++ t) ++ " \x7d"

def optional : Option String → String
  | none => "None"
  | some t => wrapped "Some" t

def listed (items : List String) : String := "[" ++ ", ".intercalate items ++ "]"

mutual

def kind : Kind → String
  | .byte path => parts "Byte" [("enum_type", optional (path.map quoted))]
  | .int => "Int"
  | .bool => "Bool"
  | .float => "Float"
  | .name => "Name"
  | .string => "Str"
  | .object path => parts "Object" [("class", quoted path)]
  | .metaclass path => parts "Class" [("meta_class", quoted path)]
  | .array element => parts "Array" [("inner", property element)]
  | .struct path => parts "Struct" [("struct_name", quoted path)]
  | .delegate path => parts "Delegate" [("function", quoted path)]

def property : Property → String
  | ⟨name, k, flags, objectFlags, arrayDim, category⟩ =>
    parts "Property"
      [ ("name", quoted name)
      , ("kind", kind k)
      , ("flags", wrapped "PropertyFlags" (toString flags.bits.toNat))
      , ("object_flags", wrapped "ObjectFlags" (toString objectFlags.bits.toNat))
      , ("array_dim", toString arrayDim.toNat)
      , ("category", optional (category.map quoted)) ]

end

mutual

def value : Value → String
  | .byte b => wrapped "Byte" (toString b.toNat)
  | .int i => wrapped "Int" (toString i.toInt)
  | .bool b => wrapped "Bool" (if b then "true" else "false")
  | .float x => wrapped "Float" x.diagnostic
  | .name s => wrapped "Name" (quoted s)
  | .string s => wrapped "Str" (quoted s)
  | .object r => wrapped "Object" (wrapped "ObjectRef" (toString r.index.toInt))
  | .array es => wrapped "Array" (listed (values es))
  | .struct fs => wrapped "Struct" (listed (settings fs))

def values : List Value → List String
  | [] => []
  | v :: vs => value v :: values vs

def slots : List (Option Value) → List String
  | [] => []
  | none :: vs => optional none :: slots vs
  | some v :: vs => optional (some (value v)) :: slots vs

def setting : Setting → String
  | ⟨template, vs⟩ =>
    parts "DefaultProperty" [("template", property template), ("slots", listed (slots vs))]

def settings : List Setting → List String
  | [] => []
  | s :: ss => setting s :: settings ss

end

end ScriptLift.Diagnostic
