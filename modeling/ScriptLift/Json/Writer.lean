import ScriptLift.Json.Basic

/- Writing JSON text: on one line without blanks, or one element a line with
   two blanks of indentation a level. Only the quote, the backslash and the
   control characters are escaped. A string that holds no characters is written
   as half of a surrogate pair. -/
namespace ScriptLift.Json

def hexChar (n : Nat) : Char :=
  if n < 10 then Char.ofNat ('0'.toNat + n) else Char.ofNat ('a'.toNat + (n - 10))

/-- A character inside a string. -/
def escape (c : Char) : List Char :=
  if c == '"' then ['\\', '"']
  else if c == '\\' then ['\\', '\\']
  else if c == '\x08' then ['\\', 'b']
  else if c == '\x0c' then ['\\', 'f']
  else if c == '\n' then ['\\', 'n']
  else if c == '\r' then ['\\', 'r']
  else if c == '\t' then ['\\', 't']
  else if c.toNat < 0x20 then
    ['\\', 'u', '0', '0', hexChar (c.toNat / 16), hexChar (c.toNat % 16)]
  else [c]

def quote : Option String → List Char
  | some s => '"' :: s.toList.flatMap escape ++ ['"']
  | none => "\"\\ud800\"".toList

def literalText (n : NumberLiteral) : List Char :=
  (if n.negative then ['-'] else []) ++ n.whole.map Digit.char ++
    (if n.fraction.isEmpty then [] else '.' :: n.fraction.map Digit.char) ++
    match n.exponent with
    | none => []
    | some (negative, ds) => 'e' :: (if negative then ['-'] else []) ++ ds.map Digit.char

mutual

/-- The value on one line. -/
def compact : Json → List Char
  | .null => "null".toList
  | .bool true => "true".toList
  | .bool false => "false".toList
  | .number n => literalText n
  | .string s => quote s
  | .array es => '[' :: compactElements es ++ [']']
  | .object ms => '\x7b' :: compactMembers ms ++ ['\x7d']

def compactElements : List Json → List Char
  | [] => []
  | [v] => compact v
  | v :: w :: vs => compact v ++ ',' :: compactElements (w :: vs)

def compactMembers : List (Option String × Json) → List Char
  | [] => []
  | [(name, v)] => quote name ++ ':' :: compact v
  | (name, v) :: m :: ms => quote name ++ ':' :: compact v ++ ',' :: compactMembers (m :: ms)

end

/-- The text of a value on one line. -/
def render (j : Json) : String := String.ofList j.compact

/-- A new line `depth` levels deep. -/
def indented (depth : Nat) : List Char := '\n' :: List.replicate (2 * depth) ' '

mutual

/-- The value over several lines, from one that is `depth` levels deep. -/
def spread (depth : Nat) : Json → List Char
  | .null => "null".toList
  | .bool true => "true".toList
  | .bool false => "false".toList
  | .number n => literalText n
  | .string s => quote s
  | .array [] => ['[', ']']
  | .array (e :: es) => '[' :: spreadElements (depth + 1) (e :: es) ++ indented depth ++ [']']
  | .object [] => ['\x7b', '\x7d']
  | .object (m :: ms) =>
    '\x7b' :: spreadMembers (depth + 1) (m :: ms) ++ indented depth ++ ['\x7d']

def spreadElements (depth : Nat) : List Json → List Char
  | [] => []
  | [v] => indented depth ++ spread depth v
  | v :: w :: vs => indented depth ++ spread depth v ++ ',' :: spreadElements depth (w :: vs)

def spreadMembers (depth : Nat) : List (Option String × Json) → List Char
  | [] => []
  | [(name, v)] => indented depth ++ quote name ++ ':' :: ' ' :: spread depth v
  | (name, v) :: m :: ms =>
    indented depth ++ quote name ++ ':' :: ' ' :: spread depth v ++ ',' :: spreadMembers depth (m :: ms)

end

/-- The text of a value over several lines. -/
def pretty (j : Json) : String := String.ofList (j.spread 0)

end ScriptLift.Json
