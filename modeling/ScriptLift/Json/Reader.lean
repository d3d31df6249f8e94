import ScriptLift.Json.Basic

/- Reading JSON text.

   `Json.parse?` reads one value with blanks around it and nothing else. The
   reader is strict: no comma after the last element, no leading zero, a digit
   on both sides of a point, no raw control character in a string. Each function
   takes the characters still to be read and gives back those it leaves. -/
namespace ScriptLift.Json.Reader

def isBlank (c : Char) : Bool := c == ' ' || c == '\n' || c == '\t' || c == '\r'

def skipBlanks : List Char → List Char
  | [] => []
  | c :: cs => if isBlank c then skipBlanks cs else c :: cs

/-! Numbers. -/

/-- The run of digits in front, and the rest. -/
def digits : List Char → List Digit × List Char
  | [] => ([], [])
  | c :: cs =>
    match Digit.ofChar? c with
    | some d => let (ds, rest) := digits cs; (d :: ds, rest)
    | none => ([], c :: cs)

/-- A run of at least one digit. -/
def someDigits (cs : List Char) : Option (List Digit × List Char) :=
  match digits cs with
  | ([], _) => none
  | found => some found

/-- The digits before the point: a zero stands alone. -/
def whole (cs : List Char) : Option (List Digit × List Char) := do
  let (ds, rest) ← someDigits cs
  match ds with
  | 0 :: _ :: _ => none
  | _ => return (ds, rest)

/-- The point and the digits after it, if there is a point. -/
def fraction : List Char → Option (List Digit × List Char)
  | '.' :: cs => someDigits cs
  | cs => some ([], cs)

/-- The sign and digits of an exponent, after its mark. -/
def exponentDigits (cs : List Char) : Option (Option (Bool × List Digit) × List Char) :=
  let (negative, cs) :=
    match cs with
    | '+' :: cs => (false, cs)
    | '-' :: cs => (true, cs)
    | cs => (false, cs)
  (someDigits cs).map fun (ds, rest) => (some (negative, ds), rest)

/-- The exponent, if there is one. -/
def exponent : List Char → Option (Option (Bool × List Digit) × List Char)
  | 'e' :: cs => exponentDigits cs
  | 'E' :: cs => exponentDigits cs
  | cs => some (none, cs)

def number (cs : List Char) : Option (NumberLiteral × List Char) := do
  let (negative, cs) :=
    match cs with
    | '-' :: cs => (true, cs)
    | cs => (false, cs)
  let (ws, cs) ← whole cs
  let (fs, cs) ← fraction cs
  let (es, cs) ← exponent cs
  return (⟨negative, ws, fs, es⟩, cs)

/-! Strings. -/

/-- A character as it stands, or a 16-bit unit written by its code. -/
inductive Mark where
  | char (c : Char)
  | unit (u : Nat)
deriving DecidableEq

def hexDigit? (c : Char) : Option Nat :=
  if '0' ≤ c ∧ c ≤ '9' then some (c.toNat - '0'.toNat)
  else if 'a' ≤ c ∧ c ≤ 'f' then some (c.toNat - 'a'.toNat + 10)
  else if 'A' ≤ c ∧ c ≤ 'F' then some (c.toNat - 'A'.toNat + 10)
  else none

def hex4? (a b c d : Char) : Option Nat := do
  return (((← hexDigit? a) * 16 + (← hexDigit? b)) * 16 + (← hexDigit? c)) * 16 + (← hexDigit? d)

/-- The character a one-letter escape stands for. -/
def escaped? : Char → Option Char
  | '"' => some '"'
  | '\\' => some '\\'
  | '/' => some '/'
  | 'b' => some '\x08'
  | 'f' => some '\x0c'
  | 'n' => some '\n'
  | 'r' => some '\r'
  | 't' => some '\t'
  | _ => none

/-- What is written up to the closing quote, and the rest after it. -/
def marks : List Char → Option (List Mark × List Char)
  | [] => none
  | '"' :: rest => some ([], rest)
  | '\\' :: 'u' :: a :: b :: c :: d :: rest => do
    let u ← hex4? a b c d
    let (ms, rest) ← marks rest
    return (.unit u :: ms, rest)
  | '\\' :: e :: rest => do
    let c ← escaped? e
    let (ms, rest) ← marks rest
    return (.char c :: ms, rest)
  | c :: rest =>
    if c == '\\' || c.toNat < 0x20 then none
    else do
      let (ms, rest) ← marks rest
      return (.char c :: ms, rest)

def isHighSurrogate (u : Nat) : Bool := 0xD800 ≤ u && u ≤ 0xDBFF

def isLowSurrogate (u : Nat) : Bool := 0xDC00 ≤ u && u ≤ 0xDFFF

/-- The characters of a string: a high and a low surrogate side by side make
one, and either alone makes the string hold none. -/
def characters : List Mark → Option (List Char)
  | [] => some []
  | .char c :: ms => (characters ms).map (c :: ·)
  | .unit u :: ms =>
    if isHighSurrogate u then
      match ms with
      | .unit v :: ms =>
        if isLowSurrogate v then
          (characters ms).map (Char.ofNat (0x10000 + (u - 0xD800) * 0x400 + (v - 0xDC00)) :: ·)
        else none
      | _ => none
    else if isLowSurrogate u then none
    else (characters ms).map (Char.ofNat u :: ·)

/-- A string after its opening quote. -/
def string (cs : List Char) : Option (Option String × List Char) := do
  let (ms, rest) ← marks cs
  return ((characters ms).map String.ofList, rest)

/-! Values. -/

mutual

/-- One value that starts with the first character. -/
def value : Nat → List Char → Option (Json × List Char)
  | 0, _ => none
  | fuel + 1, cs =>
    match cs with
    | '"' :: rest => (string rest).map fun (s, rest) => (.string s, rest)
    | '[' :: rest =>
      match skipBlanks rest with
      | ']' :: rest => some (.array [], rest)
      | rest => (elements fuel rest).map fun (es, rest) => (.array es, rest)
    | '\x7b' :: rest =>
      match skipBlanks rest with
      | '\x7d' :: rest => some (.object [], rest)
      | rest => (members fuel rest).map fun (ms, rest) => (.object ms, rest)
    | 'n' :: 'u' :: 'l' :: 'l' :: rest => some (.null, rest)
    | 't' :: 'r' :: 'u' :: 'e' :: rest => some (.bool true, rest)
    | 'f' :: 'a' :: 'l' :: 's' :: 'e' :: rest => some (.bool false, rest)
    | cs => (number cs).map fun (n, rest) => (.number n, rest)

/-- The elements of an array up to its closing bracket, at least one. -/
def elements : Nat → List Char → Option (List Json × List Char)
  | 0, _ => none
  | fuel + 1, cs => do
    let (v, rest) ← value fuel (skipBlanks cs)
    match skipBlanks rest with
    | ']' :: rest => return ([v], rest)
    | ',' :: rest =>
      let (vs, rest) ← elements fuel rest
      return (v :: vs, rest)
    | _ => none

/-- The members of an object up to its closing brace, at least one. -/
def members : Nat → List Char → Option (List (Option String × Json) × List Char)
  | 0, _ => none
  | fuel + 1, cs =>
    match skipBlanks cs with
    | '"' :: rest => do
      let (name, rest) ← string rest
      match skipBlanks rest with
      | ':' :: rest =>
        let (v, rest) ← value fuel (skipBlanks rest)
        match skipBlanks rest with
        | '\x7d' :: rest => return ([(name, v)], rest)
        | ',' :: rest =>
          let (ms, rest) ← members fuel rest
          return ((name, v) :: ms, rest)
        | _ => none
      | _ => none
    | _ => none

end

end Reader

/-- The value that a text writes. Every value, element or member takes a
character, so twice the length bounds the nested calls. -/
def parse? (text : String) : Option Json :=
  let cs := text.toList
  match Reader.value (2 * cs.length + 2) (Reader.skipBlanks cs) with
  | some (v, rest) => if (Reader.skipBlanks rest).isEmpty then some v else none
  | none => none

end ScriptLift.Json
