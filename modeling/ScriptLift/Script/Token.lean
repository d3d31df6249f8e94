import ScriptLift.Numeric.Single

/- Compiled expressions and instructions.

   A function body arrives decoded: each instruction is a token at its byte
   offset, and a token holds its operands as tokens. Control flow is by jumps
   to offsets; `Token.isControl` are the tokens that only make sense once they
   are regrouped into statements. -/
namespace ScriptLift

/-- A reference into a package directory: zero is none, `n` is export `n - 1`,
and `-n` is import `n - 1`. -/
structure Reference where
  index : Int32
deriving DecidableEq, Inhabited

namespace Reference

def none : Reference := ⟨0⟩

def isNone (r : Reference) : Bool := r.index == 0

end Reference

/-- Three coordinates. -/
structure Vec3 where
  x : Single
  y : Single
  z : Single
deriving DecidableEq, Inhabited

/-- Something at a byte offset of a function body. -/
structure Placed (α : Type) where
  offset : UInt32
  item : α
deriving DecidableEq

inductive Token where
  | localVariable (name : String)
  | instanceVariable (name : String)
  | defaultVariable (name : String)
  | selfObject
  | noObject
  | nothing
  | intConst (value : Int32)
  | byteConst (value : UInt8)
  | floatConst (value : Single)
  | boolConst (value : Bool)
  | stringConst (value : String)
  | nameConst (value : String)
  | objectConst (reference : Reference)
  | vectorConst (value : Vec3)
  | rotatorConst (pitch yaw roll : Int32)
  | assign (lhs rhs : Token)
  | context (object member : Token)
  | element (array index : Token)
  | call (name : String) (params : List Token)
  | globalCall (name : String) (params : List Token)
  | binary (op : String) (lhs rhs : Token)
  | prefixOp (op : String) (operand : Token)
  | postfixOp (op : String) (operand : Token)
  | dynamicCast (className : String) (value : Token)
  | metaCast (className : String) (value : Token)
  | ret (value : Token)
  | stop
  | jump (target : UInt32)
  | jumpIfNot (target : UInt32) (condition : Token)
  | iterator (expression : Token) (loopEnd : UInt32)
  | iteratorNext
  | iteratorPop
  | switch (expression : Token)
  | case (next : UInt16) (value : Option Token)

abbrev Instruction := Placed Token

namespace Token

/-- The link to the next case that marks the label of the default case. -/
def defaultLink : UInt16 := 0xFFFF

/-- A return without a value, as the compiler ends every body. -/
def isEmptyReturn : Token → Bool
  | .ret .nothing => true
  | _ => false

def isDefaultCase : Token → Bool
  | .case next _ => next == defaultLink
  | _ => false

/-- Tokens that stand for control flow. -/
def isControl : Token → Bool
  | .jump _ => true
  | .jumpIfNot _ _ => true
  | .iterator _ _ => true
  | .switch _ => true
  | .case _ _ => true
  | _ => false

/-- The operands of a token, in order. -/
def children : Token → List Token
  | .assign lhs rhs => [lhs, rhs]
  | .context object member => [object, member]
  | .element array index => [array, index]
  | .call _ params => params
  | .globalCall _ params => params
  | .binary _ lhs rhs => [lhs, rhs]
  | .prefixOp _ operand => [operand]
  | .postfixOp _ operand => [operand]
  | .dynamicCast _ value => [value]
  | .metaCast _ value => [value]
  | .ret value => [value]
  | .jumpIfNot _ condition => [condition]
  | .iterator expression _ => [expression]
  | .switch expression => [expression]
  | .case _ value => value.toList
  | _ => []

/-- Equality of the numbers in two triples. -/
def sameVec (v w : Vec3) : Bool := v.x.same w.x && v.y.same w.y && v.z.same w.z

mutual

/-- Whether two tokens are the same expression. Floats are compared as
numbers. -/
def same : Token → Token → Bool
  | .localVariable a, .localVariable b => a == b
  | .instanceVariable a, .instanceVariable b => a == b
  | .defaultVariable a, .defaultVariable b => a == b
  | .selfObject, .selfObject => true
  | .noObject, .noObject => true
  | .nothing, .nothing => true
  | .intConst a, .intConst b => a == b
  | .byteConst a, .byteConst b => a == b
  | .floatConst a, .floatConst b => a.same b
  | .boolConst a, .boolConst b => a == b
  | .stringConst a, .stringConst b => a == b
  | .nameConst a, .nameConst b => a == b
  | .objectConst a, .objectConst b => a == b
  | .vectorConst a, .vectorConst b => sameVec a b
  | .rotatorConst p y r, .rotatorConst p' y' r' => p == p' && y == y' && r == r'
  | .assign l r, .assign l' r' => same l l' && same r r'
  | .context o m, .context o' m' => same o o' && same m m'
  | .element a i, .element a' i' => same a a' && same i i'
  | .call n ps, .call n' ps' => n == n' && sameList ps ps'
  | .globalCall n ps, .globalCall n' ps' => n == n' && sameList ps ps'
  | .binary o l r, .binary o' l' r' => o == o' && same l l' && same r r'
  | .prefixOp o t, .prefixOp o' t' => o == o' && same t t'
  | .postfixOp o t, .postfixOp o' t' => o == o' && same t t'
  | .dynamicCast c v, .dynamicCast c' v' => c == c' && same v v'
  | .metaCast c v, .metaCast c' v' => c == c' && same v v'
  | .ret v, .ret v' => same v v'
  | .stop, .stop => true
  | .jump t, .jump t' => t == t'
  | .jumpIfNot t c, .jumpIfNot t' c' => t == t' && same c c'
  | .iterator e l, .iterator e' l' => same e e' && l == l'
  | .iteratorNext, .iteratorNext => true
  | .iteratorPop, .iteratorPop => true
  | .switch e, .switch e' => same e e'
  | .case n none, .case n' none => n == n'
  | .case n (some v), .case n' (some v') => n == n' && same v v'
  | _, _ => false

def sameList : List Token → List Token → Bool
  | [], [] => true
  | t :: ts, t' :: ts' => same t t' && sameList ts ts'
  | _, _ => false

end

end Token

end ScriptLift
