import ScriptLift.Script.Token

/- Statements: a function body regrouped into nested blocks.

   A block is a list of statements at increasing offsets. A statement that
   swallowed instructions remembers their offsets, so that a tree can be laid
   out again as the offsets it was built from (`Block.offsets`). -/
namespace ScriptLift

/-- A case of a switch: its value, none for the default, and its body. -/
structure Arm (β : Type) where
  label : Option Token
  body : β

inductive Stmt where
  /-- An instruction as it stands. -/
  | plain (token : Token)
  /-- A jump that ends a case. -/
  | leave
  /-- A condition, what follows when it holds, and what follows when it does
  not, at the offset of the jump that ends the first part. -/
  | branch (condition : Token) (body : List (Placed Stmt))
      (otherwise : Option (Placed (List (Placed Stmt))))
  /-- A loop with the condition in front, and the offset of the jump back. -/
  | whileLoop (condition : Token) (body : List (Placed Stmt)) (back : UInt32)
  /-- A loop with the condition behind, at the offset of its branch. -/
  | doUntil (condition : Placed Token) (body : List (Placed Stmt))
  /-- A counted loop, and the offset of the jump back. -/
  | forLoop (start condition step : Option (Placed Token)) (body : List (Placed Stmt))
      (back : UInt32)
  /-- A loop over an iterator, with the offset of the step that ended its body,
  and the offset of the instruction that ended the loop. -/
  | forEach (iterator : Token) (body : List (Placed Stmt)) (next : Option UInt32) (last : UInt32)
  | switch (subject : Token) (arms : List (Placed (Arm (List (Placed Stmt)))))

abbrev Block := List (Placed Stmt)

abbrev Arms := List (Placed (Arm Block))

namespace Stmt

def isBranch : Stmt → Bool
  | .branch _ _ _ => true
  | _ => false

end Stmt

/-! Views of a tree. -/

mutual

/-- The offsets of the instructions that a statement at `here` stands for, in the
order of the code. -/
def Stmt.offsets (here : UInt32) : Stmt → List UInt32
  | .plain _ => [here]
  | .leave => [here]
  | .branch _ body none => here :: Block.offsets body
  | .branch _ body (some ⟨jump, other⟩) =>
    here :: Block.offsets body ++ jump :: Block.offsets other
  | .whileLoop _ body back => here :: Block.offsets body ++ [back]
  | .doUntil condition body => Block.offsets body ++ [condition.offset]
  | .forLoop start condition step body back =>
    start.toList.map (·.offset) ++ condition.toList.map (·.offset) ++ Block.offsets body ++
      step.toList.map (·.offset) ++ [back]
  | .forEach _ body next last => here :: Block.offsets body ++ next.toList ++ [last]
  | .switch _ arms => here :: Arms.offsets arms

/-- The offsets of the instructions that a block stands for. -/
def Block.offsets : List (Placed Stmt) → List UInt32
  | [] => []
  | ⟨here, s⟩ :: rest => s.offsets here ++ Block.offsets rest

def Arms.offsets : List (Placed (Arm (List (Placed Stmt)))) → List UInt32
  | [] => []
  | ⟨here, ⟨_, body⟩⟩ :: rest => here :: Block.offsets body ++ Arms.offsets rest

end

mutual

/-- How many plain instructions are left in a statement, at any depth. -/
def Stmt.plainCount : Stmt → Nat
  | .plain _ => 1
  | .leave => 0
  | .branch _ body none => Block.plainCount body
  | .branch _ body (some ⟨_, other⟩) => Block.plainCount body + Block.plainCount other
  | .whileLoop _ body _ => Block.plainCount body
  | .doUntil _ body => Block.plainCount body
  | .forLoop _ _ _ body _ => Block.plainCount body
  | .forEach _ body _ _ => Block.plainCount body
  | .switch _ arms => Arms.plainCount arms

def Block.plainCount : List (Placed Stmt) → Nat
  | [] => 0
  | ⟨_, s⟩ :: rest => s.plainCount + Block.plainCount rest

def Arms.plainCount : List (Placed (Arm (List (Placed Stmt)))) → Nat
  | [] => 0
  | ⟨_, ⟨_, body⟩⟩ :: rest => Block.plainCount body + Arms.plainCount rest

end

@[simp] theorem Block.offsets_append (a b : Block) :
    Block.offsets (a ++ b) = Block.offsets a ++ Block.offsets b := by
  induction a with
  | nil => simp [Block.offsets]
  | cons e rest ih => simp [Block.offsets, ih, List.append_assoc]

@[simp] theorem Block.plainCount_append (a b : Block) :
    Block.plainCount (a ++ b) = Block.plainCount a + Block.plainCount b := by
  induction a with
  | nil => simp [Block.plainCount]
  | cons e rest ih => simp [Block.plainCount, ih, Nat.add_assoc]

/-! Equality. -/

namespace Token

def sameOption : Option Token → Option Token → Bool
  | none, none => true
  | some t, some u => t.same u
  | _, _ => false

def samePlaced (a b : Placed Token) : Bool := a.offset == b.offset && a.item.same b.item

def samePart : Option (Placed Token) → Option (Placed Token) → Bool
  | none, none => true
  | some a, some b => samePlaced a b
  | _, _ => false

end Token

mutual

/-- Whether two statements are the same, tokens compared as expressions. -/
def Stmt.same : Stmt → Stmt → Bool
  | .plain t, .plain u => t.same u
  | .leave, .leave => true
  | .branch c b none, .branch c' b' none => c.same c' && Block.same b b'
  | .branch c b (some ⟨j, o⟩), .branch c' b' (some ⟨j', o'⟩) =>
    c.same c' && Block.same b b' && j == j' && Block.same o o'
  | .whileLoop c b k, .whileLoop c' b' k' => c.same c' && Block.same b b' && k == k'
  | .doUntil c b, .doUntil c' b' => Token.samePlaced c c' && Block.same b b'
  | .forLoop i c s b k, .forLoop i' c' s' b' k' =>
    Token.samePart i i' && Token.samePart c c' && Token.samePart s s' && Block.same b b' && k == k'
  | .forEach i b n l, .forEach i' b' n' l' => i.same i' && Block.same b b' && n == n' && l == l'
  | .switch e as, .switch e' as' => e.same e' && Arms.same as as'
  | _, _ => false

def Block.same : List (Placed Stmt) → List (Placed Stmt) → Bool
  | [], [] => true
  | ⟨k, s⟩ :: rest, ⟨k', s'⟩ :: rest' => k == k' && s.same s' && Block.same rest rest'
  | _, _ => false

def Arms.same : List (Placed (Arm (List (Placed Stmt)))) →
    List (Placed (Arm (List (Placed Stmt)))) → Bool
  | [], [] => true
  | ⟨k, ⟨l, b⟩⟩ :: rest, ⟨k', ⟨l', b'⟩⟩ :: rest' =>
    k == k' && Token.sameOption l l' && Block.same b b' && Arms.same rest rest'
  | _, _ => false

end

/-! Flat blocks. -/

namespace Block

/-- Puts a statement at an offset, in place of the one that was there. -/
def insert (offset : UInt32) (s : Stmt) : Block → Block
  | [] => [⟨offset, s⟩]
  | e :: rest =>
    if offset < e.offset then ⟨offset, s⟩ :: e :: rest
    else if offset = e.offset then ⟨offset, s⟩ :: rest
    else e :: insert offset s rest

/-- The instructions as a block, in the order of their offsets. Of several at
one offset the last counts. -/
def ofInstructions (code : List Instruction) : Block :=
  code.foldl (fun block i => insert i.offset (.plain i.item) block) []

/-- The block without a plain return at its end. -/
def dropReturn (block : Block) : Block :=
  match block.getLast? with
  | some ⟨_, .plain t⟩ => if t.isEmptyReturn then block.dropLast else block
  | _ => block

end Block

end ScriptLift
