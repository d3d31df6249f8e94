import ScriptLift.Script.Statement

/- The rules that regroup instructions into statements.

   A rule looks at one place of a block: the statements before it, nearest
   first, the statement there, and those after it. Where the jumps have the shape
   that one construct compiles to, it gives the block with that construct in
   their place, again as the part before the next place, nearest first, and the
   part after it. Ranges of a block are cut by comparing offsets with jump
   targets. The bodies a rule cuts out are regrouped by `inner`. -/
namespace ScriptLift

inductive Rule where
  | forEach
  | doUntil
  | ifElse
  | whileLoop
  | forLoop
  | plainIf
  | switch
deriving DecidableEq

namespace Rule

/-- The order of application. A loop header is also a forward branch, so loops
come before plain ifs. -/
def order : List Rule := [.forEach, .doUntil, .ifElse, .whileLoop, .forLoop, .plainIf, .switch]

/-- The statements in front with offsets below `limit`. -/
def below (limit : UInt32) (block : Block) : Block := block.takeWhile (·.offset < limit)

/-- The statements from the first with an offset of at least `limit`. -/
def onward (limit : UInt32) (block : Block) : Block := block.dropWhile (·.offset < limit)

/-- The two parts make up the block. -/
theorem below_append_onward (limit : UInt32) (block : Block) :
    below limit block ++ onward limit block = block :=
  List.takeWhile_append_dropWhile

/-- What a rule makes of a place: the part before the next place, nearest first,
and the part after it. -/
abbrev Result := Option (Block × Block)

/-- The offset of a plain jump at the end of a block, and its target. -/
def lastJump? (block : Block) : Option (UInt32 × UInt32) :=
  match block.getLast? with
  | some ⟨offset, .plain (.jump target)⟩ => some (offset, target)
  | _ => none

/-- A body without the step of the iterator at its end, and the offset of the
step. -/
def splitNext (body : Block) : Block × Option UInt32 :=
  match body.getLast? with
  | some ⟨offset, .plain .iteratorNext⟩ => (body.dropLast, some offset)
  | _ => (body, none)

/-- An iterator whose end is a later statement of the block: the statements in
between are the body, and the statement at the end goes. -/
def applyForEach (inner : Block → Block) (before : Block) (here : UInt32) (s : Stmt)
    (after : Block) : Result :=
  match s with
  | .plain (.iterator expression last) =>
    if here < last then
      match onward last after with
      | ⟨k, _⟩ :: rest =>
        if k = last then
          let (body, next) := splitNext (below last after)
          some (⟨here, .forEach expression (inner body) next last⟩ :: before, rest)
        else none
      | [] => none
    else none
  | _ => none

/-- A backward branch: the statements from its target up to it are the body of a
loop, which takes the place of the target. -/
def applyDoUntil (inner : Block → Block) (before : Block) (here : UInt32) (s : Stmt)
    (after : Block) : Result :=
  match s with
  | .plain (.jumpIfNot target condition) =>
    if target < here then
      let body := (before.takeWhile (target ≤ ·.offset)).reverse
      some (⟨target, .doUntil ⟨here, condition⟩ (inner body)⟩ ::
        before.dropWhile (target ≤ ·.offset), after)
    else none
  | _ => none

/-- A forward branch over a part that ends in a jump further forward: the jump
goes, and what it skips is the other part. -/
def applyIfElse (inner : Block → Block) (before : Block) (here : UInt32) (s : Stmt)
    (after : Block) : Result :=
  match s with
  | .plain (.jumpIfNot target condition) =>
    if here < target then
      match lastJump? (below target after) with
      | some (jump, destination) =>
        if target < destination then
          let rest := onward target after
          some (⟨here, .branch condition (inner (below target after).dropLast)
            (some ⟨jump, inner (below destination rest)⟩)⟩ :: before, onward destination rest)
        else none
      | none => none
    else none
  | _ => none

/-- A forward branch over a part that ends in a jump back to the branch. -/
def applyWhile (inner : Block → Block) (before : Block) (here : UInt32) (s : Stmt)
    (after : Block) : Result :=
  match s with
  | .plain (.jumpIfNot target condition) =>
    if here < target then
      match lastJump? (below target after) with
      | some (jump, destination) =>
        if destination = here then
          some (⟨here, .whileLoop condition (inner (below target after).dropLast) jump⟩ :: before,
            onward target after)
        else none
      | none => none
    else none
  | _ => none

/-- Whether exactly one operand of the first token is also an operand of the
second: the counter that one statement sets and the other steps. -/
def sharesOneOperand (start step : Token) : Bool :=
  (start.children.countP fun c => step.children.any fun d => c.same d) == 1

/-- A loop whose last statement shares its counter with the plain statement in
front of the loop. -/
def applyFor (before : Block) (here : UInt32) (s : Stmt) (after : Block) : Result :=
  match before, s with
  | ⟨k, .plain start⟩ :: before, .whileLoop condition body back =>
    match body.getLast? with
    | some ⟨last, .plain step⟩ =>
      if sharesOneOperand start step then
        some (⟨k, .forLoop (some ⟨k, start⟩) (some ⟨here, condition⟩) (some ⟨last, step⟩)
          body.dropLast back⟩ :: before, after)
      else none
    | _ => none
  | _, _ => none

/-- Any other forward branch: what it skips is the body. -/
def applyIf (inner : Block → Block) (before : Block) (here : UInt32) (s : Stmt)
    (after : Block) : Result :=
  match s with
  | .plain (.jumpIfNot target condition) =>
    if here < target then
      some (⟨here, .branch condition (inner (below target after)) none⟩ :: before,
        onward target after)
    else none
  | _ => none

/-! Switches. -/

/-- The statement of a case body: a plain jump leaves the switch. -/
def leaving : Stmt → Stmt
  | .plain (.jump _) => .leave
  | s => s

/-- The statements that belong to a switch, and the rest. `isDefault` says
whether the last label so far is the default; the jump after it is the last. -/
def switchExtent (isDefault : Bool) : Block → Block × Block
  | [] => ([], [])
  | e :: rest =>
    match e.item with
    | .plain (.jump _) =>
      if isDefault then ([e], rest)
      else let (own, rest) := switchExtent isDefault rest; (e :: own, rest)
    | .plain (.case next value) =>
      let (own, rest) := switchExtent (Token.case next value).isDefaultCase rest
      (e :: own, rest)
    | _ => let (own, rest) := switchExtent isDefault rest; (e :: own, rest)

/-- The value of a case label, none for the default. -/
def labelOf (next : UInt16) (value : Option Token) : Option Token :=
  if next == Token.defaultLink then none else value

/-- The statements of a switch split at its labels: what stands before the first
label, and a case for each label. -/
def splitArms : Block → Block × Arms
  | [] => ([], [])
  | ⟨here, s⟩ :: rest =>
    let (body, arms) := splitArms rest
    match s with
    | .plain (.case next value) => ([], ⟨here, ⟨labelOf next value, body⟩⟩ :: arms)
    | s => (⟨here, leaving s⟩ :: body, arms)

/-- The cases with their bodies regrouped. -/
def regroupArms (inner : Block → Block) (arms : Arms) : Arms :=
  arms.map fun ⟨here, ⟨label, body⟩⟩ => ⟨here, ⟨label, inner body⟩⟩

/-- Whether the first statement is a case label. -/
def startsWithCase : Block → Bool
  | ⟨_, .plain (.case _ _)⟩ :: _ => true
  | _ => false

/-- A switch followed by a case label. -/
def applySwitch (inner : Block → Block) (before : Block) (here : UInt32) (s : Stmt)
    (after : Block) : Result :=
  match s with
  | .plain (.switch subject) =>
    if startsWithCase after then
      let (own, rest) := switchExtent false after
      some (⟨here, .switch subject (regroupArms inner (splitArms own).2)⟩ :: before, rest)
    else none
  | _ => none

/-- What a rule makes of one place of a block. -/
def apply (inner : Block → Block) : Rule → Block → UInt32 → Stmt → Block → Result
  | .forEach => applyForEach inner
  | .doUntil => applyDoUntil inner
  | .ifElse => applyIfElse inner
  | .whileLoop => applyWhile inner
  | .forLoop => applyFor
  | .plainIf => applyIf inner
  | .switch => applySwitch inner

end Rule

end ScriptLift
