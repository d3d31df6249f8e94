import ScriptLift.Script.Rule

/- Regrouping a block: each rule in turn passes over the block from left to
   right, and rounds of all rules repeat until one changes nothing. Bodies are
   regrouped as they are cut out, so nesting is resolved from the inside.

   Every application of a rule turns at least one plain instruction into a part
   of a statement, so the number of plain instructions bounds both the rounds and
   the depth of nested regrouping. -/
namespace ScriptLift

namespace Rule

/-- Passes over the places of `after`, of which there are at most `fuel`; the
places before, nearest first, are done with. Gives the block and whether the rule
applied anywhere. -/
def scanFrom (inner : Block → Block) (rule : Rule) : Nat → Block → Block → Block × Bool
  | 0, before, after => (before.reverse ++ after, false)
  | _ + 1, before, [] => (before.reverse, false)
  | fuel + 1, before, ⟨here, s⟩ :: after =>
    match rule.apply inner before here s after with
    | none => scanFrom inner rule fuel (⟨here, s⟩ :: before) after
    | some (before, after) => ((scanFrom inner rule fuel before after).1, true)

/-- One pass of a rule over a block. -/
def scan (inner : Block → Block) (rule : Rule) (block : Block) : Block × Bool :=
  rule.scanFrom inner block.length [] block

/-- One pass of each of these rules. -/
def scanAll (inner : Block → Block) : List Rule → Block → Block × Bool
  | [], block => (block, false)
  | rule :: rules, block =>
    let (block, changed) := rule.scan inner block
    let (block, changedLater) := scanAll inner rules block
    (block, changed || changedLater)

end Rule

namespace Block

/-- Rounds of all rules until one changes nothing, `fuel` of them at most, and
as deep. -/
def regroupWithin : Nat → Block → Block
  | 0, block => block
  | fuel + 1, block =>
    match Rule.scanAll (regroupWithin fuel) Rule.order block with
    | (block, true) => regroupWithin fuel block
    | (block, false) => block

/-- The block regrouped into statements. -/
def regroup (block : Block) : Block := regroupWithin (plainCount block + 1) block

/-- The statements of a function body, without the return at its end. -/
def ofBody (code : List Instruction) : Block := regroup (dropReturn (ofInstructions code))

end Block

end ScriptLift
