import ScriptLift.Proofs.SwitchExtent

/- How a switch is cut up into its cases.

   A switch takes the statements behind it up to the first jump for which the last label
   in front is that of a default, and all of them when there is no such jump
   (`switchExtent_eq`). What it takes falls into segments, each a label and the statements
   up to the next one (`splitArms_eq`), and every segment becomes a case. -/
namespace ScriptLift

namespace Stmt

def isJump : Stmt → Bool
  | .plain (.jump _) => true
  | _ => false

def isDefaultLabel : Stmt → Bool
  | .plain token => token.isDefaultCase
  | _ => false

theorem isJump_iff {s : Stmt} : s.isJump = true ↔ ∃ target, s = .plain (.jump target) := by
  unfold isJump
  split <;> simp_all

end Stmt

namespace Rule

open Block

/-! Where a switch ends. -/

/-- Whether the last label among the statements is that of a default; `earlier` says so of
the last label in front of them, for when they have none. -/
def inDefault (earlier : Bool) (block : Block) : Bool :=
  (block.filter (·.item.isLabel)).getLast?.elim earlier (·.item.isDefaultLabel)

/-- Whether a switch ends with the statement at `n`: a jump, and the last label in front of
it is that of a default. -/
def endsAt (earlier : Bool) (block : Block) (n : Nat) : Bool :=
  block[n]?.any (·.item.isJump) && inDefault earlier (block.take n)

/-- How many of the statements a switch takes: those up to the first with which it ends,
and all when there is none. -/
def extentLength (earlier : Bool) (block : Block) : Nat :=
  match (List.range block.length).find? (endsAt earlier block) with
  | some n => n + 1
  | none => block.length

theorem inDefault_cons (earlier : Bool) (e : Placed Stmt) (rest : Block) :
    inDefault earlier (e :: rest) =
      inDefault (if e.item.isLabel then e.item.isDefaultLabel else earlier) rest := by
  unfold inDefault
  rw [List.filter_cons]
  split
  · rw [List.getLast?_cons]
    cases (rest.filter (·.item.isLabel)).getLast? <;> rfl
  · rfl

theorem endsAt_zero (earlier : Bool) (e : Placed Stmt) (rest : Block) :
    endsAt earlier (e :: rest) 0 = (e.item.isJump && earlier) := rfl

theorem endsAt_succ (earlier : Bool) (e : Placed Stmt) (rest : Block) (n : Nat) :
    endsAt earlier (e :: rest) (n + 1) =
      endsAt (if e.item.isLabel then e.item.isDefaultLabel else earlier) rest n := by
  unfold endsAt
  rw [List.take_succ_cons, inDefault_cons, List.getElem?_cons_succ]

/-- The first statement ends the switch, or the others decide. -/
theorem extentLength_cons (earlier : Bool) (e : Placed Stmt) (rest : Block) :
    extentLength earlier (e :: rest) =
      if e.item.isJump && earlier then 1
      else extentLength (if e.item.isLabel then e.item.isDefaultLabel else earlier) rest + 1 := by
  have hrest : (endsAt earlier (e :: rest) ∘ Nat.succ) =
      endsAt (if e.item.isLabel then e.item.isDefaultLabel else earlier) rest := by
    funext n
    exact endsAt_succ earlier e rest n
  unfold extentLength
  rw [List.length_cons, List.range_succ_eq_map, List.find?_cons, List.find?_map, hrest, endsAt_zero]
  cases e.item.isJump && earlier with
  | true => rfl
  | false =>
    cases (List.range rest.length).find?
      (endsAt (if e.item.isLabel then e.item.isDefaultLabel else earlier) rest) <;> rfl

/-- A switch takes the statements up to its end. -/
theorem switchExtent_eq (earlier : Bool) (block : Block) :
    switchExtent earlier block =
      (block.take (extentLength earlier block), block.drop (extentLength earlier block)) := by
  induction block generalizing earlier with
  | nil => rfl
  | cons e rest ih =>
    rw [extentLength_cons]
    unfold switchExtent
    split
    · next target hitem =>
      cases earlier with
      | true => simp [hitem, Stmt.isJump]
      | false => simp [hitem, Stmt.isJump, Stmt.isLabel, ih]
    · next next value hitem => simp [hitem, Stmt.isJump, Stmt.isLabel, Stmt.isDefaultLabel, ih]
    · next hjump hlabel =>
      have hnoJump : e.item.isJump = false := by
        refine Bool.eq_false_iff.mpr fun h => ?_
        obtain ⟨target, hitem⟩ := Stmt.isJump_iff.mp h
        exact hjump target hitem
      have hnoLabel : e.item.isLabel = false := by
        refine Bool.eq_false_iff.mpr fun h => ?_
        obtain ⟨next, value, hitem⟩ := Stmt.isLabel_iff.mp h
        exact hlabel next value hitem
      simp [hnoJump, hnoLabel, ih]

/-! The cases. -/

/-- A case as it stands in the code: its label, and the statements up to the next label. -/
structure Segment where
  here : UInt32
  next : UInt16
  value : Option Token
  body : Block

namespace Segment

def code (s : Segment) : Block := ⟨s.here, .plain (.case s.next s.value)⟩ :: s.body

/-- The statements of the body at their offsets, with breaks in the place of jumps. -/
def leavingBody (s : Segment) : Block := s.body.map fun e => ⟨e.offset, leaving e.item⟩

/-- The case of a segment, with the body as `inner` leaves it. -/
def arm (inner : Block → Block) (s : Segment) : Placed (Arm Block) :=
  ⟨s.here, ⟨labelOf s.next s.value, inner s.leavingBody⟩⟩

/-- The case that a segment becomes. It has a value when its label is not that of a
default and carries one. -/
structure Becomes (s : Segment) (arm : Placed (Arm Block)) : Prop where
  offset : arm.offset = s.here
  label : ∀ v, arm.item.label = some v ↔
    (Token.case s.next s.value).isDefaultCase = false ∧ s.value = some v
  body : arm.item.body = regroup s.leavingBody

end Segment

theorem labelOf_eq_some {next : UInt16} {value : Option Token} {v : Token} :
    labelOf next value = some v ↔ (Token.case next value).isDefaultCase = false ∧ value = some v := by
  unfold labelOf Token.isDefaultCase
  split <;> simp_all

/-- The statements of a switch are those in front of its first label and its segments, and
these give the cases. -/
theorem splitArms_eq (own : Block) : ∃ (front : Block) (segments : List Segment),
    own = front ++ segments.flatMap Segment.code ∧
    (∀ e ∈ front, e.item.isLabel = false) ∧
    (∀ segment ∈ segments, ∀ e ∈ segment.body, e.item.isLabel = false) ∧
    splitArms own = (front.map fun e => ⟨e.offset, leaving e.item⟩,
      segments.map (Segment.arm id)) := by
  fun_induction splitArms own with
  | case1 => exact ⟨[], [], rfl, by simp, by simp, rfl⟩
  | case2 here rest body arms hrest next value ih =>
    obtain ⟨front, segments, rfl, hfront, hbodies, hsplit⟩ := ih
    obtain ⟨rfl, rfl⟩ := Prod.mk.inj (hrest.symm.trans hsplit)
    -- What stood in front of the first label is the body of this one.
    exact ⟨[], ⟨here, next, value, front⟩ :: segments, rfl, by simp,
      List.forall_mem_cons.mpr ⟨hfront, hbodies⟩, rfl⟩
  | case3 here rest body arms hrest s hs ih =>
    obtain ⟨front, segments, rfl, hfront, hbodies, hsplit⟩ := ih
    obtain ⟨rfl, rfl⟩ := Prod.mk.inj (hrest.symm.trans hsplit)
    have hlabel : s.isLabel = false := by
      refine Bool.eq_false_iff.mpr fun h => ?_
      obtain ⟨next, value, rfl⟩ := Stmt.isLabel_iff.mp h
      exact hs next value rfl
    exact ⟨⟨here, s⟩ :: front, segments, rfl, List.forall_mem_cons.mpr ⟨hlabel, hfront⟩, hbodies, rfl⟩

/-- What a switch takes when a label comes first: nothing but segments. -/
theorem splitArms_of_label {own : Block} {e : Placed Stmt} {rest : Block} (hown : own = e :: rest)
    (hlabel : e.item.isLabel = true) : ∃ segments : List Segment,
    own = segments.flatMap Segment.code ∧
    (∀ segment ∈ segments, ∀ e ∈ segment.body, e.item.isLabel = false) ∧
    (splitArms own).2 = segments.map (Segment.arm id) := by
  obtain ⟨front, segments, hcut, hfront, hbodies, hsplit⟩ := splitArms_eq own
  cases front with
  | nil => exact ⟨segments, hcut, hbodies, congrArg Prod.snd hsplit⟩
  | cons x front =>
    obtain ⟨rfl, -⟩ := List.cons.inj (hown.symm.trans hcut)
    rw [hfront e (by simp)] at hlabel
    exact absurd hlabel Bool.false_ne_true

theorem Segment.becomes_arm (s : Segment) : s.Becomes (s.arm regroup) := by
  constructor
  · rfl
  · exact fun v => labelOf_eq_some
  · simp only [Segment.arm]

theorem regroupArms_segments (inner : Block → Block) (segments : List Segment) :
    regroupArms inner (segments.map (Segment.arm id)) = segments.map (Segment.arm inner) := by
  rw [regroupArms, List.map_map]
  rfl

theorem startsWithCase_iff {after : Block} : startsWithCase after = true ↔
    ∃ k next value rest, after = ⟨k, .plain (.case next value)⟩ :: rest := by
  unfold startsWithCase
  split <;> simp_all

/-- A switch that starts with a label takes at least the label. -/
theorem take_extentLength_of_label (k : UInt32) (next : UInt16) (value : Option Token) (rest : Block) :
    ∃ more, (⟨k, .plain (.case next value)⟩ :: rest : Block).take
      (extentLength false (⟨k, .plain (.case next value)⟩ :: rest)) =
        ⟨k, .plain (.case next value)⟩ :: more := by
  rw [extentLength_cons]
  exact ⟨_, rfl⟩

theorem applySwitch_eq_some (before : Block) (here : UInt32) (s : Stmt) (after before' after' : Block) :
    Rule.switch.apply regroup before here s after = some (before', after') ↔
      ∃ subject, s = .plain (.switch subject) ∧ startsWithCase after = true ∧
        before' = ⟨here, .switch subject (regroupArms regroup
          (splitArms (after.take (extentLength false after))).2)⟩ :: before ∧
        after' = after.drop (extentLength false after) := by
  simp only [apply, applySwitch, switchExtent_eq]
  split
  · next subject =>
    split
    · next hopens => simp [hopens, eq_comm]
    · next hopens => simp [hopens]
  · next hs =>
    simp only [reduceCtorEq, false_iff]
    rintro ⟨subject, rfl, -⟩
    exact hs subject rfl

/-- What a switch is made of. The rule applies to a switch right in front of a label and to
nothing else. It takes the statements up to the first jump for which the last label in
front is that of a default, or all; these are segments of a label and the statements up to
the next one, and each segment becomes a case, in order. All other statements stay. -/
theorem switch_apply_segments (before : Block) (here : UInt32) (s : Stmt) (after : Block) :
    ((∃ result, Rule.switch.apply regroup before here s after = some result) ↔
      (∃ subject, s = .plain (.switch subject)) ∧
        ∃ k next value rest, after = ⟨k, .plain (.case next value)⟩ :: rest) ∧
    ∀ before' after', Rule.switch.apply regroup before here s after = some (before', after') →
      ∃ subject segments arms, s = .plain (.switch subject) ∧
        before' = ⟨here, .switch subject arms⟩ :: before ∧
        after' = after.drop (extentLength false after) ∧
        after.take (extentLength false after) = segments.flatMap Segment.code ∧
        (∀ segment ∈ segments, ∀ e ∈ segment.body, e.item.isLabel = false) ∧
        List.Forall₂ Segment.Becomes segments arms := by
  have happlies := applySwitch_eq_some before here s after
  refine ⟨⟨?_, ?_⟩, ?_⟩
  · rintro ⟨⟨before', after'⟩, h⟩
    obtain ⟨subject, hs, hopens, -⟩ := (happlies before' after').mp h
    exact ⟨⟨subject, hs⟩, startsWithCase_iff.mp hopens⟩
  · rintro ⟨⟨subject, hs⟩, hopens⟩
    exact ⟨_, (happlies _ _).mpr ⟨subject, hs, startsWithCase_iff.mpr hopens, rfl, rfl⟩⟩
  · intro before' after' h
    obtain ⟨subject, hs, hopens, rfl, rfl⟩ := (happlies before' after').mp h
    obtain ⟨k, next, value, rest, rfl⟩ := startsWithCase_iff.mp hopens
    obtain ⟨more, hmore⟩ := take_extentLength_of_label k next value rest
    obtain ⟨segments, hcut, hbodies, harms⟩ := splitArms_of_label hmore rfl
    refine ⟨subject, segments, _, hs, rfl, rfl, hcut, hbodies, ?_⟩
    rw [harms, regroupArms_segments, List.forall₂_map_right_iff, List.forall₂_same]
    exact fun segment _ => segment.becomes_arm

/-- What follows a switch with two defaults, of which the first is not the last label. -/
def defaultTwice : Block :=
  [⟨2, .plain (.case Token.defaultLink none)⟩, ⟨4, .plain .stop⟩, ⟨6, .plain (.case 10 (some (.intConst 1)))⟩,
    ⟨8, .plain (.jump 20)⟩, ⟨10, .plain (.case Token.defaultLink (some (.intConst 2)))⟩,
    ⟨12, .plain .stop⟩, ⟨14, .plain (.jump 20)⟩, ⟨16, .plain (.jump 30)⟩]

/-- The jump at 8 is behind a label with a value, so the switch ends with the one at 14. -/
theorem switch_apply_segments_defaultTwice :
    Rule.switch.apply regroup [] 0 (.plain (.switch .selfObject)) defaultTwice =
      some ([⟨0, .switch .selfObject [⟨2, ⟨none, [⟨4, .plain .stop⟩]⟩⟩,
        ⟨6, ⟨some (.intConst 1), [⟨8, .leave⟩]⟩⟩,
        ⟨10, ⟨none, [⟨12, .plain .stop⟩, ⟨14, .leave⟩]⟩⟩]⟩], [⟨16, .plain (.jump 30)⟩]) ∧
    ∃ segments : List Segment,
      defaultTwice.take 7 = segments.flatMap Segment.code ∧ segments.length = 3 := by
  refine ⟨rfl, ?_⟩
  obtain ⟨subject, segments, arms, -, hbefore, -, hcut, -, hbecome⟩ :=
    (switch_apply_segments [] 0 (.plain (.switch .selfObject)) defaultTwice).2 _ _ rfl
  have harms := (List.cons.inj hbefore).1
  simp only [Placed.mk.injEq, Stmt.switch.injEq, true_and] at harms
  refine ⟨segments, hcut, ?_⟩
  rw [hbecome.length_eq, ← harms.2]
  rfl

end Rule

end ScriptLift
