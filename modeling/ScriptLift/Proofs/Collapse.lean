import Mathlib.Data.List.Basic
import ScriptLift.Script.Regroup

/- What an application of a rule does to a whole block.

   A rule reads one place and gives back the two parts around the next place.
   `Collapse inner rule b b'` says the same of the whole block: some consecutive
   statements of `b`, cut at the offsets that the jumps name, became one
   statement of `b'`, and everything before and after them stayed. Each
   constructor carries every guard of its rule, so that a fact about regrouping is
   proved by one case analysis (`regroupWithin_rel`) and no rule is opened again. -/
namespace ScriptLift

namespace Rule

/-- The step of an iterator at the end of a loop body, when there is one. -/
def stepPart (next : Option UInt32) : Block := next.toList.map fun k => ⟨k, .plain .iteratorNext⟩

/-- One application of a rule to a block; bodies are regrouped by `inner`. -/
inductive Collapse (inner : Block → Block) : Rule → Block → Block → Prop where
  | forEach {pre body post : Block} {next : Option UInt32} {here last : UInt32}
      {expression : Token} {marker : Stmt} (ahead : here < last)
      (body_below : ∀ e ∈ body ++ stepPart next, e.offset < last) :
      Collapse inner .forEach
        (pre ++ ⟨here, .plain (.iterator expression last)⟩ ::
          (body ++ stepPart next ++ ⟨last, marker⟩ :: post))
        (pre ++ ⟨here, .forEach expression (inner body) next last⟩ :: post)
  | doUntil {pre body post : Block} {here target : UInt32} {condition : Token}
      (back : target < here) (pre_below : ∀ e ∈ pre.getLast?, e.offset < target)
      (body_above : ∀ e ∈ body, target ≤ e.offset) :
      Collapse inner .doUntil
        (pre ++ (body ++ ⟨here, .plain (.jumpIfNot target condition)⟩ :: post))
        (pre ++ ⟨target, .doUntil ⟨here, condition⟩ (inner body)⟩ :: post)
  | ifElse {pre body other post : Block} {here target jump destination : UInt32}
      {condition : Token} (ahead : here < target) (further : target < destination)
      (body_below : ∀ e ∈ body, e.offset < target) (jump_below : jump < target)
      (rest_above : ∀ e ∈ (other ++ post).head?, target ≤ e.offset)
      (other_below : ∀ e ∈ other, e.offset < destination)
      (post_above : ∀ e ∈ post.head?, destination ≤ e.offset) :
      Collapse inner .ifElse
        (pre ++ ⟨here, .plain (.jumpIfNot target condition)⟩ ::
          (body ++ ⟨jump, .plain (.jump destination)⟩ :: (other ++ post)))
        (pre ++ ⟨here, .branch condition (inner body) (some ⟨jump, inner other⟩)⟩ :: post)
  | whileLoop {pre body post : Block} {here target back : UInt32} {condition : Token}
      (ahead : here < target) (body_below : ∀ e ∈ body, e.offset < target)
      (back_below : back < target) (post_above : ∀ e ∈ post.head?, target ≤ e.offset) :
      Collapse inner .whileLoop
        (pre ++ ⟨here, .plain (.jumpIfNot target condition)⟩ ::
          (body ++ ⟨back, .plain (.jump here)⟩ :: post))
        (pre ++ ⟨here, .whileLoop condition (inner body) back⟩ :: post)
  | forLoop {pre body post : Block} {k here last back : UInt32} {start step condition : Token}
      (counts : sharesOneOperand start step = true) :
      Collapse inner .forLoop
        (pre ++ ⟨k, .plain start⟩ ::
          ⟨here, .whileLoop condition (body ++ [⟨last, .plain step⟩]) back⟩ :: post)
        (pre ++ ⟨k, .forLoop (some ⟨k, start⟩) (some ⟨here, condition⟩) (some ⟨last, step⟩)
          body back⟩ :: post)
  | plainIf {pre body post : Block} {here target : UInt32} {condition : Token}
      (ahead : here < target) (body_below : ∀ e ∈ body, e.offset < target)
      (post_above : ∀ e ∈ post.head?, target ≤ e.offset) :
      Collapse inner .plainIf
        (pre ++ ⟨here, .plain (.jumpIfNot target condition)⟩ :: (body ++ post))
        (pre ++ ⟨here, .branch condition (inner body) none⟩ :: post)
  | switch {pre own post : Block} {here : UInt32} {subject : Token}
      (opens : startsWithCase (own ++ post) = true)
      (extent : switchExtent false (own ++ post) = (own, post)) :
      Collapse inner .switch
        (pre ++ ⟨here, .plain (.switch subject)⟩ :: (own ++ post))
        (pre ++ ⟨here, .switch subject (regroupArms inner (splitArms own).2)⟩ :: post)

/-! Cuts. -/

theorem below_lt (limit : UInt32) (block : Block) : ∀ e ∈ below limit block, e.offset < limit := by
  intro e he
  rw [below] at he
  simpa using List.all_eq_true.mp List.all_takeWhile e he

theorem le_head_onward (limit : UInt32) (block : Block) :
    ∀ e ∈ (onward limit block).head?, limit ≤ e.offset := by
  intro e he
  have hd := List.head?_dropWhile_not (fun x : Placed Stmt => decide (x.offset < limit)) block
  rw [onward] at he
  rw [Option.mem_def.mp he] at hd
  simpa using hd

/-- The part of a reversed prefix that lies at or above a limit comes last in the
prefix. -/
theorem reverse_cut (limit : UInt32) (before : Block) :
    (before.dropWhile (limit ≤ ·.offset)).reverse ++
      (before.takeWhile (limit ≤ ·.offset)).reverse = before.reverse := by
  rw [← List.reverse_append, List.takeWhile_append_dropWhile]

theorem le_reverse_takeWhile (limit : UInt32) (before : Block) :
    ∀ e ∈ (before.takeWhile (limit ≤ ·.offset)).reverse, limit ≤ e.offset := by
  intro e he
  simpa using List.all_eq_true.mp List.all_takeWhile e (List.mem_reverse.mp he)

theorem last_reverse_dropWhile_lt (limit : UInt32) (before : Block) :
    ∀ e ∈ (before.dropWhile (limit ≤ ·.offset)).reverse.getLast?, e.offset < limit := by
  intro e he
  have hd := List.head?_dropWhile_not (fun x : Placed Stmt => decide (limit ≤ x.offset)) before
  rw [List.getLast?_reverse] at he
  rw [Option.mem_def.mp he] at hd
  simpa using hd

theorem dropLast_append_lastJump {block : Block} {jump destination : UInt32}
    (h : lastJump? block = some (jump, destination)) :
    block.dropLast ++ [⟨jump, .plain (.jump destination)⟩] = block := by
  unfold lastJump? at h
  split at h
  · next hl =>
    simp only [Option.some.injEq, Prod.mk.injEq] at h
    obtain ⟨rfl, rfl⟩ := h
    exact List.dropLast_append_getLast? _ hl
  · simp at h

/-- A part that ends in a jump, cut out in front of the target of a branch. -/
theorem lastJump?_below {target jump destination : UInt32} {after : Block}
    (h : lastJump? (below target after) = some (jump, destination)) :
    (below target after).dropLast ++ ⟨jump, .plain (.jump destination)⟩ :: onward target after =
      after ∧
    (∀ e ∈ (below target after).dropLast, e.offset < target) ∧ jump < target := by
  have hlast := dropLast_append_lastJump h
  have hlt := below_lt target after
  refine ⟨?_, ?_, ?_⟩
  · calc _ = (below target after).dropLast ++ [⟨jump, .plain (.jump destination)⟩] ++
          onward target after := by simp
      _ = after := by rw [hlast, below_append_onward]
  · exact fun e he => hlt e (List.dropLast_subset _ he)
  · rw [← hlast] at hlt
    exact hlt ⟨jump, .plain (.jump destination)⟩ (by simp)

/-- A body is what is left of it and its last step. -/
theorem splitNext_append (body : Block) :
    (splitNext body).1 ++ stepPart (splitNext body).2 = body := by
  unfold splitNext
  split
  · next hl => exact List.dropLast_append_getLast? _ hl
  · simp [stepPart]

theorem switchExtent_append (isDefault : Bool) (block : Block) :
    (switchExtent isDefault block).1 ++ (switchExtent isDefault block).2 = block := by
  fun_induction switchExtent isDefault block <;> simp_all

theorem switchExtent_sublist (isDefault : Bool) (block : Block) :
    (switchExtent isDefault block).1.Sublist block := by
  have hsub := List.sublist_append_left (switchExtent isDefault block).1
    (switchExtent isDefault block).2
  rwa [switchExtent_append] at hsub

/-! Each rule collapses the block it applies to. -/

section Apply
variable {inner : Block → Block} {before after before' after' : Block} {here : UInt32} {s : Stmt}

/-- Where a loop over an iterator is recognized: the statements up to its end, less
the step of the iterator, are the body, and the statement at its end goes. -/
theorem applyForEach_eq_some (h : applyForEach inner before here s after = some (before', after')) :
    ∃ expression last body next marker, s = .plain (.iterator expression last) ∧ here < last ∧
      after = body ++ stepPart next ++ ⟨last, marker⟩ :: after' ∧
      (∀ e ∈ body ++ stepPart next, e.offset < last) ∧
      before' = ⟨here, .forEach expression (inner body) next last⟩ :: before := by
  unfold applyForEach at h
  split at h
  · next expression last =>
    split at h
    · next ahead =>
      split at h
      · next k marker rest hrest =>
        split at h
        · next hk =>
          subst hk
          simp only [Option.some.injEq, Prod.mk.injEq] at h
          obtain ⟨rfl, rfl⟩ := h
          have hbody := splitNext_append (below k after)
          refine ⟨expression, k, (splitNext (below k after)).1, (splitNext (below k after)).2, marker,
            rfl, ahead, ?_, ?_, rfl⟩
          · rw [hbody, ← hrest, below_append_onward]
          · rw [hbody]
            exact below_lt k after
        · simp at h
      · simp at h
    · simp at h
  · simp at h

theorem applyForEach_collapse (h : applyForEach inner before here s after = some (before', after')) :
    Collapse inner .forEach (before.reverse ++ ⟨here, s⟩ :: after) (before'.reverse ++ after') := by
  obtain ⟨expression, last, body, next, marker, rfl, ahead, rfl, hlt, rfl⟩ := applyForEach_eq_some h
  simpa using Collapse.forEach ahead hlt

theorem applyDoUntil_collapse (h : applyDoUntil inner before here s after = some (before', after')) :
    Collapse inner .doUntil (before.reverse ++ ⟨here, s⟩ :: after) (before'.reverse ++ after') := by
  unfold applyDoUntil at h
  split at h
  · next target condition =>
    split at h
    · next back =>
      simp only [Option.some.injEq, Prod.mk.injEq] at h
      obtain ⟨rfl, rfl⟩ := h
      have hc := @Collapse.doUntil inner _ _ after here target condition back
        (last_reverse_dropWhile_lt target before) (le_reverse_takeWhile target before)
      rw [← List.append_assoc, reverse_cut] at hc
      simpa using hc
    · simp at h
  · simp at h

theorem applyIfElse_collapse (h : applyIfElse inner before here s after = some (before', after')) :
    Collapse inner .ifElse (before.reverse ++ ⟨here, s⟩ :: after) (before'.reverse ++ after') := by
  unfold applyIfElse at h
  split at h
  · next target condition =>
    split at h
    · next ahead =>
      split at h
      · next jump destination hjump =>
        split at h
        · next further =>
          simp only [Option.some.injEq, Prod.mk.injEq] at h
          obtain ⟨rfl, rfl⟩ := h
          obtain ⟨hcut, hbody, hlt⟩ := lastJump?_below hjump
          have hrest := below_append_onward destination (onward target after)
          have habove := le_head_onward target after
          rw [← hrest] at habove
          have hc := @Collapse.ifElse inner before.reverse _ _ _ here target jump destination condition
            ahead further hbody hlt habove (below_lt destination _) (le_head_onward destination _)
          rw [hrest, hcut] at hc
          simpa using hc
        · simp at h
      · simp at h
    · simp at h
  · simp at h

theorem applyWhile_collapse (h : applyWhile inner before here s after = some (before', after')) :
    Collapse inner .whileLoop (before.reverse ++ ⟨here, s⟩ :: after) (before'.reverse ++ after') := by
  unfold applyWhile at h
  split at h
  · next target condition =>
    split at h
    · next ahead =>
      split at h
      · next jump destination hjump =>
        split at h
        · next hback =>
          subst hback
          simp only [Option.some.injEq, Prod.mk.injEq] at h
          obtain ⟨rfl, rfl⟩ := h
          obtain ⟨hcut, hbody, hlt⟩ := lastJump?_below hjump
          have hc := @Collapse.whileLoop inner before.reverse _ _ destination target jump condition
            ahead hbody hlt (le_head_onward target after)
          rw [hcut] at hc
          simpa using hc
        · simp at h
      · simp at h
    · simp at h
  · simp at h

theorem applyFor_collapse (h : applyFor before here s after = some (before', after')) :
    Collapse inner .forLoop (before.reverse ++ ⟨here, s⟩ :: after) (before'.reverse ++ after') := by
  unfold applyFor at h
  split at h
  · next k start before condition body back =>
    split at h
    · next last step hlast =>
      split at h
      · next counts =>
        simp only [Option.some.injEq, Prod.mk.injEq] at h
        obtain ⟨rfl, rfl⟩ := h
        have hc := @Collapse.forLoop inner before.reverse body.dropLast after k here last back start
          step condition counts
        rw [List.dropLast_append_getLast? _ hlast] at hc
        simpa using hc
      · simp at h
    · simp at h
  · simp at h

theorem applyIf_collapse (h : applyIf inner before here s after = some (before', after')) :
    Collapse inner .plainIf (before.reverse ++ ⟨here, s⟩ :: after) (before'.reverse ++ after') := by
  unfold applyIf at h
  split at h
  · next target condition =>
    split at h
    · next ahead =>
      simp only [Option.some.injEq, Prod.mk.injEq] at h
      obtain ⟨rfl, rfl⟩ := h
      have hc := @Collapse.plainIf inner before.reverse _ _ here target condition ahead
        (below_lt target after) (le_head_onward target after)
      rw [below_append_onward] at hc
      simpa using hc
    · simp at h
  · simp at h

theorem applySwitch_collapse (h : applySwitch inner before here s after = some (before', after')) :
    Collapse inner .switch (before.reverse ++ ⟨here, s⟩ :: after) (before'.reverse ++ after') := by
  unfold applySwitch at h
  split at h
  · next subject =>
    split at h
    · next opens =>
      simp only [Option.some.injEq, Prod.mk.injEq] at h
      obtain ⟨rfl, rfl⟩ := h
      have hcut := switchExtent_append false after
      have hc := @Collapse.switch inner before.reverse _ _ here subject (hcut.symm ▸ opens)
        (by rw [hcut])
      rw [hcut] at hc
      simpa using hc
    · simp at h
  · simp at h

/-- Where a rule applies, the block collapses as the rule says. -/
theorem apply_collapse {rule : Rule}
    (h : rule.apply inner before here s after = some (before', after')) :
    Collapse inner rule (before.reverse ++ ⟨here, s⟩ :: after) (before'.reverse ++ after') := by
  cases rule with
  | forEach => exact applyForEach_collapse h
  | doUntil => exact applyDoUntil_collapse h
  | ifElse => exact applyIfElse_collapse h
  | whileLoop => exact applyWhile_collapse h
  | forLoop => exact applyFor_collapse h
  | plainIf => exact applyIf_collapse h
  | switch => exact applySwitch_collapse h

end Apply

/-! The cases of a switch. -/

/-- A body is made of statements of `own`, in their order, at their offsets, with
jumps turned into breaks. -/
def CutFrom (own body : Block) : Prop :=
  ∃ part : Block, part.Sublist own ∧ body = part.map fun e => ⟨e.offset, leaving e.item⟩

theorem CutFrom.cons {own body : Block} (e : Placed Stmt) (h : CutFrom own body) :
    CutFrom (e :: own) body := by
  obtain ⟨part, hpart, rfl⟩ := h
  exact ⟨part, hpart.cons e, rfl⟩

theorem CutFrom.mem {own body : Block} (h : CutFrom own body) {e : Placed Stmt} (he : e ∈ body) :
    ∃ s, ⟨e.offset, s⟩ ∈ own ∧ e.item = leaving s := by
  obtain ⟨part, hpart, rfl⟩ := h
  obtain ⟨x, hx, rfl⟩ := List.mem_map.mp he
  exact ⟨x.item, hpart.subset hx, rfl⟩

/-- What is no break stands in the body as it stood. -/
theorem CutFrom.mem_of_ne_leave {own body : Block} (h : CutFrom own body) {e : Placed Stmt}
    (he : e ∈ body) (hne : e.item ≠ .leave) : e ∈ own := by
  obtain ⟨s, hs, hitem⟩ := h.mem he
  unfold leaving at hitem
  split at hitem
  · exact absurd hitem hne
  · simpa only [← hitem] using hs

theorem cutFrom_splitArms_fst (own : Block) : CutFrom own (splitArms own).1 := by
  fun_induction splitArms own with
  | case1 => exact ⟨[], List.nil_sublist _, rfl⟩
  | case2 => exact ⟨[], List.nil_sublist _, rfl⟩
  | case3 here rest body arms hrest s hs ih =>
    rw [hrest] at ih
    obtain ⟨part, hpart, hbody⟩ := ih
    exact ⟨⟨here, s⟩ :: part, hpart.cons_cons _, by simpa using hbody⟩

/-- Each case has the label and the value of a case label of the switch. -/
theorem mem_splitArms_snd {own : Block} {arm : Placed (Arm Block)} (h : arm ∈ (splitArms own).2) :
    (∃ next value, ⟨arm.offset, .plain (.case next value)⟩ ∈ own ∧
      arm.item.label = labelOf next value) ∧ CutFrom own arm.item.body := by
  fun_induction splitArms own with
  | case1 => simp at h
  | case2 here rest body arms hrest next value ih =>
    rw [hrest] at ih
    rcases List.mem_cons.mp h with rfl | h
    · have hbody := cutFrom_splitArms_fst rest
      rw [hrest] at hbody
      exact ⟨⟨next, value, by simp, rfl⟩, hbody.cons _⟩
    · obtain ⟨⟨n, v, hmem, hlabel⟩, hbody⟩ := ih h
      exact ⟨⟨n, v, by simp [hmem], hlabel⟩, hbody.cons _⟩
  | case3 here rest body arms hrest s hs ih =>
    rw [hrest] at ih
    obtain ⟨⟨n, v, hmem, hlabel⟩, hbody⟩ := ih h
    exact ⟨⟨n, v, by simp [hmem], hlabel⟩, hbody.cons _⟩

/-- A switch that opens with a case label has nothing before its first case. -/
theorem splitArms_fst_of_opens {own post : Block} (opens : startsWithCase (own ++ post) = true)
    (extent : switchExtent false (own ++ post) = (own, post)) : (splitArms own).1 = [] := by
  cases own with
  | nil =>
    cases post with
    | nil => simp [startsWithCase] at opens
    | cons e rest =>
      obtain ⟨k, s⟩ := e
      unfold startsWithCase at opens
      split at opens
      · next heq =>
        simp only [List.nil_append, List.cons.injEq] at heq
        rw [heq.1] at extent
        simp [switchExtent] at extent
      · simp at opens
  | cons e rest =>
    unfold startsWithCase at opens
    split at opens
    · next heq =>
      simp only [List.cons_append, List.cons.injEq] at heq
      rw [heq.1]
      simp [splitArms]
    · simp at opens

/-! What stays of a block. -/

/-- The plain instructions that are left were there before. -/
theorem Collapse.plain_mem {inner : Block → Block} {rule : Rule} {b b' : Block}
    (h : Collapse inner rule b b') {k : UInt32} {token : Token}
    (hk : ⟨k, .plain token⟩ ∈ b') : ⟨k, .plain token⟩ ∈ b := by
  cases h <;> simp at hk ⊢ <;> grind

/-- No statement is put above the statements that were there: what holds of their offsets
and of all smaller ones holds of the offsets of the new statements. -/
theorem Collapse.keys_down {inner : Block → Block} {rule : Rule} {b b' : Block}
    (h : Collapse inner rule b b') {p : UInt32 → Prop} (down : ∀ {j k}, j < k → p k → p j)
    (hb : ∀ e ∈ b, p e.offset) : ∀ e ∈ b', p e.offset := by
  cases h with
  | doUntil back pre_below body_above =>
    -- The one statement with a new offset stands before the branch it ends in.
    simp only [List.forall_mem_append, List.forall_mem_cons] at hb ⊢
    exact ⟨hb.1, down back hb.2.2.1, hb.2.2.2⟩
  | _ => simp only [List.forall_mem_append, List.forall_mem_cons] at hb ⊢; grind

theorem Collapse.keys_lt {inner : Block → Block} {rule : Rule} {b b' : Block}
    (h : Collapse inner rule b b') {limit : UInt32} (hb : ∀ e ∈ b, e.offset < limit) :
    ∀ e ∈ b', e.offset < limit :=
  h.keys_down (p := (· < limit)) UInt32.lt_trans hb

theorem Collapse.keys_le {inner : Block → Block} {rule : Rule} {b b' : Block}
    (h : Collapse inner rule b b') {limit : UInt32} (hb : ∀ e ∈ b, e.offset ≤ limit) :
    ∀ e ∈ b', e.offset ≤ limit :=
  h.keys_down (p := (· ≤ limit)) (fun hlt hle => UInt32.le_trans (UInt32.le_of_lt hlt) hle) hb

@[simp] theorem scanAll_cons_fst (inner : Block → Block) (rule : Rule) (rules : List Rule) (b : Block) :
    (scanAll inner (rule :: rules) b).1 = (scanAll inner rules (rule.scan inner b).1).1 := rfl

/-! Runs. A relation between blocks that is reflexive, transitive and kept by every
application of a rule holds between a block and what regrouping makes of it. -/

section Runs
variable {R : Block → Block → Prop} (refl : ∀ b, R b b)
  (trans : ∀ {a b c}, R a b → R b c → R a c) {inner : Block → Block}

include refl trans

theorem scanFrom_rel {rule : Rule} (step : ∀ {b b'}, Collapse inner rule b b' → R b b')
    (fuel : Nat) (before after : Block) :
    R (before.reverse ++ after) (rule.scanFrom inner fuel before after).1 := by
  fun_induction scanFrom inner rule fuel before after with
  | case1 before after => exact refl _
  | case2 _ before => simpa using refl before.reverse
  | case3 fuel before here s after _ ih => simpa using ih
  | case4 fuel before here s after before' after' happly ih =>
    exact trans (step (apply_collapse happly)) ih

theorem scan_rel {rule : Rule} (step : ∀ {b b'}, Collapse inner rule b b' → R b b')
    (b : Block) : R b (rule.scan inner b).1 :=
  scanFrom_rel refl trans step b.length [] b

theorem scanAll_rel (rules : List Rule)
    (step : ∀ rule ∈ rules, ∀ {b b'}, Collapse inner rule b b' → R b b') (b : Block) :
    R b (scanAll inner rules b).1 := by
  induction rules generalizing b with
  | nil => exact refl b
  | cons rule rules ih =>
    have hfirst := scan_rel refl trans (step rule (by simp)) b
    have hrest := ih (fun r hr => step r (by simp [hr])) (rule.scan inner b).1
    rw [scanAll_cons_fst]
    exact trans hfirst hrest

/-- What regrouping keeps, from what one application keeps while bodies are
regrouped in the same way. -/
theorem regroupWithin_rel
    (step : ∀ inner : Block → Block, (∀ b, R b (inner b)) →
      ∀ rule {b b'}, Collapse inner rule b b' → R b b')
    (fuel : Nat) (b : Block) : R b (Block.regroupWithin fuel b) := by
  induction fuel generalizing b with
  | zero => exact refl b
  | succ fuel ih =>
    have hround := scanAll_rel refl trans order (fun rule _ => step _ ih rule) b
    unfold Block.regroupWithin
    split
    · next b' hb =>
      rw [hb] at hround
      exact trans hround (ih b')
    · next b' hb =>
      rw [hb] at hround
      exact hround

end Runs

end Rule

end ScriptLift
