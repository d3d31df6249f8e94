import ScriptLift.Proofs.Collapse

/- Passes of a rule, place by place.

   `Rule.pass` is the block that a pass gives; there is always enough fuel for it, so
   that a place is either passed over (`pass_skip`) or taken (`pass_take`). Then, for
   the shapes that jumps come in: which rules pass over them, and what the rule makes
   of the shape that it is for. Rules are told apart by their rank, the place in the
   order of application. -/
namespace ScriptLift

namespace Rule

/-- The place of a rule in the order of application. -/
def rank : Rule → Nat
  | .forEach => 0
  | .doUntil => 1
  | .ifElse => 2
  | .whileLoop => 3
  | .forLoop => 4
  | .plainIf => 5
  | .switch => 6

theorem rank_inj {a b : Rule} (h : a.rank = b.rank) : a = b := by
  cases a <;> cases b <;> first | rfl | contradiction

/-! Passes over a block. -/

/-- The block that a pass over `after` gives, when `before`, nearest first, is done
with. -/
def pass (inner : Block → Block) (rule : Rule) (before after : Block) : Block :=
  (rule.scanFrom inner after.length before after).1

section Pass
variable {inner : Block → Block} {rule : Rule} {before after before' after' : Block} {here : UInt32}
  {s : Stmt}

/-- What a rule leaves to pass over is a rest of what was to come. -/
theorem apply_suffix (h : rule.apply inner before here s after = some (before', after')) :
    after' <:+ after := by
  have honward : ∀ limit block, onward limit block <:+ block := fun _ _ => List.dropWhile_suffix _
  cases rule with
  | forEach =>
    obtain ⟨expression, last, body, next, marker, -, -, rfl, -⟩ := applyForEach_eq_some h
    exact ⟨body ++ stepPart next ++ [⟨last, marker⟩], by simp⟩
  | doUntil =>
    simp only [apply, applyDoUntil] at h
    grind [List.suffix_refl]
  | ifElse =>
    simp only [apply, applyIfElse] at h
    grind [List.IsSuffix.trans]
  | whileLoop =>
    simp only [apply, applyWhile] at h
    grind
  | forLoop =>
    simp only [apply, applyFor] at h
    grind [List.suffix_refl]
  | plainIf =>
    simp only [apply, applyIf] at h
    grind
  | switch =>
    have hext := switchExtent_append false after
    simp only [apply, applySwitch] at h
    grind [List.suffix_append]

/-- With enough fuel, more makes no difference. -/
theorem scanFrom_fuel {fuel more : Nat} (hfuel : after.length ≤ fuel) (hmore : after.length ≤ more) :
    rule.scanFrom inner fuel before after = rule.scanFrom inner more before after := by
  -- on one of the two fuels; the other is only ever split into a successor
  induction fuel generalizing more before after with
  | zero =>
    obtain rfl : after = [] := List.eq_nil_of_length_eq_zero (by omega)
    cases more <;> simp [scanFrom]
  | succ fuel ih =>
    cases after with
    | nil => cases more <;> simp [scanFrom]
    | cons e rest =>
      obtain ⟨more, rfl⟩ : ∃ n, more = n + 1 := Nat.exists_eq_add_one.mpr (by simp at hmore; omega)
      simp only [List.length_cons, Nat.add_le_add_iff_right] at hfuel hmore
      rw [scanFrom, scanFrom]
      split
      · exact ih hfuel hmore
      · next happly =>
        have hlen := (apply_suffix happly).length_le
        rw [ih (Nat.le_trans hlen hfuel) (Nat.le_trans hlen hmore)]

@[simp] theorem pass_nil : rule.pass inner before [] = before.reverse := by
  simp [pass, scanFrom]

theorem pass_skip (h : rule.apply inner before here s after = none) :
    rule.pass inner before (⟨here, s⟩ :: after) = rule.pass inner (⟨here, s⟩ :: before) after := by
  simp [pass, scanFrom, h]

theorem pass_take (h : rule.apply inner before here s after = some (before', after')) :
    rule.pass inner before (⟨here, s⟩ :: after) = rule.pass inner before' after' := by
  have hlen := (apply_suffix h).length_le
  rw [pass, List.length_cons, scanFrom, h]
  show (rule.scanFrom inner after.length before' after').1 = rule.pass inner before' after'
  rw [pass, scanFrom_fuel hlen (Nat.le_refl _)]

theorem scan_fst (block : Block) : (rule.scan inner block).1 = rule.pass inner [] block := rfl

end Pass

/-! Where a rule does not apply. -/

section Skip
variable {inner : Block → Block} {rule : Rule} {before after : Block} {here : UInt32} {s : Stmt}

theorem applyFor_of_not_while (hs : ∀ condition body back, s ≠ .whileLoop condition body back) :
    applyFor before here s after = none := by
  unfold applyFor
  split
  · exact absurd rfl (hs _ _ _)
  · rfl

theorem apply_of_not_control {token : Token} (h : token.isControl = false) :
    rule.apply inner before here (.plain token) after = none := by
  cases rule with
  | forEach => simp only [apply, applyForEach]; split <;> simp_all [Token.isControl]
  | doUntil => simp only [apply, applyDoUntil]; split <;> simp_all [Token.isControl]
  | ifElse => simp only [apply, applyIfElse]; split <;> simp_all [Token.isControl]
  | whileLoop => simp only [apply, applyWhile]; split <;> simp_all [Token.isControl]
  | forLoop => exact applyFor_of_not_while (by simp)
  | plainIf => simp only [apply, applyIf]; split <;> simp_all [Token.isControl]
  | switch => simp only [apply, applySwitch]; split <;> simp_all [Token.isControl]

theorem apply_jump (target : UInt32) :
    rule.apply inner before here (.plain (.jump target)) after = none := by
  cases rule with
  | forLoop => exact applyFor_of_not_while (by simp)
  | _ => rfl

/-- Only the rule for counted loops reads a statement that is not plain. -/
theorem apply_of_not_plain (hs : ∀ token, s ≠ .plain token) (hrule : rule.rank ≠ 4) :
    rule.apply inner before here s after = none := by
  cases rule <;> cases s <;> first | rfl | contradiction | exact absurd rfl (hs _)

/-- A branch further back is only read by the rule for loops that end in it. -/
theorem apply_branch_back {target : UInt32} {condition : Token} (hback : target < here)
    (hrule : rule.rank ≠ 1) :
    rule.apply inner before here (.plain (.jumpIfNot target condition)) after = none := by
  have hahead : ¬ here < target := by grind
  cases rule with
  | doUntil => exact absurd rfl hrule
  | ifElse => simp [apply, applyIfElse, hahead]
  | whileLoop => simp [apply, applyWhile, hahead]
  | plainIf => simp [apply, applyIf, hahead]
  | forLoop => exact applyFor_of_not_while (by simp)
  | forEach => rfl
  | switch => rfl

/-- A branch ahead opens no statement of two parts when the part it skips does not
end in a jump further ahead, and no loop when that part does not end in a jump to
the branch. -/
theorem apply_branch_ahead {target : UInt32} {condition : Token} (hahead : here < target)
    (hrule : rule.rank ≠ 5)
    (hifElse : rule.rank = 2 → ∀ jump destination,
      lastJump? (below target after) = some (jump, destination) → destination ≤ target)
    (hwhile : rule.rank = 3 → ∀ jump destination,
      lastJump? (below target after) = some (jump, destination) → destination ≠ here) :
    rule.apply inner before here (.plain (.jumpIfNot target condition)) after = none := by
  cases rule with
  | doUntil =>
    have hback : ¬ target < here := by grind
    simp [apply, applyDoUntil, hback]
  | ifElse =>
    simp only [apply, applyIfElse, if_pos hahead]
    split
    · next jump destination hlast =>
      have hle := hifElse rfl jump destination hlast
      rw [if_neg (UInt32.not_lt.mpr hle)]
    · rfl
  | whileLoop =>
    simp only [apply, applyWhile, if_pos hahead]
    split
    · next jump destination hlast => rw [if_neg (hwhile rfl jump destination hlast)]
    · rfl
  | plainIf => exact absurd rfl hrule
  | forLoop => exact applyFor_of_not_while (by simp)
  | forEach => rfl
  | switch => rfl

end Skip

/-! Where a rule applies. -/

theorem split_append {p : Placed Stmt → Bool} {a b : Block} (ha : ∀ e ∈ a, p e = true)
    (hb : ∀ e ∈ b, p e = false) : (a ++ b).takeWhile p = a ∧ (a ++ b).dropWhile p = b := by
  rw [List.takeWhile_append_of_pos ha, List.dropWhile_append_of_pos ha]
  cases b with
  | nil => simp
  | cons e rest => simp [hb e List.mem_cons_self]

theorem cut_append {limit : UInt32} {a b : Block} (ha : ∀ e ∈ a, e.offset < limit)
    (hb : ∀ e ∈ b, limit ≤ e.offset) : below limit (a ++ b) = a ∧ onward limit (a ++ b) = b :=
  split_append (by simpa using ha) (by simpa using hb)

section Take
variable {inner : Block → Block} {before body other rest : Block} {here : UInt32} {condition : Token}

theorem pass_forEach {iterator : Token} {next last : UInt32} (hbody : ∀ e ∈ body, e.offset < next)
    (hnext : here < next) (hlast : next < last) (hrest : ∀ e ∈ rest, last ≤ e.offset) :
    forEach.pass inner before (⟨here, .plain (.iterator iterator last)⟩ ::
        (body ++ ⟨next, .plain .iteratorNext⟩ :: ⟨last, .plain .iteratorPop⟩ :: rest)) =
      forEach.pass inner (⟨here, .forEach iterator (inner body) (some next) last⟩ :: before) rest := by
  obtain ⟨hbelow, honward⟩ := @cut_append last (body ++ [⟨next, .plain .iteratorNext⟩])
    (⟨last, .plain .iteratorPop⟩ :: rest) (by grind) (by grind)
  have hhere : here < last := by grind
  rw [List.append_assoc] at hbelow honward
  apply pass_take
  simp only [apply, applyForEach, if_pos hhere]
  simp only [List.singleton_append] at hbelow honward
  simp [hbelow, honward, splitNext]

theorem pass_doUntil {target : UInt32} (hbefore : ∀ e ∈ before, e.offset < target)
    (hbody : ∀ e ∈ body, target ≤ e.offset) (hback : target < here) :
    doUntil.pass inner (body.reverse ++ before) (⟨here, .plain (.jumpIfNot target condition)⟩ :: rest) =
      doUntil.pass inner (⟨target, .doUntil ⟨here, condition⟩ (inner body)⟩ :: before) rest := by
  have htake : (body.reverse ++ before).takeWhile (target ≤ ·.offset) = body.reverse ∧
      (body.reverse ++ before).dropWhile (target ≤ ·.offset) = before :=
    split_append (by simpa using hbody) (by simpa using hbefore)
  apply pass_take
  simp [apply, applyDoUntil, hback, htake]

theorem pass_ifElse {target jump destination : UInt32} (hahead : here < target)
    (hbody : ∀ e ∈ body, e.offset < jump) (hjump : jump < target)
    (hother : ∀ e ∈ other, target ≤ e.offset ∧ e.offset < destination)
    (hfurther : target < destination) (hrest : ∀ e ∈ rest, destination ≤ e.offset) :
    ifElse.pass inner before (⟨here, .plain (.jumpIfNot target condition)⟩ ::
        (body ++ ⟨jump, .plain (.jump destination)⟩ :: (other ++ rest))) =
      ifElse.pass inner
        (⟨here, .branch condition (inner body) (some ⟨jump, inner other⟩)⟩ :: before) rest := by
  obtain ⟨hbelow, honward⟩ := @cut_append target (body ++ [⟨jump, .plain (.jump destination)⟩])
    (other ++ rest) (by grind) (by grind)
  obtain ⟨hbelow', honward'⟩ := @cut_append destination other rest (by grind) hrest
  rw [List.append_assoc, List.singleton_append] at hbelow honward
  apply pass_take
  simp [apply, applyIfElse, hahead, hbelow, honward, hbelow', honward', lastJump?, hfurther]

theorem pass_whileLoop {target back : UInt32} (hahead : here < target)
    (hbody : ∀ e ∈ body, e.offset < back) (hback : back < target)
    (hrest : ∀ e ∈ rest, target ≤ e.offset) :
    whileLoop.pass inner before (⟨here, .plain (.jumpIfNot target condition)⟩ ::
        (body ++ ⟨back, .plain (.jump here)⟩ :: rest)) =
      whileLoop.pass inner (⟨here, .whileLoop condition (inner body) back⟩ :: before) rest := by
  obtain ⟨hbelow, honward⟩ := @cut_append target (body ++ [⟨back, .plain (.jump here)⟩]) rest
    (by grind) hrest
  rw [List.append_assoc, List.singleton_append] at hbelow honward
  apply pass_take
  simp [apply, applyWhile, hahead, hbelow, honward, lastJump?]

theorem pass_forLoop {k last back : UInt32} {start step : Token}
    (hcounts : sharesOneOperand start step = true) :
    forLoop.pass inner (⟨k, .plain start⟩ :: before)
        (⟨here, .whileLoop condition (body ++ [⟨last, .plain step⟩]) back⟩ :: rest) =
      forLoop.pass inner (⟨k, .forLoop (some ⟨k, start⟩) (some ⟨here, condition⟩) (some ⟨last, step⟩)
        body back⟩ :: before) rest := by
  apply pass_take
  simp [apply, applyFor, hcounts]

theorem pass_plainIf {target : UInt32} (hahead : here < target) (hbody : ∀ e ∈ body, e.offset < target)
    (hrest : ∀ e ∈ rest, target ≤ e.offset) :
    plainIf.pass inner before (⟨here, .plain (.jumpIfNot target condition)⟩ :: (body ++ rest)) =
      plainIf.pass inner (⟨here, .branch condition (inner body) none⟩ :: before) rest := by
  obtain ⟨hbelow, honward⟩ := cut_append hbody hrest
  apply pass_take
  simp [apply, applyIf, hahead, hbelow, honward]

/-- The branch at the head of a loop is not read before its rule. -/
theorem apply_loop {rule : Rule} {target back : UInt32} (hahead : here < target)
    (hbody : ∀ e ∈ body, e.offset < back) (hback : back < target)
    (hrest : ∀ e ∈ rest, target ≤ e.offset) (hrule : rule.rank < 3) :
    rule.apply inner before here (.plain (.jumpIfNot target condition))
      (body ++ ⟨back, .plain (.jump here)⟩ :: rest) = none := by
  obtain ⟨hbelow, -⟩ := @cut_append target (body ++ [⟨back, .plain (.jump here)⟩]) rest
    (by grind) hrest
  rw [List.append_assoc, List.singleton_append] at hbelow
  refine apply_branch_ahead hahead (by omega) ?_ (by omega)
  intro _ jump destination hlast
  obtain ⟨rfl, rfl⟩ : back = jump ∧ here = destination := by simpa [hbelow, lastJump?] using hlast
  exact UInt32.le_of_lt hahead

end Take

end Rule

end ScriptLift
