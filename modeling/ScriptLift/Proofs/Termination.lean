import ScriptLift.Proofs.FlatCode
import ScriptLift.Proofs.Pass

/- Regrouping ends.

   Every application of a rule uses up a plain instruction, counted at any depth
   (`Collapse.plainCount_lt`), and the bodies that it hands to be regrouped have fewer
   of them than the block it works on (`apply_congr`). So the count bounds the rounds
   and the depth alike: fuel above it makes no difference (`regroupWithin_fuel`), and
   `Block.regroup` is the loop without fuel (`regroup_eq`). A pass is bounded by the
   places still to come, of which an application leaves no more than there were.

   What one application keeps while bodies are regrouped for good, regrouping keeps
   (`regroup_rel`). -/
namespace ScriptLift

open Block

/-! Counts of plain instructions. -/

@[simp] theorem Block.plainCount_nil : plainCount [] = 0 := rfl

@[simp] theorem Block.plainCount_cons (e : Placed Stmt) (rest : Block) :
    plainCount (e :: rest) = e.item.plainCount + plainCount rest := rfl

theorem Block.plainCount_sublist {b c : Block} (h : c.Sublist b) : plainCount c ≤ plainCount b := by
  induction h with
  | slnil => exact Nat.le_refl _
  | cons e _ ih =>
    rw [plainCount_cons]
    omega
  | cons_cons e _ ih =>
    rw [plainCount_cons, plainCount_cons]
    omega

theorem Arms.plainCount_le_of_mem {arms : Arms} {arm : Placed (Arm Block)} (h : arm ∈ arms) :
    Block.plainCount arm.item.body ≤ Arms.plainCount arms := by
  induction arms with
  | nil => simp at h
  | cons a rest ih =>
    obtain ⟨here, label, body⟩ := a
    rw [Arms.plainCount]
    rcases List.mem_cons.mp h with rfl | h
    · exact Nat.le_add_right _ _
    · have hrest := ih h
      omega

namespace Rule

theorem plainCount_leaving_le (s : Stmt) : (leaving s).plainCount ≤ s.plainCount := by
  unfold leaving
  split <;> simp [Stmt.plainCount]

theorem plainCount_splitArms_le (own : Block) :
    plainCount (splitArms own).1 + Arms.plainCount (splitArms own).2 ≤ plainCount own := by
  fun_induction splitArms own with
  | case1 => simp [Arms.plainCount]
  | case2 here rest body arms hrest next value ih =>
    rw [hrest] at ih
    simp only [plainCount_nil, plainCount_cons, Stmt.plainCount, Arms.plainCount] at ih ⊢
    omega
  | case3 here rest body arms hrest s hs ih =>
    rw [hrest] at ih
    have hleave := plainCount_leaving_le s
    simp only [plainCount_cons] at ih ⊢
    omega

theorem plainCount_arm_le {own : Block} {arm : Placed (Arm Block)} (h : arm ∈ (splitArms own).2) :
    plainCount arm.item.body ≤ plainCount own := by
  have harm := Arms.plainCount_le_of_mem h
  have hsplit := plainCount_splitArms_le own
  omega

theorem plainCount_regroupArms_le {inner : Block → Block}
    (hinner : ∀ c, plainCount (inner c) ≤ plainCount c) (arms : Arms) :
    Arms.plainCount (regroupArms inner arms) ≤ Arms.plainCount arms := by
  induction arms with
  | nil => exact Nat.le_refl _
  | cons arm rest ih =>
    obtain ⟨here, label, body⟩ := arm
    have hbody := hinner body
    show plainCount (inner body) + Arms.plainCount (regroupArms inner rest) ≤
      plainCount body + Arms.plainCount rest
    omega

/-- An application of a rule uses up a plain instruction. -/
theorem Collapse.plainCount_lt {inner : Block → Block} {rule : Rule} {b b' : Block}
    (hinner : ∀ c, plainCount (inner c) ≤ plainCount c) (h : Collapse inner rule b b') :
    plainCount b' < plainCount b := by
  cases h with
  | @forEach pre body post =>
    have hbody := hinner body
    simp only [plainCount_append, plainCount_cons, Stmt.plainCount]
    omega
  | @doUntil pre body post =>
    have hbody := hinner body
    simp only [plainCount_append, plainCount_cons, Stmt.plainCount]
    omega
  | @ifElse pre body other post =>
    have hbody := hinner body
    have hother := hinner other
    simp only [plainCount_append, plainCount_cons, Stmt.plainCount]
    omega
  | @whileLoop pre body post =>
    have hbody := hinner body
    simp only [plainCount_append, plainCount_cons, Stmt.plainCount]
    omega
  | @forLoop pre body post =>
    simp only [plainCount_append, plainCount_cons, Stmt.plainCount]
    omega
  | @plainIf pre body post =>
    have hbody := hinner body
    simp only [plainCount_append, plainCount_cons, Stmt.plainCount]
    omega
  | @switch pre own post =>
    have harms := plainCount_regroupArms_le hinner (splitArms own).2
    have hown := plainCount_splitArms_le own
    simp only [plainCount_append, plainCount_cons, Stmt.plainCount]
    omega

theorem plainCount_regroupWithin_le (fuel : Nat) (b : Block) :
    plainCount (regroupWithin fuel b) ≤ plainCount b :=
  regroupWithin_rel (R := fun b b' => plainCount b' ≤ plainCount b) (fun _ => Nat.le_refl _)
    (fun hab hbc => Nat.le_trans hbc hab)
    (fun _ hinner _ _ _ h => Nat.le_of_lt (h.plainCount_lt hinner)) fuel b

/-! Bodies. A rule hands on only blocks with fewer plain instructions. -/

section Bodies
variable {inner inner' : Block → Block} {before after : Block} {here : UInt32} {s : Stmt}

theorem plainCount_lt_place {c : Block} {token : Token} (hc : c.Sublist (before.reverse ++ after)) :
    plainCount c < plainCount (before.reverse ++ ⟨here, .plain token⟩ :: after) := by
  have hle := plainCount_sublist hc
  simp only [plainCount_append, plainCount_cons, Stmt.plainCount] at hle ⊢
  omega

theorem below_sublist (limit : UInt32) (block : Block) : (below limit block).Sublist block :=
  List.takeWhile_sublist _

theorem onward_sublist (limit : UInt32) (block : Block) : (onward limit block).Sublist block :=
  List.dropWhile_sublist _

theorem splitNext_sublist (body : Block) : (splitNext body).1.Sublist body := by
  unfold splitNext
  split
  · exact List.dropLast_sublist _
  · exact List.Sublist.refl _

/-- The blocks that a rule hands on to be regrouped, where it applies. -/
def handedOn : Rule → Block → Stmt → Block → List Block
  | .forEach, _, .plain (.iterator _ last), after => [(splitNext (below last after)).1]
  | .doUntil, before, .plain (.jumpIfNot target _), _ =>
    [(before.takeWhile (target ≤ ·.offset)).reverse]
  | .ifElse, _, .plain (.jumpIfNot target _), after =>
    match lastJump? (below target after) with
    | some (_, destination) =>
      [(below target after).dropLast, below destination (onward target after)]
    | none => []
  | .whileLoop, _, .plain (.jumpIfNot target _), after => [(below target after).dropLast]
  | .plainIf, _, .plain (.jumpIfNot target _), after => [below target after]
  | .switch, _, .plain (.switch _), after =>
    (splitArms (switchExtent false after).1).2.map (·.item.body)
  | _, _, _, _ => []

/-- What a rule makes of a place depends only on how the blocks it hands on are
regrouped. -/
theorem apply_congr_handedOn {rule : Rule} (h : ∀ c ∈ rule.handedOn before s after, inner c = inner' c) :
    rule.apply inner before here s after = rule.apply inner' before here s after := by
  cases rule with
  | forEach =>
    simp only [apply, applyForEach]
    split
    · next expression last =>
      have hbody := h (splitNext (below last after)).1 (by simp [handedOn])
      simp only [hbody]
    · rfl
  | doUntil =>
    simp only [apply, applyDoUntil]
    split
    · rw [h _ (by simp [handedOn])]
    · rfl
  | ifElse =>
    simp only [apply, applyIfElse]
    split
    · next target condition =>
      split
      · split
        · next jump destination hjump =>
          have hbody := h (below target after).dropLast (by simp [handedOn, hjump])
          have hother := h (below destination (onward target after)) (by simp [handedOn, hjump])
          rw [hbody, hother]
        · rfl
      · rfl
    · rfl
  | whileLoop =>
    simp only [apply, applyWhile]
    split
    · next target condition =>
      have hbody := h (below target after).dropLast (by simp [handedOn])
      simp only [hbody]
    · rfl
  | forLoop => rfl
  | plainIf =>
    simp only [apply, applyIf]
    split
    · next target condition =>
      have hbody := h (below target after) (by simp [handedOn])
      simp only [hbody]
    · rfl
  | switch =>
    simp only [apply, applySwitch]
    split
    · next subject =>
      have harms : regroupArms inner (splitArms (switchExtent false after).1).2 =
          regroupArms inner' (splitArms (switchExtent false after).1).2 := by
        refine List.map_congr_left fun arm harm => ?_
        have hbody := h arm.item.body (List.mem_map_of_mem harm)
        obtain ⟨k, label, body⟩ := arm
        simp only at hbody ⊢
        rw [hbody]
      simp only [harms]
    · rfl

/-- What is handed on was cut out of the block beside the place, or is the body of a
case among the statements behind it. -/
theorem mem_handedOn {rule : Rule} {c : Block} (h : c ∈ rule.handedOn before s after) :
    (∃ token, s = .plain token) ∧ (c.Sublist (before.reverse ++ after) ∨
      ∃ arm ∈ (splitArms (switchExtent false after).1).2, c = arm.item.body) := by
  have hright : ∀ {x : Block}, x.Sublist after → x.Sublist (before.reverse ++ after) :=
    fun hx => hx.trans (List.sublist_append_right _ _)
  unfold handedOn at h
  split at h
  · next last =>
    obtain rfl := List.mem_singleton.mp h
    exact ⟨⟨_, rfl⟩, .inl (hright ((splitNext_sublist _).trans (below_sublist last after)))⟩
  · obtain rfl := List.mem_singleton.mp h
    exact ⟨⟨_, rfl⟩, .inl ((List.takeWhile_sublist _).reverse.trans (List.sublist_append_left _ _))⟩
  · next target _ =>
    refine ⟨⟨_, rfl⟩, .inl (hright ?_)⟩
    split at h
    · simp only [List.mem_cons, List.not_mem_nil, or_false] at h
      rcases h with rfl | rfl
      · exact (List.dropLast_sublist _).trans (below_sublist target after)
      · exact (below_sublist _ _).trans (onward_sublist target after)
    · simp at h
  · next target _ =>
    obtain rfl := List.mem_singleton.mp h
    exact ⟨⟨_, rfl⟩, .inl (hright ((List.dropLast_sublist _).trans (below_sublist target after)))⟩
  · next target _ =>
    obtain rfl := List.mem_singleton.mp h
    exact ⟨⟨_, rfl⟩, .inl (hright (below_sublist target after))⟩
  · obtain ⟨arm, harm, rfl⟩ := List.mem_map.mp h
    exact ⟨⟨_, rfl⟩, .inr ⟨arm, harm, rfl⟩⟩
  · simp at h

theorem plainCount_handedOn_lt {rule : Rule} {c : Block} (h : c ∈ rule.handedOn before s after) :
    plainCount c < plainCount (before.reverse ++ ⟨here, s⟩ :: after) := by
  obtain ⟨⟨token, rfl⟩, hsub | ⟨arm, harm, rfl⟩⟩ := mem_handedOn h
  · exact plainCount_lt_place hsub
  · exact Nat.lt_of_le_of_lt (plainCount_arm_le harm)
      (plainCount_lt_place ((switchExtent_sublist false after).trans (List.sublist_append_right _ _)))

/-- What a rule makes of a place depends only on how smaller blocks are regrouped. -/
theorem apply_congr {rule : Rule}
    (h : ∀ c, plainCount c < plainCount (before.reverse ++ ⟨here, s⟩ :: after) → inner c = inner' c) :
    rule.apply inner before here s after = rule.apply inner' before here s after :=
  apply_congr_handedOn fun c hc => h c (plainCount_handedOn_lt hc)

end Bodies

/-! Passes and rounds. -/

section Rounds
variable {inner inner' : Block → Block} {rule : Rule}

/-- A pass that did not apply the rule anywhere leaves the block as it was. -/
theorem scanFrom_eq_of_unchanged {fuel : Nat} {before after : Block}
    (h : (rule.scanFrom inner fuel before after).2 = false) :
    (rule.scanFrom inner fuel before after).1 = before.reverse ++ after := by
  fun_induction scanFrom inner rule fuel before after with
  | case1 => rfl
  | case2 => simp
  | case3 fuel before here s after happly ih => simpa using ih h
  | case4 => simp at h

theorem plainCount_scanFrom_le (hinner : ∀ c, plainCount (inner c) ≤ plainCount c) (fuel : Nat)
    (before after : Block) : plainCount (rule.scanFrom inner fuel before after).1 ≤
      plainCount (before.reverse ++ after) :=
  scanFrom_rel (R := fun b b' => plainCount b' ≤ plainCount b) (fun _ => Nat.le_refl _)
    (fun hab hbc => Nat.le_trans hbc hab) (fun h => Nat.le_of_lt (h.plainCount_lt hinner)) fuel
    before after

theorem plainCount_scanFrom_lt (hinner : ∀ c, plainCount (inner c) ≤ plainCount c) {fuel : Nat}
    {before after : Block} (h : (rule.scanFrom inner fuel before after).2 = true) :
    plainCount (rule.scanFrom inner fuel before after).1 < plainCount (before.reverse ++ after) := by
  fun_induction scanFrom inner rule fuel before after with
  | case1 => simp at h
  | case2 => simp at h
  | case3 fuel before here s after happly ih => simpa using ih h
  | case4 fuel before here s after before' after' happly ih =>
    have hlt := (apply_collapse happly).plainCount_lt hinner
    have hle : plainCount (rule.scanFrom inner fuel before' after').1 ≤
        plainCount (before'.reverse ++ after') := plainCount_scanFrom_le hinner fuel before' after'
    exact Nat.lt_of_le_of_lt hle hlt

/-- Passes agree when smaller blocks are regrouped alike. -/
theorem scanFrom_congr (hinner : ∀ c, plainCount (inner c) ≤ plainCount c) {bound : Nat}
    (h : ∀ c, plainCount c < bound → inner c = inner' c) (fuel : Nat) {before after : Block}
    (hbound : plainCount (before.reverse ++ after) ≤ bound) :
    rule.scanFrom inner fuel before after = rule.scanFrom inner' fuel before after := by
  fun_induction scanFrom inner rule fuel before after with
  | case1 => rfl
  | case2 => rfl
  | case3 fuel before here s after happly ih =>
    rw [apply_congr fun c hc => h c (Nat.lt_of_lt_of_le hc hbound)] at happly
    rw [scanFrom, happly]
    exact ih (by simpa using hbound)
  | case4 fuel before here s after before' after' happly ih =>
    have hlt := (apply_collapse happly).plainCount_lt hinner
    rw [apply_congr fun c hc => h c (Nat.lt_of_lt_of_le hc hbound)] at happly
    rw [scanFrom, happly]
    simp only [ih (Nat.le_of_lt (Nat.lt_of_lt_of_le hlt hbound))]

@[simp] theorem scanAll_cons_snd (rules : List Rule) (b : Block) :
    (scanAll inner (rule :: rules) b).2 =
      ((rule.scan inner b).2 || (scanAll inner rules (rule.scan inner b).1).2) := rfl

theorem scanAll_eq_of_unchanged {rules : List Rule} {b : Block}
    (h : (scanAll inner rules b).2 = false) : (scanAll inner rules b).1 = b := by
  induction rules generalizing b with
  | nil => rfl
  | cons rule rules ih =>
    rw [scanAll_cons_snd, Bool.or_eq_false_iff] at h
    have hfirst : (rule.scan inner b).1 = b := scanFrom_eq_of_unchanged h.1
    rw [scanAll_cons_fst, ih h.2, hfirst]

theorem plainCount_scanAll_le (hinner : ∀ c, plainCount (inner c) ≤ plainCount c) (rules : List Rule)
    (b : Block) : plainCount (scanAll inner rules b).1 ≤ plainCount b :=
  scanAll_rel (R := fun b b' => plainCount b' ≤ plainCount b) (fun _ => Nat.le_refl _)
    (fun hab hbc => Nat.le_trans hbc hab) rules
    (fun _ _ _ _ h => Nat.le_of_lt (h.plainCount_lt hinner)) b

/-- A round that applied a rule anywhere leaves fewer plain instructions. -/
theorem plainCount_scanAll_lt (hinner : ∀ c, plainCount (inner c) ≤ plainCount c) {rules : List Rule}
    {b : Block} (h : (scanAll inner rules b).2 = true) :
    plainCount (scanAll inner rules b).1 < plainCount b := by
  induction rules generalizing b with
  | nil => simp [scanAll] at h
  | cons rule rules ih =>
    rw [scanAll_cons_snd, Bool.or_eq_true] at h
    rw [scanAll_cons_fst]
    rcases h with h | h
    · have hfirst : plainCount (rule.scan inner b).1 < plainCount b := plainCount_scanFrom_lt hinner h
      exact Nat.lt_of_le_of_lt (plainCount_scanAll_le hinner rules _) hfirst
    · have hfirst : plainCount (rule.scan inner b).1 ≤ plainCount b :=
        plainCount_scanFrom_le hinner b.length [] b
      exact Nat.lt_of_lt_of_le (ih h) hfirst

theorem plainCount_lt_of_round (hinner : ∀ c, plainCount (inner c) ≤ plainCount c) {rules : List Rule}
    {b b' : Block} (h : scanAll inner rules b = (b', true)) : plainCount b' < plainCount b := by
  have hlt := @plainCount_scanAll_lt inner hinner rules b (by rw [h])
  rwa [h] at hlt

theorem scanAll_congr (hinner : ∀ c, plainCount (inner c) ≤ plainCount c) {bound : Nat}
    (h : ∀ c, plainCount c < bound → inner c = inner' c) (rules : List Rule) {b : Block}
    (hbound : plainCount b ≤ bound) : scanAll inner rules b = scanAll inner' rules b := by
  induction rules generalizing b with
  | nil => rfl
  | cons rule rules ih =>
    have hfirst : rule.scan inner b = rule.scan inner' b := scanFrom_congr hinner h b.length hbound
    have hle : plainCount (rule.scan inner b).1 ≤ plainCount b :=
      plainCount_scanFrom_le hinner b.length [] b
    have hrest := ih (Nat.le_trans hle hbound)
    simp only [scanAll, ← hfirst, hrest]

end Rounds

/-! Fuel. -/

/-- Fuel above the number of plain instructions makes no difference. -/
theorem regroupWithin_fuel {fuel more : Nat} {b : Block} (hfuel : plainCount b < fuel)
    (hmore : plainCount b < more) : regroupWithin fuel b = regroupWithin more b := by
  induction fuel generalizing more b with
  | zero => omega
  | succ fuel ih =>
    obtain ⟨more, rfl⟩ : ∃ n, more = n + 1 := Nat.exists_eq_add_one.mpr (by omega)
    have hround : scanAll (regroupWithin fuel) order b = scanAll (regroupWithin more) order b :=
      scanAll_congr (plainCount_regroupWithin_le fuel) (fun c hc => ih (by omega) (by omega)) order
        (Nat.le_refl _)
    rw [regroupWithin, regroupWithin, ← hround]
    split
    · next b' hb =>
      have hlt := plainCount_lt_of_round (plainCount_regroupWithin_le fuel) hb
      exact ih (by omega) (by omega)
    · rfl

theorem regroupWithin_eq_regroup {fuel : Nat} {b : Block} (hfuel : plainCount b < fuel) :
    regroupWithin fuel b = regroup b :=
  regroupWithin_fuel hfuel (Nat.lt_succ_self _)

theorem plainCount_regroup_le (b : Block) : plainCount (regroup b) ≤ plainCount b :=
  plainCount_regroupWithin_le _ b

/-- Regrouping is the loop of its rounds, in which bodies are regrouped the same way. -/
theorem regroup_eq (b : Block) : regroup b =
    if (scanAll regroup order b).2 = true then regroup (scanAll regroup order b).1 else b := by
  have hround : scanAll (regroupWithin (plainCount b)) order b = scanAll regroup order b :=
    scanAll_congr (plainCount_regroupWithin_le _) (fun c hc => regroupWithin_eq_regroup hc) order
      (Nat.le_refl _)
  have hsame := @scanAll_eq_of_unchanged regroup order b
  have hunfold : regroup b = regroupWithin (plainCount b + 1) b := rfl
  rw [hunfold, regroupWithin, hround]
  split
  · next b' hb =>
    rw [hb, if_pos rfl]
    exact regroupWithin_eq_regroup (plainCount_lt_of_round plainCount_regroup_le hb)
  · next b' hb =>
    rw [hb] at hsame ⊢
    rw [if_neg Bool.false_ne_true]
    exact hsame rfl

/-- A regrouped block stays as it is. -/
theorem regroup_idem (b : Block) : regroup (regroup b) = regroup b := by
  induction hcount : plainCount b using Nat.strongRecOn generalizing b with
  | ind count ih =>
    subst hcount
    rw [regroup_eq b]
    split
    · next hchanged => exact ih _ (plainCount_scanAll_lt plainCount_regroup_le hchanged) _ rfl
    · next hchanged => rw [regroup_eq b, if_neg hchanged]

section Runs
variable {R : Block → Block → Prop} (refl : ∀ b, R b b)
  (trans : ∀ {a b c}, R a b → R b c → R a c) (nil : ∀ b, R b [])

include refl trans nil

/-- What regrouping keeps, from what a round keeps while bodies are regrouped in the
same way and for good. -/
theorem regroup_rounds
    (round : ∀ inner : Block → Block, (∀ b, R b (inner b)) → (∀ b, regroup (inner b) = inner b) →
      ∀ b, R b (scanAll inner order b).1) (b : Block) : R b (regroup b) := by
  induction hcount : plainCount b using Nat.strongRecOn generalizing b with
  | ind count ih =>
    subst hcount
    -- Only smaller blocks are handed on, so that the empty block may stand for the others.
    let inner : Block → Block := fun c => if plainCount c < plainCount b then regroup c else []
    have hsmall : ∀ c, plainCount c < plainCount b → regroup c = inner c :=
      fun c hc => (if_pos hc).symm
    have hkeeps : ∀ c, R c (inner c) := by
      intro c
      by_cases hc : plainCount c < plainCount b
      · rw [← hsmall c hc]
        exact ih _ hc c rfl
      · simp only [inner, if_neg hc]
        exact nil c
    have hstays : ∀ c, regroup (inner c) = inner c := by
      intro c
      by_cases hc : plainCount c < plainCount b
      · rw [← hsmall c hc, regroup_idem]
      · simp only [inner, if_neg hc]
        rfl
    have hround : R b (scanAll regroup order b).1 := by
      rw [scanAll_congr plainCount_regroup_le hsmall order (Nat.le_refl _)]
      exact round inner hkeeps hstays b
    rw [regroup_eq b]
    split
    · next hchanged =>
      exact trans hround (ih _ (plainCount_scanAll_lt plainCount_regroup_le hchanged) _ rfl)
    · exact refl b

/-- The same from what one application keeps. -/
theorem regroup_rel
    (step : ∀ inner : Block → Block, (∀ b, R b (inner b)) → (∀ b, regroup (inner b) = inner b) →
      ∀ rule {b b'}, Collapse inner rule b b' → R b b') (b : Block) : R b (regroup b) :=
  regroup_rounds refl trans nil (fun inner hkeeps hstays =>
    scanAll_rel refl trans order fun rule _ => step inner hkeeps hstays rule) b

end Runs

/-! Offsets behind the place of an application. -/

theorem Collapse.keys_subset {inner : Block → Block} {rule : Rule} {b b' : Block}
    (h : Collapse inner rule b b') (hrule : rule ≠ .doUntil) : keys b' ⊆ keys b := by
  cases h with
  | doUntil => exact absurd rfl hrule
  | _ => intro k hk; simp only [keys_append, keys_cons, List.mem_append, List.mem_cons] at hk ⊢; grind

/-- An application puts no statement behind its place that did not stand there. -/
theorem apply_keys {inner : Block → Block} {rule : Rule} {before after before' after' : Block}
    {here : UInt32} {s : Stmt}
    (h : rule.apply inner before here s after = some (before', after')) :
    ∀ k ∈ keys (before'.reverse ++ after'), here < k →
      k ∈ keys (before.reverse ++ ⟨here, s⟩ :: after) := by
  intro k hk hlt
  by_cases hrule : rule = .doUntil
  · subst hrule
    simp only [apply, applyDoUntil] at h
    split at h
    · split at h
      · next target condition back =>
        simp only [Option.some.injEq, Prod.mk.injEq] at h
        obtain ⟨rfl, rfl⟩ := h
        -- The one new offset is the target of the branch, in front of the place.
        have hne : k ≠ target := by
          rintro rfl
          exact UInt32.lt_irrefl _ (UInt32.lt_trans hlt back)
        have hsub := (List.dropWhile_sublist (fun x : Placed Stmt => decide (target ≤ x.offset))
          (l := before)).subset
        simp only [mem_keys, List.mem_append, List.mem_reverse, List.mem_cons] at hk ⊢
        grind
      · simp at h
    · simp at h
  · exact (apply_collapse h).keys_subset hrule hk

end Rule

namespace Block

open Rule

/-- Regrouping ends, on every block. An application of a rule that fails leaves the
block alone; one that succeeds uses up a plain instruction, leaves a rest of the places
that were to come, and puts nothing new behind its own place, so that a pass needs no
more fuel than there are places. A round depends only on how smaller blocks are
regrouped; regrouping is the loop of its rounds, each on fewer plain instructions than
the one before, and fuel above their number makes no difference. -/
theorem regroup_terminates (block : Block) :
    (∀ (rule : Rule) (before : Block) (here : UInt32) (s : Stmt) (after : Block),
      before.reverse ++ ⟨here, s⟩ :: after = block →
      (rule.apply regroup before here s after = none →
        rule.scanFrom regroup 1 before (⟨here, s⟩ :: after) = (block, false)) ∧
      ∀ before' after', rule.apply regroup before here s after = some (before', after') →
        rule.scanFrom regroup 1 before (⟨here, s⟩ :: after) = (before'.reverse ++ after', true) ∧
        plainCount (before'.reverse ++ after') < plainCount block ∧
        after' <:+ after ∧
        ∀ k ∈ keys (before'.reverse ++ after'), here < k → k ∈ keys block) ∧
    (∀ (rule : Rule) (fuel : Nat), block.length ≤ fuel →
      rule.scanFrom regroup fuel [] block = rule.scan regroup block) ∧
    (∀ inner : Block → Block, (∀ c, plainCount c < plainCount block → inner c = regroup c) →
      scanAll inner order block = scanAll regroup order block) ∧
    regroup block = (if (scanAll regroup order block).2 = true
      then regroup (scanAll regroup order block).1 else block) ∧
    ((scanAll regroup order block).2 = true →
      plainCount (scanAll regroup order block).1 < plainCount block) ∧
    ∀ fuel, plainCount block < fuel → regroupWithin fuel block = regroup block := by
  refine ⟨?_, ?_, ?_, regroup_eq block, plainCount_scanAll_lt plainCount_regroup_le,
    fun fuel hfuel => regroupWithin_eq_regroup hfuel⟩
  · rintro rule before here s after rfl
    refine ⟨fun hnone => by simp [scanFrom, hnone], fun before' after' hsome => ⟨?_, ?_, ?_, ?_⟩⟩
    · simp [scanFrom, hsome]
    · exact (apply_collapse hsome).plainCount_lt plainCount_regroup_le
    · exact apply_suffix hsome
    · exact apply_keys hsome
  · intro rule fuel hfuel
    exact scanFrom_fuel hfuel (Nat.le_refl _)
  · intro inner hinner
    exact (scanAll_congr plainCount_regroup_le (fun c hc => (hinner c hc).symm) order
      (Nat.le_refl _)).symm

/-- A branch over nothing. -/
def emptyBranch : Block := [⟨0, .plain (.jumpIfNot 4 .noObject)⟩]

/-- One statement takes the place of one, but the plain instruction is used up. -/
theorem regroup_terminates_emptyBranch :
    plainCount [⟨0, .branch .noObject [] none⟩] < plainCount emptyBranch ∧
    regroupWithin 2 emptyBranch = regroup emptyBranch := by
  obtain ⟨happly, -, -, -, -, hfuel⟩ := regroup_terminates emptyBranch
  have htaken := (happly .plainIf [] 0 (.plain (.jumpIfNot 4 .noObject)) [] rfl).2
    [⟨0, .branch .noObject [] none⟩] [] rfl
  exact ⟨htaken.2.1, hfuel 2 (by decide)⟩

end Block

end ScriptLift
