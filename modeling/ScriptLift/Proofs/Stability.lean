import ScriptLift.Proofs.BranchExit
import ScriptLift.Proofs.Termination

/- Every block of a regrouped tree is regrouped for good.

   A block stays as it is exactly when no rule applies at any of its places
   (`regroup_eq_self_iff`). The bodies of the statements of a tree were regrouped when
   they were cut out, and afterwards only one thing happens to a body: it loses its last
   statement to a counted loop. What was behind a place never kept all rules from
   applying there (`apply_append`), so the shorter body stays as it is, too. -/
namespace ScriptLift

namespace Rule

open Block

/-! Idle blocks. -/

/-- No rule applies at any place of the block. -/
def Idle (block : Block) : Prop :=
  ∀ (rule : Rule) (before : Block) (here : UInt32) (s : Stmt) (after : Block),
    before.reverse ++ ⟨here, s⟩ :: after = block → rule.apply regroup before here s after = none

theorem scanFrom_unchanged_iff {inner : Block → Block} {rule : Rule} {fuel : Nat} {before after : Block}
    (hfuel : after.length ≤ fuel) : (rule.scanFrom inner fuel before after).2 = false ↔
      ∀ front here s rest, front ++ ⟨here, s⟩ :: rest = after →
        rule.apply inner (front.reverse ++ before) here s rest = none := by
  fun_induction scanFrom inner rule fuel before after with
  | case1 before after =>
    obtain rfl : after = [] := by simpa using hfuel
    simp
  | case2 => simp
  | case3 fuel before here s after happly ih =>
    rw [ih (by simpa using hfuel)]
    constructor
    · intro h front k t rest hsplit
      cases front with
      | nil =>
        simp only [List.nil_append, List.cons.injEq, Placed.mk.injEq] at hsplit
        obtain ⟨⟨rfl, rfl⟩, rfl⟩ := hsplit
        exact happly
      | cons e front =>
        simp only [List.cons_append, List.cons.injEq] at hsplit
        obtain ⟨rfl, rfl⟩ := hsplit
        simpa using h front k t rest rfl
    · rintro h front k t rest rfl
      simpa using h (⟨here, s⟩ :: front) k t rest rfl
  | case4 fuel before here s after before' after' happly ih =>
    have htaken : ∃ front k t rest, front ++ ⟨k, t⟩ :: rest = ⟨here, s⟩ :: after ∧
        rule.apply inner (front.reverse ++ before) k t rest ≠ none :=
      ⟨[], here, s, after, rfl, by simp [happly]⟩
    grind

theorem scanAll_unchanged_iff {inner : Block → Block} {rules : List Rule} {b : Block} :
    (scanAll inner rules b).2 = false ↔ ∀ rule ∈ rules, (rule.scan inner b).2 = false := by
  induction rules with
  | nil => simp [scanAll]
  | cons rule rules ih =>
    rw [scanAll_cons_snd, Bool.or_eq_false_iff, List.forall_mem_cons]
    refine and_congr_right fun hfirst => ?_
    have hsame : (rule.scan inner b).1 = b := scanFrom_eq_of_unchanged hfirst
    rw [hsame, ih]

theorem mem_order (rule : Rule) : rule ∈ order := by cases rule <;> simp [order]

theorem idle_iff {b : Block} : Idle b ↔ (scanAll regroup order b).2 = false := by
  rw [scanAll_unchanged_iff]
  constructor
  · intro h rule _
    refine (scanFrom_unchanged_iff (Nat.le_refl _)).mpr fun front here s rest hsplit => ?_
    exact h rule _ here s rest (by simpa using hsplit)
  · intro h rule before here s after hsplit
    have hscan := (scanFrom_unchanged_iff (Nat.le_refl _)).mp (h rule (mem_order rule))
    simpa using hscan before.reverse here s after hsplit

/-- A block stays as it is exactly when no rule applies anywhere in it. -/
theorem regroup_eq_self_iff {b : Block} : regroup b = b ↔ Idle b := by
  rw [idle_iff, regroup_eq]
  constructor
  · intro h
    refine Bool.eq_false_iff.mpr fun hchanged => ?_
    rw [if_pos hchanged] at h
    have hle := plainCount_regroup_le (scanAll regroup order b).1
    have hlt := plainCount_scanAll_lt plainCount_regroup_le hchanged
    rw [h] at hle
    omega
  · intro h
    rw [h, if_neg Bool.false_ne_true]

/-! Shorter blocks. -/

/-- Where a rule applies, some rule applies whatever is added behind. -/
theorem apply_append {rule : Rule} {before after : Block} {here : UInt32} {s : Stmt}
    (h : rule.apply regroup before here s after ≠ none) (rest : Block) :
    ∃ rule' : Rule, rule'.apply regroup before here s (after ++ rest) ≠ none := by
  -- The rules for branches ahead are left to the last of them, which asks for nothing more.
  have hbranch : ∀ target condition, here < target → s = .plain (.jumpIfNot target condition) →
      ∃ rule' : Rule, rule'.apply regroup before here s (after ++ rest) ≠ none := by
    rintro target condition ahead rfl
    exact ⟨.plainIf, by simp [apply, applyIf, ahead]⟩
  cases rule with
  | forEach =>
    obtain ⟨⟨before', after'⟩, htaken⟩ := Option.ne_none_iff_exists'.mp h
    simp only [apply, applyForEach] at htaken
    split at htaken
    · next expression last =>
      split at htaken
      · next ahead =>
        split at htaken
        · next k marker more hmore =>
          split at htaken
          · next hk =>
            have honward : onward last (after ++ rest) = ⟨k, marker⟩ :: (more ++ rest) := by
              unfold onward at hmore ⊢
              rw [List.dropWhile_append, hmore]
              rfl
            exact ⟨.forEach, by simp [apply, applyForEach, ahead, honward, hk]⟩
          · simp at htaken
        · simp at htaken
      · simp at htaken
    · simp at htaken
  | doUntil =>
    refine ⟨.doUntil, ?_⟩
    simp only [apply, applyDoUntil] at h ⊢
    grind
  | ifElse =>
    simp only [apply, applyIfElse] at h
    grind
  | whileLoop =>
    simp only [apply, applyWhile] at h
    grind
  | forLoop =>
    refine ⟨.forLoop, ?_⟩
    simp only [apply, applyFor] at h ⊢
    grind
  | plainIf =>
    simp only [apply, applyIf] at h
    grind
  | switch =>
    refine ⟨.switch, ?_⟩
    have hopens : startsWithCase after = true → startsWithCase (after ++ rest) = true := by
      intro hstart
      unfold startsWithCase at hstart
      split at hstart
      · rfl
      · simp at hstart
    simp only [apply, applySwitch] at h ⊢
    grind

theorem Idle.of_append {b rest : Block} (h : Idle (b ++ rest)) : Idle b := by
  rintro rule before here s after rfl
  by_contra htaken
  obtain ⟨rule', htaken'⟩ := apply_append htaken rest
  exact htaken' (h rule' before here s (after ++ rest) (by simp))

/-! Bodies. -/

/-- The statements of a block come from another one, or are breaks. -/
def TakenFrom (b c : Block) : Prop := ∀ e ∈ c, e ∈ b ∨ e.item = .leave

theorem takenFrom_of_subset {b c : Block} (h : c ⊆ b) : TakenFrom b c := fun _ he => .inl (h he)

theorem CutFrom.takenFrom {b own body : Block} (h : CutFrom own body) (hown : own ⊆ b) :
    TakenFrom b body := by
  intro e he
  refine or_iff_not_imp_right.mpr fun hne => ?_
  exact hown (h.mem_of_ne_leave he hne)

theorem TakenFrom.everyIn {P : Block → Prop} {b c : Block} (h : TakenFrom b c) (hb : EveryIn P b) :
    EveryIn P c := by
  rw [everyIn_iff] at hb ⊢
  intro e he
  rcases h e he with hmem | hleave
  · exact hb e hmem
  · simp [hleave]

/-- What holds of the blocks inside a block holds after an application, when it holds
of every body that is regrouped, and of a body without its last statement. -/
theorem Collapse.everyIn {P : Block → Prop} {inner : Block → Block} {rule : Rule} {b b' : Block}
    (hinner : ∀ c, TakenFrom b c → EveryIn P c → Every P (inner c))
    (hfront : ∀ c e, P (c ++ [e]) → P c) (h : Collapse inner rule b b') (hb : EveryIn P b) :
    EveryIn P b' := by
  have htaken : ∀ c, TakenFrom b c → Every P (inner c) := fun c hc => hinner c hc (hc.everyIn hb)
  have hpart : ∀ c ⊆ b, Every P (inner c) := fun c hc => htaken c (takenFrom_of_subset hc)
  cases h with
  | @forEach pre body post =>
    have hbody := hpart body fun e he => by simp [he]
    simp only [everyIn_iff, List.forall_mem_append, List.forall_mem_cons] at hb ⊢
    exact ⟨hb.1, (Stmt.every_forEach ..).mpr hbody, hb.2.2.2.2⟩
  | @doUntil pre body post =>
    have hbody := hpart body fun e he => by simp [he]
    simp only [everyIn_iff, List.forall_mem_append, List.forall_mem_cons] at hb ⊢
    exact ⟨hb.1, (Stmt.every_doUntil ..).mpr hbody, hb.2.2.2⟩
  | @ifElse pre body other post =>
    have hbody := hpart body fun e he => by simp [he]
    have hother := hpart other fun e he => by simp [he]
    simp only [everyIn_iff, List.forall_mem_append, List.forall_mem_cons] at hb ⊢
    exact ⟨hb.1, (Stmt.every_branch ..).mpr ⟨hbody, by simpa using hother⟩, hb.2.2.2.2.2⟩
  | @whileLoop pre body post =>
    have hbody := hpart body fun e he => by simp [he]
    simp only [everyIn_iff, List.forall_mem_append, List.forall_mem_cons] at hb ⊢
    exact ⟨hb.1, (Stmt.every_whileLoop ..).mpr hbody, hb.2.2.2.2⟩
  | @forLoop pre body post k here last back start step condition =>
    simp only [everyIn_iff, List.forall_mem_append, List.forall_mem_cons] at hb ⊢
    obtain ⟨hwhole, hin⟩ := (Stmt.every_whileLoop ..).mp hb.2.2.1
    have hbody : Every P body := by
      refine ⟨hfront body _ hwhole, everyIn_iff.mpr fun e he => ?_⟩
      exact everyIn_iff.mp hin e (by simp [he])
    exact ⟨hb.1, (Stmt.every_forLoop ..).mpr hbody, hb.2.2.2⟩
  | @plainIf pre body post =>
    have hbody := hpart body fun e he => by simp [he]
    simp only [everyIn_iff, List.forall_mem_append, List.forall_mem_cons] at hb ⊢
    exact ⟨hb.1, (Stmt.every_branch ..).mpr ⟨hbody, by simp⟩, hb.2.2.2⟩
  | @switch pre own post here subject =>
    have hown : own ⊆ pre ++ ⟨here, .plain (.switch subject)⟩ :: (own ++ post) :=
      fun e he => by simp [he]
    simp only [everyIn_iff, List.forall_mem_append, List.forall_mem_cons] at hb ⊢
    refine ⟨hb.1, (Stmt.every_switch ..).mpr fun arm harm => ?_, hb.2.2.2⟩
    obtain ⟨a, ha, rfl⟩ := List.mem_map.mp harm
    exact htaken _ ((mem_splitArms_snd ha).2.takenFrom hown)

/-- All blocks inside the statements of a block are idle. -/
structure IdleInside (b : Block) : Prop where
  every : EveryIn Idle b

theorem IdleInside.every_of_idle {b : Block} (h : IdleInside b) (hb : Idle b) : Every Idle b :=
  ⟨hb, h.every⟩

theorem Collapse.idleInside {inner : Block → Block} {rule : Rule} {b b' : Block}
    (hinner : ∀ c, TakenFrom b c → IdleInside c → IdleInside (inner c))
    (hstays : ∀ c, regroup (inner c) = inner c) (h : Collapse inner rule b b') (hb : IdleInside b) :
    IdleInside b' := by
  refine ⟨h.everyIn (fun c hc hin => ?_) (fun _ _ => Idle.of_append) hb.every⟩
  exact ⟨regroup_eq_self_iff.mp (hstays c), (hinner c hc ⟨hin⟩).every⟩

theorem idleInside_regroup {b : Block} (hb : IdleInside b) : IdleInside (regroup b) :=
  regroup_rel (R := fun b b' => IdleInside b → IdleInside b') (fun _ h => h)
    (fun hab hbc h => hbc (hab h)) (fun b _ => ⟨by simp [EveryIn]⟩)
    (fun _ hinner hstays _ _ _ h => h.idleInside (fun c _ => hinner c) hstays) b hb

/-! What is left in an idle block. -/

section Left
variable {b : Block} (h : Idle b)

include h

/-- A branch that is left goes to itself. -/
theorem Idle.branch {k target : UInt32} {condition : Token}
    (hk : ⟨k, .plain (.jumpIfNot target condition)⟩ ∈ b) : target = k := by
  obtain ⟨front, rest, rfl⟩ := List.append_of_mem hk
  have hplace := fun rule => h rule front.reverse k (.plain (.jumpIfNot target condition)) rest (by simp)
  have hback := hplace .doUntil
  have hahead := hplace .plainIf
  simp only [apply, applyDoUntil, applyIf] at hback hahead
  grind

/-- An iterator that is left does not end at a later statement of the block. -/
theorem Idle.iterator (hb : Ascending b) {k last : UInt32} {expression : Token}
    (hk : ⟨k, .plain (.iterator expression last)⟩ ∈ b) (ahead : k < last) : last ∉ keys b := by
  obtain ⟨front, rest, rfl⟩ := List.append_of_mem hk
  obtain ⟨-, hrest, hcross⟩ := ascending_append.mp hb
  have hplace := h .forEach front.reverse k (.plain (.iterator expression last)) rest (by simp)
  intro hlast
  obtain ⟨e, he, hek⟩ := mem_keys.mp hlast
  have hmem : last ∈ keys rest := by
    rcases List.mem_append.mp he with he | he
    · have hlt := hcross e he _ List.mem_cons_self
      rw [hek] at hlt
      exact absurd (UInt32.lt_trans hlt ahead) (UInt32.lt_irrefl _)
    · rcases List.mem_cons.mp he with rfl | he
      · exact absurd ahead (hek ▸ UInt32.lt_irrefl _)
      · exact mem_keys.mpr ⟨e, he, hek⟩
  exact applyForEach_ne_none (ascending_cons.mp hrest).2 ahead hmem hplace

/-- A switch that is left is not followed by a case label. -/
theorem Idle.switch {front rest : Block} {k j : UInt32} {subject : Token} {next : UInt16}
    {value : Option Token} :
    b ≠ front ++ ⟨k, .plain (.switch subject)⟩ :: ⟨j, .plain (.case next value)⟩ :: rest := by
  rintro rfl
  have hplace := h .switch front.reverse k (.plain (.switch subject))
    (⟨j, .plain (.case next value)⟩ :: rest) (by simp)
  simp [apply, applySwitch, startsWithCase] at hplace

end Left

end Rule

namespace Block

theorem everyIn_of_flat {P : Block → Prop} {block : Block} (h : Flat block) : EveryIn P block := by
  refine everyIn_iff.mpr fun e he => ?_
  obtain ⟨token, htoken⟩ := h e he
  simp [htoken]

theorem every_idle_regroup {code : Block} (h : Flat code) : Every Rule.Idle (regroup code) := by
  have hinside := Rule.idleInside_regroup ⟨everyIn_of_flat h⟩
  exact hinside.every_of_idle (Rule.regroup_eq_self_iff.mp (Rule.regroup_idem code))

/-- Every block of the tree of a list of instructions, at any depth, stays as it is when
it is regrouped again: the branches left in it go to themselves, its iterators end at
none of its later statements, and no switch left in it stands before a case label. -/
theorem regroup_part_eq (code : List Instruction) {part : Part}
    (hpart : part ∈ parts (regroup (ofInstructions code))) :
    regroup part.block = part.block ∧
    (∀ k target condition, ⟨k, .plain (.jumpIfNot target condition)⟩ ∈ part.block → target = k) ∧
    (∀ k expression last, ⟨k, .plain (.iterator expression last)⟩ ∈ part.block → k < last →
      last ∉ keys part.block) ∧
    ∀ front k subject j next value rest, part.block ≠
      front ++ ⟨k, .plain (.switch subject)⟩ :: ⟨j, .plain (.case next value)⟩ :: rest := by
  have hidle := Every.of_mem_parts (every_idle_regroup (flat_ofInstructions code)) hpart
  have hlaid := Rule.wellLaid_regroupWithin (plainCount (ofInstructions code) + 1)
    (wellLaid_ofInstructions code)
  have hasc := (Every.of_mem_parts hlaid.every hpart).ascending
  refine ⟨Rule.regroup_eq_self_iff.mpr hidle, fun k target condition => hidle.branch,
    fun k expression last => hidle.iterator hasc, ?_⟩
  exact fun front k subject j next value rest => hidle.switch

/-- A counted loop around a loop without a counter. -/
def loopInCounted : List Instruction :=
  [⟨0, .assign (.localVariable "i") (.intConst 0)⟩, ⟨4, .jumpIfNot 30 (.localVariable "c")⟩,
    ⟨8, .jumpIfNot 20 (.localVariable "d")⟩, ⟨12, .stop⟩, ⟨16, .jump 8⟩,
    ⟨20, .postfixOp "++" (.localVariable "i")⟩, ⟨24, .jump 4⟩]

/-- The body of the counted loop, which lost its last statement, stays as it is. -/
theorem regroup_part_loopInCounted :
    (∃ part ∈ parts (regroup (ofInstructions loopInCounted)),
      part.block = [⟨8, .whileLoop (.localVariable "d") [⟨12, .plain .stop⟩] 16⟩] ∧
      regroup part.block = part.block) := by
  have htree : regroup (ofInstructions loopInCounted) =
      [⟨0, .forLoop (some ⟨0, .assign (.localVariable "i") (.intConst 0)⟩)
        (some ⟨4, .localVariable "c"⟩) (some ⟨20, .postfixOp "++" (.localVariable "i")⟩)
        [⟨8, .whileLoop (.localVariable "d") [⟨12, .plain .stop⟩] 16⟩] 24⟩] := rfl
  have hpart : (⟨[⟨8, .whileLoop (.localVariable "d") [⟨12, .plain .stop⟩] 16⟩], [20, 24]⟩ : Part) ∈
      parts (regroup (ofInstructions loopInCounted)) := by
    rw [htree]
    simp [parts, partsIn, Stmt.parts, Block.offsets]
  exact ⟨_, hpart, rfl, (regroup_part_eq loopInCounted hpart).1⟩

end Block

end ScriptLift
