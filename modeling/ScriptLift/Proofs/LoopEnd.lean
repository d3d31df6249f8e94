import ScriptLift.Proofs.BranchExit
import ScriptLift.Proofs.Course

/- What a loop over an iterator removes at its end.

   The rule for these loops asks only that a statement stands at the end of the iterator,
   and removes it. In the first pass over a block all statements are instructions, and
   every iterator that ends at a later one of them is used up there. The iterators that
   are left over end beyond the block, or at an offset where the code has no instruction
   (`Loose`). No other rule puts a statement at such an offset but the one for loops that
   end in their condition, which puts the loop at the target of a branch back. So where a
   later pass takes a loop over an iterator, it removes such a loop, with all the
   instructions in it. -/
namespace ScriptLift

namespace Block

/-- The iterator at `k` that ends at `last` finds no instruction of the code there, among
these statements. -/
def Unmet (code block : Block) (k last : UInt32) : Prop :=
  k < last → (∀ e ∈ block, e.offset < last) ∨ last ∉ keys code

/-- The iterators among the statements of a block meet no instruction at their end. -/
def Loose (code block : Block) : Prop :=
  ∀ k expression last, ⟨k, .plain (.iterator expression last)⟩ ∈ block → Unmet code block k last

theorem Unmet.of_below {code b c : Block} {k last : UInt32} (h : Unmet code b k last)
    (below : ∀ limit, (∀ e ∈ b, e.offset < limit) → ∀ e ∈ c, e.offset < limit) :
    Unmet code c k last :=
  fun ahead => (h ahead).imp_left (below last)

theorem Loose.of_part {code b c : Block} (h : Loose code b)
    (plain : ∀ k token, ⟨k, .plain token⟩ ∈ c → ⟨k, .plain token⟩ ∈ b)
    (below : ∀ limit, (∀ e ∈ b, e.offset < limit) → ∀ e ∈ c, e.offset < limit) : Loose code c :=
  fun k expression last hk => (h k expression last (plain _ _ hk)).of_below below

theorem Loose.sublist {code b c : Block} (h : Loose code b) (hc : c.Sublist b) : Loose code c :=
  h.of_part (fun _ _ hk => hc.subset hk) (fun _ hlt e he => hlt e (hc.subset he))

theorem Loose.cutFrom {code own body : Block} (h : Loose code own) (hbody : Rule.CutFrom own body) :
    Loose code body := by
  refine h.of_part ?_ ?_
  · exact fun k token hk => hbody.mem_of_ne_leave hk (by simp)
  · intro limit hlt e he
    obtain ⟨s, hs, -⟩ := hbody.mem he
    exact hlt ⟨e.offset, s⟩ hs

theorem tokenAt_eq_none {block : Block} {k : UInt32} (h : k ∉ keys block) : tokenAt block k = none := by
  refine Option.eq_none_iff_forall_ne_some.mpr fun token htoken => ?_
  exact h (mem_keys.mpr ⟨_, mem_of_tokenAt htoken, rfl⟩)

/-- An iterator of the code that ends at none of the statements behind it, in a stretch of
the code, meets no instruction there. -/
theorem unmet_of_infix {code before after : Block} {here last : UInt32} {s : Stmt}
    (hcode : Ascending code) (hpiece : ⟨here, s⟩ :: after <:+: code)
    (hbefore : ∀ e ∈ before, e.offset < here) (hlast : last ∉ keys after) :
    Unmet code (before ++ ⟨here, s⟩ :: after) here last := by
  obtain ⟨front, post, rfl⟩ := hpiece
  intro ahead
  refine or_iff_not_imp_right.mpr fun hmem => ?_
  rw [List.append_assoc] at hcode hmem
  obtain ⟨-, hrest, hfront⟩ := ascending_append.mp hcode
  obtain ⟨hstretch, -, hpost⟩ := ascending_append.mp hrest
  -- The end is behind the stretch: in front of it there are only smaller offsets.
  have hbehind : last ∈ keys post := by
    simp only [keys_append, keys_cons, List.mem_append, not_not] at hmem
    rcases hmem with hmem | hmem | hmem
    · obtain ⟨e, he, rfl⟩ := mem_keys.mp hmem
      exact absurd (UInt32.lt_trans ahead (hfront e he ⟨here, s⟩ (by simp))) (UInt32.lt_irrefl _)
    · rcases List.mem_cons.mp hmem with rfl | hmem
      · exact absurd ahead (UInt32.lt_irrefl _)
      · exact absurd hmem hlast
    · exact hmem
  obtain ⟨x, hx, rfl⟩ := mem_keys.mp hbehind
  intro e he
  rcases List.mem_append.mp he with he | he
  · exact UInt32.lt_trans (hbefore e he) ahead
  · exact hpost e he x hx

end Block

namespace Rule

open Block

/-- What is left of a block after an application is as loose as the block. -/
theorem Collapse.loose {code : Block} {inner : Block → Block} {rule : Rule} {b b' : Block}
    (h : Collapse inner rule b b') (hb : Loose code b) : Loose code b' :=
  hb.of_part (fun _ _ hk => h.plain_mem hk) (fun _ hlt => h.keys_lt hlt)

/-! Places. -/

/-- What holds at every place that is reached while flat code is regrouped. The iterators
passed over are loose; so are those to come, or else the pass is the first over a stretch
of the code. -/
structure Situated (code : Block) (rule : Rule) (before after : Block) : Prop where
  laid : WellLaid (tokenAt code) (before.reverse ++ after)
  passed : ∀ k expression last, ⟨k, .plain (.iterator expression last)⟩ ∈ before →
    Unmet code (before.reverse ++ after) k last
  ahead : rule = .forEach ∧ after <:+: code ∨ Loose code (before.reverse ++ after)

theorem keepsLayout_regroup {code : UInt32 → Option Token} (b : Block) :
    KeepsLayout code b (regroup b) :=
  regroupWithin_rel KeepsLayout.refl KeepsLayout.trans (fun _ hinner _ _ _ h => h.keepsLayout hinner)
    _ b

theorem Situated.of_loose {code : Block} {rule : Rule} {before after : Block}
    (laid : WellLaid (tokenAt code) (before.reverse ++ after))
    (hloose : Loose code (before.reverse ++ after)) : Situated code rule before after :=
  ⟨laid, fun k expression last hk => hloose k expression last (by simp [hk]), .inr hloose⟩

section Steps
variable {code before after before' after' : Block} {rule : Rule} {here : UInt32} {s : Stmt}

theorem Situated.skip (hcode : Ascending code)
    (h : Situated code rule before (⟨here, s⟩ :: after))
    (fails : rule.apply regroup before here s after = none) :
    Situated code rule (⟨here, s⟩ :: before) after := by
  have hwhole : (⟨here, s⟩ :: before).reverse ++ after = before.reverse ++ ⟨here, s⟩ :: after := by
    simp
  obtain ⟨laid, passed, ⟨rfl, hpiece⟩ | hloose⟩ := h
  · obtain ⟨-, hrest, hcross⟩ := ascending_append.mp laid.every.1.ascending
    refine ⟨hwhole ▸ laid, fun k expression last hk => ?_, .inl ⟨rfl, ?_⟩⟩
    · rw [hwhole]
      rcases List.mem_cons.mp hk with heq | hk
      · -- The rule would have applied at an iterator that ends at a later instruction.
        obtain ⟨rfl, rfl⟩ := Placed.mk.inj heq
        intro ahead
        refine unmet_of_infix hcode hpiece (fun e he => hcross e he _ List.mem_cons_self) ?_ ahead
        exact fun hmem => applyForEach_ne_none (ascending_cons.mp hrest).2 ahead hmem fails
      · exact passed k expression last hk
    · exact (List.suffix_cons _ _).isInfix.trans hpiece
  · exact Situated.of_loose (hwhole ▸ laid) (hwhole ▸ hloose)

theorem Situated.take (h : Situated code rule before (⟨here, s⟩ :: after))
    (applies : rule.apply regroup before here s after = some (before', after')) :
    Situated code rule before' after' := by
  have hcollapse := apply_collapse applies
  obtain ⟨laid, passed, ⟨rfl, hpiece⟩ | hloose⟩ := h
  · have hlaid := ((hcollapse.keepsLayout keepsLayout_regroup).2 laid).1
    obtain ⟨expression, last, body, next, marker, rfl, -, rfl, -, rfl⟩ := applyForEach_eq_some applies
    refine ⟨hlaid, fun k e l hk => ?_, .inl ⟨rfl, ?_⟩⟩
    · refine (passed k e l (by simpa using hk)).of_below fun limit hlt => ?_
      exact hcollapse.keys_lt hlt
    · have hsuffix : after' <:+ ⟨here, .plain (.iterator expression last)⟩ ::
          (body ++ stepPart next ++ ⟨last, marker⟩ :: after') :=
        ⟨⟨here, .plain (.iterator expression last)⟩ :: (body ++ stepPart next ++ [⟨last, marker⟩]),
          by simp⟩
      exact hsuffix.isInfix.trans hpiece
  · exact Situated.of_loose ((hcollapse.keepsLayout keepsLayout_regroup).2 laid).1
      (hcollapse.loose hloose)

/-- What the first pass over a stretch of code hands on is a stretch of it. -/
theorem infix_of_handedOn_forEach {c : Block} (handed : c ∈ forEach.handedOn before s after) :
    c <:+: after := by
  obtain ⟨⟨token, rfl⟩, -⟩ := mem_handedOn handed
  cases token with
  | iterator expression last =>
    obtain rfl := List.mem_singleton.mp handed
    have hbody : (splitNext (below last after)).1 <+: below last after :=
      ⟨_, splitNext_append (below last after)⟩
    have hbelow : below last after <+: after := List.takeWhile_prefix _
    exact (hbody.trans hbelow).isInfix
  | _ => simp [handedOn] at handed

/-- A block that is handed on stands as the block it was cut out of. -/
theorem Situated.body (h : Situated code rule before (⟨here, s⟩ :: after)) {c : Block}
    (handed : c ∈ rule.handedOn before s after) : Situated code .forEach [] c := by
  have hafter : after.Sublist (before.reverse ++ ⟨here, s⟩ :: after) :=
    (List.sublist_cons_self _ _).trans (List.sublist_append_right _ _)
  have hpart : WellLaid (tokenAt code) c ∧
      (Loose code (before.reverse ++ ⟨here, s⟩ :: after) → Loose code c) := by
    obtain ⟨-, hsub | ⟨arm, harm, rfl⟩⟩ := mem_handedOn handed
    · have hc := hsub.trans ((List.Sublist.refl before.reverse).append (List.sublist_cons_self ⟨here, s⟩ _))
      exact ⟨h.laid.sublist hc, fun hloose => hloose.sublist hc⟩
    · have hown := (switchExtent_sublist false after).trans hafter
      have hcut := (mem_splitArms_snd harm).2
      exact ⟨(h.laid.sublist hown).cutFrom hcut, fun hloose => (hloose.sublist hown).cutFrom hcut⟩
  obtain ⟨-, -, ⟨rfl, hpiece⟩ | hloose⟩ := h
  · have hstretch := (infix_of_handedOn_forEach handed).trans ((List.suffix_cons _ _).isInfix.trans hpiece)
    exact ⟨hpart.1, by simp, .inl ⟨rfl, hstretch⟩⟩
  · exact Situated.of_loose hpart.1 (hpart.2 hloose)

theorem Situated.turn (h : Situated code rule before []) : Situated code rule.next [] before.reverse := by
  obtain ⟨laid, passed, -⟩ := h
  refine Situated.of_loose (by simpa using laid) fun k expression last hk => ?_
  simpa using passed k expression last (by simpa using hk)

end Steps

theorem Reached.situated {code : Block} (hlaid : WellLaid (tokenAt code) code)
    {rule : Rule} {before after : Block} (h : Reached code rule before after) :
    Situated code rule before after := by
  induction h with
  | start => exact ⟨hlaid, by simp, .inl ⟨rfl, List.infix_refl _⟩⟩
  | skip _ fails ih => exact ih.skip hlaid.every.1.ascending fails
  | take _ applies ih => exact ih.take applies
  | body _ _ handed ih => exact ih.body handed
  | turn _ ih => exact ih.turn

/-- Only a loop that ends in its condition stands where the code has no instruction. -/
theorem doUntil_of_sourced {code : UInt32 → Option Token} {here : UInt32} {s : Stmt}
    (h : s.Sourced code here) (hnone : code here = none) :
    ∃ condition body, s = .doUntil condition body := by
  cases s with
  | doUntil condition body => exact ⟨condition, body, rfl⟩
  | _ => simp [Stmt.Sourced, hnone] at h

/-- The statement at the end of an iterator, at a place where a pass comes to the iterator:
an instruction when the code has one there, and else a loop that ends in its condition. -/
theorem Situated.marker {code before front rest : Block} {here last : UInt32} {expression : Token}
    {marker : Stmt} (hflat : Flat code) (ahead : here < last)
    (h : Situated code .forEach before
      (⟨here, .plain (.iterator expression last)⟩ :: (front ++ ⟨last, marker⟩ :: rest))) :
    (last ∈ keys code ∧ ∃ token, marker = .plain token) ∨
      last ∉ keys code ∧ ∃ condition inside, marker = .doUntil condition inside ∧
        tokenAt code condition.offset = some (.jumpIfNot last condition.item) ∧
        last < condition.offset := by
  obtain ⟨laid, -, ⟨-, hpiece⟩ | hloose⟩ := h
  · have hmarker : ⟨last, marker⟩ ∈ code := hpiece.subset (by simp)
    exact .inl ⟨mem_keys.mpr ⟨_, hmarker, rfl⟩, hflat _ hmarker⟩
  · -- An iterator that still has its end in the block meets no instruction there.
    have hnone : last ∉ keys code := by
      refine (hloose here expression last (by simp) ahead).resolve_left fun hbelow => ?_
      exact UInt32.lt_irrefl last (hbelow ⟨last, marker⟩ (by simp))
    have hsourced : marker.Sourced (tokenAt code) last :=
      (sourced_iff.mp laid.sourced ⟨last, marker⟩ (by simp)).1
    obtain ⟨condition, inside, rfl⟩ := doUntil_of_sourced hsourced (tokenAt_eq_none hnone)
    exact .inr ⟨hnone, condition, inside, rfl, hsourced⟩

end Rule

namespace Block

open Rule

/-- What a loop over an iterator removes at its end. Wherever the rule applies while a
list of instructions is regrouped, at the top or inside, the statement it removes is an
instruction exactly when the code has one at the end of the iterator. Otherwise it is a
loop that ends in its condition, whose branch goes back to that offset. -/
theorem forEach_marker_iff (code : List Instruction) {before after before' after' : Block}
    {here : UInt32} {s : Stmt}
    (hreached : Reached (ofInstructions code) .forEach before (⟨here, s⟩ :: after))
    (happly : Rule.forEach.apply regroup before here s after = some (before', after')) :
    ∃ expression last body next marker, s = .plain (.iterator expression last) ∧
      after = body ++ stepPart next ++ ⟨last, marker⟩ :: after' ∧
      before' = ⟨here, .forEach expression (regroup body) next last⟩ :: before ∧
      ((∃ token, marker = .plain token) ↔ ∃ i ∈ code, i.offset = last) ∧
      ((∃ token, marker = .plain token) ∨ ∃ condition inside, marker = .doUntil condition inside ∧
        ⟨condition.offset, .jumpIfNot last condition.item⟩ ∈ code ∧ last < condition.offset) := by
  obtain ⟨expression, last, body, next, marker, rfl, ahead, rfl, -, rfl⟩ := applyForEach_eq_some happly
  refine ⟨expression, last, body, next, marker, rfl, rfl, rfl, ?_⟩
  rw [← mem_keys_ofInstructions]
  have hplace := hreached.situated (wellLaid_ofInstructions code)
  rcases hplace.marker (flat_ofInstructions code) ahead with ⟨hmem, hplain⟩ | ⟨hnone, hloop⟩
  · exact ⟨iff_of_true hplain hmem, .inl hplain⟩
  · obtain ⟨condition, inside, rfl, hbranch, hback⟩ := hloop
    exact ⟨iff_of_false (by simp) hnone,
      .inr ⟨condition, inside, rfl, mem_code_of_tokenAt hbranch, hback⟩⟩

/-- An iterator that ends where no instruction stands, and a branch back to that offset. -/
def endsAtBranch : List Instruction :=
  [⟨0, .iterator .selfObject 7⟩, ⟨12, .jumpIfNot 7 .noObject⟩]

/-- In the second round the loop over the iterator removes the loop at 7, and with it the
instruction at 12. -/
theorem forEach_marker_endsAtBranch :
    Reached (ofInstructions endsAtBranch) .forEach [] [⟨0, .plain (.iterator .selfObject 7)⟩,
      ⟨7, .doUntil ⟨12, .noObject⟩ []⟩] ∧
    (¬ ∃ i ∈ endsAtBranch, i.offset = 7) ∧
    regroup (ofInstructions endsAtBranch) = [⟨0, .forEach .selfObject [] none 7⟩] := by
  have hround : Reached (ofInstructions endsAtBranch) .forEach [] [⟨0, .plain (.iterator .selfObject 7)⟩,
      ⟨7, .doUntil ⟨12, .noObject⟩ []⟩] := Reached.start.round
  obtain ⟨expression, last, body, next, marker, hs, hafter, -, hiff, -⟩ :=
    @forEach_marker_iff endsAtBranch [] [⟨7, .doUntil ⟨12, .noObject⟩ []⟩]
      [⟨0, .forEach .selfObject [] none 7⟩] [] 0 (.plain (.iterator .selfObject 7)) hround rfl
  refine ⟨hround, ?_, rfl⟩
  obtain ⟨rfl, rfl⟩ : expression = .selfObject ∧ last = 7 := by simpa using hs.symm
  have hmarker : Stmt.doUntil ⟨12, .noObject⟩ [] = marker := by
    simpa using congrArg List.getLast? hafter
  intro hlast
  obtain ⟨token, htoken⟩ := hiff.mpr hlast
  simp [← hmarker] at htoken

end Block

end ScriptLift
