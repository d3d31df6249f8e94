import ScriptLift.Proofs.SwitchChain

/- Regrouping keeps switches in one piece until it has regrouped them.

   `Kept` is the invariant of a run: the switches that are plain instructions of a block
   are in one piece there, none is left in the blocks inside its statements, and those
   that became statements have their own labels for cases. Each application of a rule
   keeps it (`Collapse.kept`), so it holds of the tree; and there each switch has to be a
   statement (`switch_cases_eq`). -/
namespace ScriptLift

/-- The cases of a switch are its own labels, and a counted loop takes no switch for its
start or step. A loop that may yet become a counted one has the plain instructions of its
body between its condition and its jump back. -/
def Stmt.Arranged (chains : Chain → Prop) (here : UInt32) : Stmt → Prop
  | .whileLoop _ body back => ∀ k token, ⟨k, .plain token⟩ ∈ body → here < k ∧ k < back
  | .forLoop start _ step _ _ =>
    ∀ c, chains c → (∀ s ∈ start, s.offset ≠ c.here) ∧ ∀ s ∈ step, s.offset ≠ c.here
  | .switch _ arms => ∀ c, chains c → c.here = here → arms.map (·.offset) = c.cases
  | _ => True

namespace Rule

open Block

/-- What holds of the blocks inside a statement. -/
structure Finished (chains : Chain → Prop) (b : Block) : Prop where
  clear : Clear chains b
  arranged : ∀ e ∈ b, e.item.Arranged chains e.offset

/-- What holds of a block while it is regrouped. -/
structure Kept (chains : Chain → Prop) (b : Block) : Prop where
  intact : Intact chains b
  arranged : ∀ e ∈ b, e.item.Arranged chains e.offset
  inside : EveryIn (Finished chains) b

/-- Switches that are undivided, and so are all in front of them. -/
structure Closed (code : UInt32 → Option Token) (chains : Chain → Prop) : Prop where
  undivided : ∀ c, chains c → Undivided code c
  earlier : ∀ c, chains c → ∀ k subject, code k = some (.switch subject) → k < c.here →
    ∃ d, chains d ∧ d.here = k

/-- What regrouping does to a block. -/
structure Follows (code : UInt32 → Option Token) (chains : Chain → Prop) (b b' : Block) : Prop where
  layout : KeepsLayout code b b'
  plain : ∀ k token, ⟨k, .plain token⟩ ∈ b' → ⟨k, .plain token⟩ ∈ b
  kept : WellLaid code b → Kept chains b → Kept chains b'

section Runs
variable {code : UInt32 → Option Token} {chains : Chain → Prop}

theorem Follows.refl (b : Block) : Follows code chains b b :=
  ⟨KeepsLayout.refl b, fun _ _ h => h, fun _ h => h⟩

theorem Follows.trans {a b c : Block} (hab : Follows code chains a b)
    (hbc : Follows code chains b c) : Follows code chains a c where
  layout := hab.layout.trans hbc.layout
  plain := fun k token hk => hab.plain k token (hbc.plain k token hk)
  kept := fun hlaid ha => hbc.kept (hab.layout.2 hlaid).1 (hab.kept hlaid ha)

theorem Follows.nil (b : Block) : Follows code chains b [] where
  layout := by
    have hsourced : Block.Sourced code [] := by simp [Block.Sourced, Every, EveryIn]
    have hlaid : LaidOut code [] := ⟨by simp [Ascending], by simp, by simp⟩
    exact ⟨fun _ => hsourced, fun _ => ⟨⟨⟨hlaid, by simp [EveryIn]⟩, hsourced⟩,
      by simp [Bounded, Block.offsets]⟩⟩
  plain := by simp
  kept := fun _ _ => ⟨by simp [Intact], by simp, by simp [EveryIn]⟩

/-- The parts that an application regroups are finished. -/
theorem Kept.finish (hclosed : Closed code chains) {inner : Block → Block} {b c : Block}
    (hinner : Follows code chains c (inner c)) (hstays : regroup (inner c) = inner c)
    (hb : Kept chains b) (hlaid : WellLaid code c) (htaken : TakenFrom b c)
    (hintact : Intact chains c) : Every (Finished chains) (inner c) := by
  have hc : Kept chains c := by
    refine ⟨hintact, fun e he => ?_, htaken.everyIn hb.inside⟩
    rcases htaken e he with hmem | hleave
    · exact hb.arranged e hmem
    · simp [hleave, Stmt.Arranged]
  have hdone := hinner.kept hlaid hc
  have hclear := hdone.intact.clear hclosed.undivided (hinner.layout.2 hlaid).1
    (regroup_eq_self_iff.mp hstays)
  exact ⟨⟨hclear, hdone.arranged⟩, hdone.inside⟩

/-- One statement in place of others. -/
theorem Kept.replace {pre rest post : Block} {e : Placed Stmt} (hb : Kept chains (pre ++ rest))
    (hpost : post ⊆ rest) (hintact : Intact chains (pre ++ e :: post))
    (harranged : e.item.Arranged chains e.offset) (hevery : e.item.Every (Finished chains)) :
    Kept chains (pre ++ e :: post) := by
  have hmem : ∀ x ∈ pre ++ e :: post, x = e ∨ x ∈ pre ++ rest := by
    intro x hx
    rcases List.mem_append.mp hx with hx | hx
    · exact .inr (List.mem_append_left _ hx)
    · exact (List.mem_cons.mp hx).imp_right fun hx => List.mem_append_right _ (hpost hx)
  refine ⟨hintact, fun x hx => ?_, everyIn_iff.mpr fun x hx => ?_⟩
  · rcases hmem x hx with rfl | hx
    · exact harranged
    · exact hb.arranged x hx
  · rcases hmem x hx with rfl | hx
    · exact hevery
    · exact everyIn_iff.mp hb.inside x hx

/-- The same where the new statement stands at the offset of the first it replaces. -/
theorem Kept.replace_from {pre rest post : Block} {here : UInt32} {s s' : Stmt}
    (hb : Kept chains (pre ++ ⟨here, s⟩ :: rest)) (hpost : post ⊆ rest)
    (hout : Intact chains (pre ++ post)) (hplain : ∀ token, s' ≠ .plain token)
    (harranged : s'.Arranged chains here) (hevery : s'.Every (Finished chains)) :
    Kept chains (pre ++ ⟨here, s'⟩ :: post) := by
  have hbehind : post ⊆ ⟨here, s⟩ :: rest := List.subset_cons_of_subset _ hpost
  refine hb.replace hbehind (hout.insert hplain fun c hc hwhole first hfirst hlt => ?_) harranged hevery
  obtain ⟨token, htoken⟩ := hwhole.marks c.here List.mem_cons_self
  have hmem : ⟨c.here, .plain token⟩ ∈ pre ++ ⟨here, s⟩ :: rest := by
    rcases List.mem_append.mp htoken with hin | hin
    · exact List.mem_append_left _ hin
    · exact List.mem_append_right _ (hbehind hin)
  exact (hb.intact c hc token hmem).opens first hfirst here (by simp) hlt

end Runs

/-! Cuts. What each rule cuts out, and what it leaves, has its switches in one piece. -/

section Cuts
variable {code : UInt32 → Option Token} {chains : Chain → Prop}
  (hcode : ∀ c, chains c → Undivided code c)

include hcode

theorem Intact.ahead {pre body post : Block} (gone : Block) {here high : UInt32} {token : Token}
    (hb : Intact chains (pre ++ ⟨here, .plain token⟩ :: (body ++ (gone ++ post))))
    (hasc : Ascending (pre ++ ⟨here, .plain token⟩ :: (body ++ (gone ++ post))))
    (hcut : Cut code here high) (hbody : ∀ e ∈ body, e.offset < high)
    (hpost : ∀ e ∈ post, high ≤ e.offset) (hhere : ∀ d, chains d → here ∉ d.marks)
    (hgone : ∀ d, chains d → ∀ m ∈ d.marks, ∀ t, ⟨m, .plain t⟩ ∉ gone) :
    Intact chains body ∧ Intact chains (pre ++ post) := by
  obtain ⟨-, hrest, hpre⟩ := ascending_append.mp hasc
  have hbehind := (ascending_cons.mp hrest).1
  refine Intact.cut hcode [⟨here, .plain token⟩] gone hb hcut ?_ ?_ hpost ?_
  · exact fun e he => hpre e he ⟨here, .plain token⟩ (by simp)
  · exact fun e he => ⟨UInt32.le_of_lt (hbehind e (by simp [he])), hbody e he⟩
  · intro d hd m hm t ht
    rcases List.mem_append.mp ht with ht | ht
    · obtain ⟨rfl, -⟩ : m = here ∧ t = token := by simpa using ht
      exact hhere d hd hm
    · exact hgone d hd m hm t ht

theorem Intact.forEach {pre body post : Block} {next : Option UInt32} {here last : UInt32}
    {expression : Token} {marker : Stmt}
    (hlaid : WellLaid code (pre ++ ⟨here, .plain (.iterator expression last)⟩ ::
      (body ++ stepPart next ++ ⟨last, marker⟩ :: post)))
    (hb : Intact chains (pre ++ ⟨here, .plain (.iterator expression last)⟩ ::
      (body ++ stepPart next ++ ⟨last, marker⟩ :: post)))
    (body_below : ∀ e ∈ body ++ stepPart next, e.offset < last) :
    Intact chains body ∧ Intact chains (pre ++ post) := by
  have hsource := hlaid.plain
  have hasc := hlaid.every.1.ascending
  have hhere := hsource here (.iterator expression last) (by simp)
  obtain ⟨-, hrest, -⟩ := ascending_append.mp hasc
  obtain ⟨-, hlast, -⟩ := ascending_append.mp (ascending_cons.mp hrest).2
  refine Intact.ahead hcode (stepPart next ++ [⟨last, marker⟩]) (by simpa using hb)
    (by simpa using hasc) (.loop hhere) ?_ ?_ ?_ ?_
  · exact fun e he => body_below e (by simp [he])
  · exact fun e he => UInt32.le_of_lt ((ascending_cons.mp hlast).1 e he)
  · exact fun d hd => (hcode d hd).not_mark hhere (by simp) (by simp) (by simp)
  · intro d hd m hm t ht
    rcases List.mem_append.mp ht with ht | ht
    · obtain ⟨k, -, hk⟩ := List.mem_map.mp ht
      obtain ⟨rfl, rfl⟩ : k = m ∧ .iteratorNext = t := by simpa using hk
      have hstep := hsource k .iteratorNext (by simp [ht])
      exact (hcode d hd).not_mark hstep (by simp) (by simp) (by simp) hm
    · obtain ⟨rfl, -⟩ : m = last ∧ .plain t = marker := by simpa using ht
      exact (hcode d hd).ends here expression m hhere hm

theorem Intact.doUntil {pre body post : Block} {here target : UInt32} {condition : Token}
    (hlaid : WellLaid code (pre ++ (body ++ ⟨here, .plain (.jumpIfNot target condition)⟩ :: post)))
    (hb : Intact chains (pre ++ (body ++ ⟨here, .plain (.jumpIfNot target condition)⟩ :: post)))
    (pre_below : ∀ e ∈ pre.getLast?, e.offset < target)
    (body_above : ∀ e ∈ body, target ≤ e.offset) :
    Intact chains body ∧ Intact chains (pre ++ post) := by
  have hhere := hlaid.plain here (.jumpIfNot target condition) (by simp)
  obtain ⟨hpre, hrest, -⟩ := ascending_append.mp hlaid.every.1.ascending
  obtain ⟨-, hpost, hbody⟩ := ascending_append.mp hrest
  refine Intact.cut hcode [] [⟨here, .plain (.jumpIfNot target condition)⟩] (by simpa using hb)
    (.back hhere) (hpre.lt_of_last pre_below) ?_ ?_ ?_
  · exact fun e he => ⟨body_above e he, hbody e he _ List.mem_cons_self⟩
  · exact fun e he => UInt32.le_of_lt ((ascending_cons.mp hpost).1 e he)
  · intro d hd m hm t ht
    obtain ⟨rfl, -⟩ : m = here ∧ t = .jumpIfNot target condition := by simpa using ht
    exact (hcode d hd).not_mark_branch hhere hm

theorem Intact.ifElse {pre body other post : Block} {here target jump destination : UInt32}
    {condition : Token}
    (hlaid : WellLaid code (pre ++ ⟨here, .plain (.jumpIfNot target condition)⟩ ::
      (body ++ ⟨jump, .plain (.jump destination)⟩ :: (other ++ post))))
    (hb : Intact chains (pre ++ ⟨here, .plain (.jumpIfNot target condition)⟩ ::
      (body ++ ⟨jump, .plain (.jump destination)⟩ :: (other ++ post))))
    (ahead : here < target) (further : target < destination)
    (body_below : ∀ e ∈ body, e.offset < target) (jump_below : jump < target)
    (rest_above : ∀ e ∈ (other ++ post).head?, target ≤ e.offset)
    (other_below : ∀ e ∈ other, e.offset < destination)
    (post_above : ∀ e ∈ post.head?, destination ≤ e.offset) :
    Intact chains body ∧ Intact chains other ∧ Intact chains (pre ++ post) := by
  have hasc := hlaid.every.1.ascending
  have hhere := hlaid.plain here (.jumpIfNot target condition) (by simp)
  have hjump := hlaid.plain jump (.jump destination) (by simp)
  obtain ⟨-, hhead, hpre⟩ := ascending_append.mp hasc
  obtain ⟨hbehind, hrest⟩ := ascending_cons.mp hhead
  obtain ⟨-, hrest, -⟩ := ascending_append.mp hrest
  have hafter := (ascending_cons.mp hrest).2
  have habove := hafter.le_of_head rest_above
  have hinside : here < jump ∧ jump < target :=
    ⟨hbehind ⟨jump, .plain (.jump destination)⟩ (by simp), jump_below⟩
  -- First the part that the branch skips, then what the jump at its end skips.
  obtain ⟨hbody, hout⟩ := Intact.ahead hcode [⟨jump, .plain (.jump destination)⟩] hb hasc
    (.ahead hhere) body_below habove
    (fun d hd => (hcode d hd).not_mark_branch hhere) (fun d hd m hm t ht => by
      obtain ⟨rfl, -⟩ : m = jump ∧ t = .jump destination := by simpa using ht
      exact (hcode d hd).not_mark_further hhere hjump hinside further hm)
  refine ⟨hbody, Intact.cut hcode [] [] hout (.other hhere hjump hinside) ?_ ?_ ?_ (by simp)⟩
  · exact fun e he => UInt32.lt_trans (hpre e he _ List.mem_cons_self) ahead
  · exact fun e he => ⟨habove e (by simp [he]), other_below e he⟩
  · exact (ascending_append.mp hafter).2.1.le_of_head post_above

theorem Intact.whileLoop {pre body post : Block} {here target back : UInt32} {condition : Token}
    (hlaid : WellLaid code (pre ++ ⟨here, .plain (.jumpIfNot target condition)⟩ ::
      (body ++ ⟨back, .plain (.jump here)⟩ :: post)))
    (hb : Intact chains (pre ++ ⟨here, .plain (.jumpIfNot target condition)⟩ ::
      (body ++ ⟨back, .plain (.jump here)⟩ :: post)))
    (body_below : ∀ e ∈ body, e.offset < target)
    (post_above : ∀ e ∈ post.head?, target ≤ e.offset) :
    Intact chains body ∧ Intact chains (pre ++ post) := by
  have hasc := hlaid.every.1.ascending
  have hhere := hlaid.plain here (.jumpIfNot target condition) (by simp)
  have hjump := hlaid.plain back (.jump here) (by simp)
  obtain ⟨-, hhead, -⟩ := ascending_append.mp hasc
  obtain ⟨hbehind, hrest⟩ := ascending_cons.mp hhead
  obtain ⟨-, hrest, -⟩ := ascending_append.mp hrest
  refine Intact.ahead hcode [⟨back, .plain (.jump here)⟩] hb hasc (.ahead hhere) body_below
    ((ascending_cons.mp hrest).2.le_of_head post_above) ?_ ?_
  · exact fun d hd => (hcode d hd).not_mark_branch hhere
  · intro d hd m hm t ht
    obtain ⟨rfl, -⟩ : m = back ∧ t = .jump here := by simpa using ht
    exact (hcode d hd).not_mark_back hjump (hbehind ⟨m, .plain (.jump here)⟩ (by simp)) hm

theorem Intact.plainIf {pre body post : Block} {here target : UInt32} {condition : Token}
    (hlaid : WellLaid code (pre ++ ⟨here, .plain (.jumpIfNot target condition)⟩ :: (body ++ post)))
    (hb : Intact chains (pre ++ ⟨here, .plain (.jumpIfNot target condition)⟩ :: (body ++ post)))
    (body_below : ∀ e ∈ body, e.offset < target)
    (post_above : ∀ e ∈ post.head?, target ≤ e.offset) :
    Intact chains body ∧ Intact chains (pre ++ post) := by
  have hasc := hlaid.every.1.ascending
  have hhere := hlaid.plain here (.jumpIfNot target condition) (by simp)
  obtain ⟨-, hrest, -⟩ := ascending_append.mp hasc
  obtain ⟨-, hpost, -⟩ := ascending_append.mp (ascending_cons.mp hrest).2
  refine Intact.ahead hcode [] hb hasc (.ahead hhere) body_below (hpost.le_of_head post_above) ?_
    (by simp)
  exact fun d hd => (hcode d hd).not_mark_branch hhere

/-- The start of a counted loop is not a part of a switch. -/
theorem Kept.start_not_mark {pre body post : Block} {k here last back : UInt32}
    {start step condition : Token} (counts : sharesOneOperand start step = true)
    (hlaid : WellLaid code (pre ++ ⟨k, .plain start⟩ ::
      ⟨here, .whileLoop condition (body ++ [⟨last, .plain step⟩]) back⟩ :: post))
    (hb : Kept chains (pre ++ ⟨k, .plain start⟩ ::
      ⟨here, .whileLoop condition (body ++ [⟨last, .plain step⟩]) back⟩ :: post))
    {c : Chain} (hc : chains c) {t : Token}
    (hmem : ⟨c.here, .plain t⟩ ∈ pre ++ ⟨k, .plain start⟩ ::
      ⟨here, .whileLoop condition (body ++ [⟨last, .plain step⟩]) back⟩ :: post) :
    k ∉ c.marks := by
  intro hk
  have hstart := hlaid.plain k start (by simp)
  obtain ⟨-, hrest, -⟩ := ascending_append.mp hlaid.every.1.ascending
  have hhead := (ascending_cons.mp hrest).1 _ List.mem_cons_self
  have hloop : ⟨here, .whileLoop condition (body ++ [⟨last, .plain step⟩]) back⟩ ∈
      pre ++ ⟨k, .plain start⟩ ::
        ⟨here, .whileLoop condition (body ++ [⟨last, .plain step⟩]) back⟩ :: post := by simp
  rcases (hcode c hc).mark hk with ⟨rfl, -⟩ | ⟨hcase, -⟩ | ⟨-, destination, hjump⟩
  · -- Behind a switch comes its first label, not the loop.
    obtain ⟨j, next, value, rest', hnext⟩ := (hb.intact c hc t hmem).next (hcode c hc) hlaid
    simp at hnext
  · -- The step of the loop would count on the label.
    obtain ⟨hsource, hwhole⟩ := sourced_iff.mp hlaid.sourced _ hloop
    have hstep := (sourced_iff.mp ((Stmt.every_whileLoop ..).mp hwhole) ⟨last, .plain step⟩
      (by simp)).1
    obtain ⟨hfirst, hlast⟩ := hb.arranged _ hloop last step (by simp)
    have hnone := (hcode c hc).uncounted k hcase here last back start step hhead hfirst hlast hsource.2
      hstart hstep
    simp [hnone] at counts
  · -- A jump has no operands.
    obtain rfl : start = .jump destination := Option.some.inj (hstart.symm.trans hjump)
    simp [sharesOneOperand, Token.children] at counts

theorem Intact.forLoop {pre body post : Block} {k here last back : UInt32}
    {start step condition : Token} (counts : sharesOneOperand start step = true)
    (hlaid : WellLaid code (pre ++ ⟨k, .plain start⟩ ::
      ⟨here, .whileLoop condition (body ++ [⟨last, .plain step⟩]) back⟩ :: post))
    (hb : Kept chains (pre ++ ⟨k, .plain start⟩ ::
      ⟨here, .whileLoop condition (body ++ [⟨last, .plain step⟩]) back⟩ :: post)) :
    Intact chains (pre ++ post) := by
  have hsub : pre ++ post ⊆ pre ++ ⟨k, .plain start⟩ ::
      ⟨here, .whileLoop condition (body ++ [⟨last, .plain step⟩]) back⟩ :: post := by
    intro e he
    rcases List.mem_append.mp he with he | he <;> simp [he]
  refine hb.intact.of_subset hsub fun d hd _ t ht m hm token htoken => ?_
  have hne : m ≠ k := fun heq => Kept.start_not_mark hcode counts hlaid hb hd (hsub ht) (heq ▸ hm)
  simpa [hne] using htoken

theorem Intact.switch {pre own post : Block} {here : UInt32} {subject : Token}
    (hlaid : WellLaid code (pre ++ ⟨here, .plain (.switch subject)⟩ :: (own ++ post)))
    (hb : Intact chains (pre ++ ⟨here, .plain (.switch subject)⟩ :: (own ++ post))) :
    Intact chains (pre ++ post) := by
  have hhere := hlaid.plain here (.switch subject) (by simp)
  obtain ⟨-, hhead, hpre⟩ := ascending_append.mp hlaid.every.1.ascending
  obtain ⟨hbehind, hrest⟩ := ascending_cons.mp hhead
  obtain ⟨-, -, hown⟩ := ascending_append.mp hrest
  refine hb.of_subset (fun e he => ?_) fun d hd _ t ht m hm token htoken => ?_
  · rcases List.mem_append.mp he with he | he <;> simp [he]
  · rcases List.mem_append.mp ht with ht | ht
    · -- A switch in front is left in front.
      obtain ⟨exit, hexit, hlt⟩ := (hcode d hd).exit_lt_switch (hpre _ ht _ List.mem_cons_self) hhere
      have hfront : m < here := UInt32.lt_of_le_of_lt ((hcode d hd).le_exit hexit hm) hlt
      rcases List.mem_append.mp htoken with hin | hin
      · exact List.mem_append_left _ hin
      · rcases List.mem_cons.mp hin with heq | hin
        · simp only [Placed.mk.injEq] at heq
          exact absurd hfront (heq.1 ▸ UInt32.lt_irrefl _)
        · exact absurd hfront (UInt32.lt_asymm (hbehind _ hin))
    · -- A switch behind goes on from there.
      have hle := (hcode d hd).here_le hm
      have hlt := hbehind _ (List.mem_append_right own ht)
      simp only [List.mem_append, List.mem_cons] at htoken ⊢
      rcases htoken with hin | heq | hin | hin
      · exact .inl hin
      · simp only [Placed.mk.injEq] at heq
        exact absurd (UInt32.lt_of_lt_of_le hlt hle) (heq.1 ▸ UInt32.lt_irrefl _)
      · exact absurd (hown _ hin _ ht) (UInt32.not_lt.mpr hle)
      · exact .inr hin

omit hcode in
/-- No other switch stands among the statements that a switch takes. -/
theorem Intact.own_clear (hclosed : Closed code chains) {pre own post : Block} {here : UInt32}
    {subject : Token}
    (hlaid : WellLaid code (pre ++ ⟨here, .plain (.switch subject)⟩ :: (own ++ post)))
    (hb : Intact chains (pre ++ ⟨here, .plain (.switch subject)⟩ :: (own ++ post)))
    (extent : switchExtent false (own ++ post) = (own, post)) : Clear chains own := by
  intro c hc t ht
  have hhere := hlaid.plain here (.switch subject) (by simp)
  have hswitch := hlaid.plain c.here t (by simp [ht])
  obtain ⟨inner, hinner⟩ := (hclosed.undivided c hc).switch
  obtain ⟨-, hhead, -⟩ := ascending_append.mp hlaid.every.1.ascending
  have hlt := (ascending_cons.mp hhead).1 ⟨c.here, .plain t⟩ (by simp [ht])
  -- The switch that takes them is undivided as well, and the other is behind its exit.
  obtain ⟨d, hd, rfl⟩ := hclosed.earlier c hc here subject hhere hlt
  have hopened := (hb d hd (.switch subject) (by simp)).opened hlaid
  obtain ⟨exit, hexit, hbehind⟩ := (hclosed.undivided d hd).exit_lt_switch hlt hinner
  have hle := hopened.le_exit (hclosed.undivided d hd) hexit
  rw [extent] at hle
  exact absurd hbehind (UInt32.not_lt.mpr (hle _ ht))

end Cuts

/-! Applications. -/

section Applications
variable {code : UInt32 → Option Token} {chains : Chain → Prop}

/-- A loop takes the place of its target, in front of the statements it repeats. -/
theorem Intact.put_back {pre body post : Block} {here target : UInt32} {s s' : Stmt}
    (hb : Intact chains (pre ++ (body ++ ⟨here, s⟩ :: post)))
    (h : Intact chains (pre ++ post)) (hasc : Ascending (pre ++ (body ++ ⟨here, s⟩ :: post)))
    (pre_below : ∀ e ∈ pre.getLast?, e.offset < target) (hback : target < here)
    (hplain : ∀ token, s' ≠ .plain token) : Intact chains (pre ++ ⟨target, s'⟩ :: post) := by
  obtain ⟨hpre, hrest, -⟩ := ascending_append.mp hasc
  obtain ⟨-, hhere, -⟩ := ascending_append.mp hrest
  have hpost := (ascending_cons.mp hhere).1
  have hsub : pre ++ post ⊆ pre ++ (body ++ ⟨here, s⟩ :: post) := by
    intro e he
    rcases List.mem_append.mp he with he | he <;> simp [he]
  refine h.insert hplain fun c hc hwhole first hfirst hlt => ?_
  -- Between a switch in front and its first label behind there was the branch back.
  obtain ⟨token, htoken⟩ := hwhole.marks c.here List.mem_cons_self
  have hle := (hb c hc token (hsub htoken)).opens first hfirst here (by simp)
    (UInt32.lt_trans hlt hback)
  have hmem : first ∈ c.cases := List.mem_of_head? hfirst
  obtain ⟨t, ht⟩ := hwhole.marks first (by simp [Chain.marks, hmem])
  rcases List.mem_append.mp ht with ht | ht
  · exact UInt32.le_of_lt (hpre.lt_of_last pre_below _ ht)
  · exact absurd (hpost _ ht) (UInt32.not_lt.mpr hle)

/-- An application of a rule keeps switches in one piece, or regroups them. -/
theorem Collapse.kept (hclosed : Closed code chains) {inner : Block → Block} {rule : Rule}
    {b b' : Block} (hinner : ∀ c, Follows code chains c (inner c))
    (hstays : ∀ c, regroup (inner c) = inner c) (h : Collapse inner rule b b')
    (hlaid : WellLaid code b) (hb : Kept chains b) : Kept chains b' := by
  have htaken : ∀ c, WellLaid code c → TakenFrom b c → Intact chains c →
      Every (Finished chains) (inner c) :=
    fun c hc hsub hintact => hb.finish hclosed (hinner c) (hstays c) hc hsub hintact
  have hfinish : ∀ c, WellLaid code c → c ⊆ b → Intact chains c → Every (Finished chains) (inner c) :=
    fun c hc hsub => htaken c hc (takenFrom_of_subset hsub)
  cases h with
  | @forEach pre body post next here last expression marker ahead body_below =>
    obtain ⟨hin, hout⟩ := Intact.forEach hclosed.undivided hlaid hb.intact body_below
    have hbody := hfinish body hlaid.right.tail.left.left (fun e he => by simp [he]) hin
    exact hb.replace_from (fun e he => by simp [he]) hout (by simp) trivial
      ((Stmt.every_forEach ..).mpr hbody)
  | @doUntil pre body post here target condition back pre_below body_above =>
    obtain ⟨hin, hout⟩ := Intact.doUntil hclosed.undivided hlaid hb.intact pre_below body_above
    have hbody := hfinish body hlaid.right.left (fun e he => by simp [he]) hin
    exact hb.replace (fun e he => by simp [he])
      (hb.intact.put_back hout hlaid.every.1.ascending pre_below back (by simp)) trivial
      ((Stmt.every_doUntil ..).mpr hbody)
  | @ifElse pre body other post here target jump destination condition ahead further body_below
      jump_below rest_above other_below post_above =>
    obtain ⟨hin, hother, hout⟩ := Intact.ifElse hclosed.undivided hlaid hb.intact ahead further
      body_below jump_below rest_above other_below post_above
    have hbody := hfinish body hlaid.right.tail.left (fun e he => by simp [he]) hin
    have hother := hfinish other hlaid.right.tail.right.tail.left (fun e he => by simp [he]) hother
    exact hb.replace_from (fun e he => by simp [he]) hout (by simp) trivial
      ((Stmt.every_branch ..).mpr ⟨hbody, by simpa using hother⟩)
  | @whileLoop pre body post here target back condition ahead body_below back_below post_above =>
    obtain ⟨hin, hout⟩ := Intact.whileLoop hclosed.undivided hlaid hb.intact body_below post_above
    have hbody := hfinish body hlaid.right.tail.left (fun e he => by simp [he]) hin
    refine hb.replace_from (fun e he => by simp [he]) hout (by simp) ?_
      ((Stmt.every_whileLoop ..).mpr hbody)
    intro k token hk
    have hmem := (hinner body).plain k token hk
    obtain ⟨-, hhead, -⟩ := ascending_append.mp hlaid.every.1.ascending
    obtain ⟨hbehind, hrest⟩ := ascending_cons.mp hhead
    obtain ⟨-, -, hback⟩ := ascending_append.mp hrest
    exact ⟨hbehind _ (List.mem_append_left _ hmem), hback _ hmem _ List.mem_cons_self⟩
  | @forLoop pre body post k here last back start step condition counts =>
    have hout := Intact.forLoop hclosed.undivided counts hlaid hb
    have hloop := everyIn_iff.mp hb.inside
      ⟨here, .whileLoop condition (body ++ [⟨last, .plain step⟩]) back⟩ (by simp)
    obtain ⟨hwhole, hin⟩ := (Stmt.every_whileLoop ..).mp hloop
    have hbody : Every (Finished chains) body := by
      refine ⟨⟨fun c hc t ht => hwhole.clear c hc t (by simp [ht]), fun e he =>
        hwhole.arranged e (by simp [he])⟩, everyIn_iff.mpr fun e he => ?_⟩
      exact everyIn_iff.mp hin e (by simp [he])
    refine hb.replace_from (fun e he => by simp [he]) hout (by simp) ?_
      ((Stmt.every_forLoop ..).mpr hbody)
    refine fun c hc => ⟨?_, ?_⟩
    · rintro s ⟨⟩ rfl
      exact Kept.start_not_mark hclosed.undivided counts hlaid hb hc (t := start) (by simp)
        List.mem_cons_self
    · rintro s ⟨⟩ rfl
      exact hwhole.clear c hc step (by simp)
  | @plainIf pre body post here target condition ahead body_below post_above =>
    obtain ⟨hin, hout⟩ := Intact.plainIf hclosed.undivided hlaid hb.intact body_below post_above
    have hbody := hfinish body hlaid.right.tail.left (fun e he => by simp [he]) hin
    exact hb.replace_from (fun e he => by simp [he]) hout (by simp) trivial
      ((Stmt.every_branch ..).mpr ⟨hbody, by simp⟩)
  | @switch pre own post here subject opens extent =>
    have hout := Intact.switch hclosed.undivided hlaid hb.intact
    have hclear := hb.intact.own_clear hclosed hlaid extent
    refine hb.replace_from (fun e he => by simp [he]) hout (by simp) ?_
      ((Stmt.every_switch ..).mpr fun arm harm => ?_)
    · rintro c hc rfl
      have hopened := (hb.intact c hc (.switch subject) (by simp)).opened hlaid
      have harms := hopened.arms_eq (hclosed.undivided c hc)
      rw [extent] at harms
      simpa [regroupArms, Function.comp_def] using harms
    · obtain ⟨a, ha, rfl⟩ := List.mem_map.mp harm
      have hcut := (mem_splitArms_snd ha).2
      have hbody := hcut.takenFrom (List.Subset.refl own)
      refine htaken _ (hlaid.right.tail.left.cutFrom hcut) ?_ fun c hc t ht => ?_
      · exact hcut.takenFrom fun e he => by simp [he]
      · rcases hbody _ ht with hmem | hleave
        · exact absurd hmem (hclear c hc t)
        · simp at hleave

theorem follows_regroup (hclosed : Closed code chains) (b : Block) :
    Follows code chains b (regroup b) := by
  refine regroup_rel Follows.refl Follows.trans Follows.nil ?_ b
  intro inner hinner hstays rule b b' h
  exact ⟨h.keepsLayout fun c => (hinner c).layout, fun k token => h.plain_mem,
    h.kept hclosed hinner hstays⟩

end Applications

end Rule

namespace Block

open Rule

/-! The tree of a list of instructions. -/

/-- The code itself has its switches in one piece. -/
theorem kept_of_flat {block : Block} {chains : Chain → Prop} (hasc : Ascending block)
    (hflat : Flat block) (hclosed : Closed (tokenAt block) chains) : Kept chains block := by
  refine ⟨fun c hc token _ => ?_, fun e he => ?_, everyIn_of_flat hflat⟩
  · have hundivided := hclosed.undivided c hc
    refine ⟨fun m hm => ?_, fun first hfirst k hk hlt => UInt32.not_lt.mp fun hbefore => ?_⟩
    · rcases hundivided.mark hm with ⟨-, _, hcode⟩ | ⟨-, _, _, hcode⟩ | ⟨-, _, hcode⟩
      all_goals exact ⟨_, mem_of_tokenAt hcode⟩
    · -- Every statement of the code is an instruction of it.
      obtain ⟨⟨k, s⟩, he, rfl⟩ := mem_keys.mp hk
      obtain ⟨t, rfl⟩ := hflat _ he
      have hnone := (hundivided.opens first hfirst).2 k hlt hbefore
      simp [tokenAt_of_mem hasc he] at hnone
  · obtain ⟨t, ht⟩ := hflat e he
    simp [ht, Stmt.Arranged]

/-- Where the offset of an undivided switch stands among the statements of a finished
block. -/
theorem owner_of_finished {code : UInt32 → Option Token} {chains : Chain → Prop} {block : Block}
    {c : Chain} (hc : chains c) (hundivided : Undivided code c) (hfinished : Finished chains block)
    (hsourced : ∀ e ∈ block, e.item.Sourced code e.offset) {k : UInt32} {s : Stmt}
    (he : ⟨k, s⟩ ∈ block) (hown : c.here ∈ s.own k) :
    k = c.here ∧ ∃ subject arms, s = .switch subject arms ∧ arms.map (·.offset) = c.cases := by
  obtain ⟨subject, hswitch⟩ := hundivided.switch
  have hsource : s.Sourced code k := hsourced _ he
  have harranged : s.Arranged chains k := hfinished.arranged _ he
  cases s with
  | plain token =>
    obtain rfl : c.here = k := by simpa [Stmt.own] using hown
    exact absurd he (hfinished.clear c hc token)
  | leave =>
    obtain rfl : c.here = k := by simpa [Stmt.own] using hown
    obtain ⟨target, hjump⟩ := hsource
    simp [hswitch] at hjump
  | branch condition body otherwise =>
    obtain ⟨target, hbranch, -, hother⟩ := hsource
    rcases List.mem_cons.mp hown with rfl | hown
    · simp [hswitch] at hbranch
    · obtain ⟨o, ho, hjump⟩ := List.mem_map.mp hown
      obtain ⟨destination, hsource, -⟩ := hother o (by simpa using ho)
      simp [hjump, hswitch] at hsource
  | whileLoop condition body back =>
    obtain ⟨⟨target, hbranch⟩, hback⟩ := hsource
    obtain rfl | rfl : c.here = k ∨ c.here = back := by simpa [Stmt.own] using hown
    · simp [hswitch] at hbranch
    · simp [hswitch] at hback
  | doUntil condition body =>
    obtain ⟨hbranch, -⟩ := hsource
    have heq : c.here = condition.offset := by simpa [Stmt.own] using hown
    simp [← heq, hswitch] at hbranch
  | forLoop start condition step body back =>
    obtain ⟨first, test, last, target, rfl, rfl, rfl, -, htest, -, hback⟩ := hsource
    obtain ⟨hstart, hstep⟩ := harranged c hc
    have hne := hstart ⟨k, first⟩ rfl
    have hne' := hstep last rfl
    have hcases : c.here = k ∨ c.here = test.offset ∨ c.here = last.offset ∨ c.here = back := by
      simpa [Stmt.own] using hown
    rcases hcases with heq | heq | heq | rfl
    · exact absurd heq.symm hne
    · simp [← heq, hswitch] at htest
    · exact absurd heq.symm hne'
    · simp [hswitch] at hback
  | forEach iterator body next last =>
    obtain ⟨hiterator, hnext⟩ := hsource
    have hcases : c.here = k ∨ c.here ∈ next ∨ c.here = last := by
      simpa [Stmt.own, eq_comm] using hown
    rcases hcases with rfl | hmem | rfl
    · simp [hswitch] at hiterator
    · have hstep := hnext c.here hmem
      simp [hswitch] at hstep
    · exact absurd List.mem_cons_self (hundivided.ends k iterator _ hiterator)
  | switch subject arms =>
    obtain ⟨-, harms⟩ := hsource
    rcases List.mem_cons.mp hown with rfl | hown
    · exact ⟨rfl, subject, arms, rfl, harranged c hc rfl⟩
    · obtain ⟨arm, harm, heq⟩ := List.mem_map.mp hown
      obtain ⟨next, value, hcase, -⟩ := harms arm harm
      simp [heq, hswitch] at hcase

/-- A switch gets exactly the labels that its links lead to: where a switch of the code is
undivided, and all in front of it are, the tree has a statement for it, with a case at each
label of its chain and at no others. -/
theorem switch_cases_eq (code : List Instruction)
    (ends : ∀ i ∈ code, ∀ expression last, i.item = .iterator expression last → i.offset < last →
      ∃ j ∈ code, j.offset = last)
    {c : Chain} (hchain : Undivided (tokenAt (ofInstructions code)) c)
    (earlier : ∀ k subject, tokenAt (ofInstructions code) k = some (.switch subject) → k < c.here →
      ∃ d : Chain, d.here = k ∧ Undivided (tokenAt (ofInstructions code)) d) :
    ∃ part ∈ parts (regroup (ofInstructions code)), ∃ subject arms,
      ⟨c.here, .switch subject arms⟩ ∈ part.block ∧ arms.map (·.offset) = c.cases := by
  have hcode := Rule.anchored_ofInstructions ends
  have hlaid := wellLaid_ofInstructions code
  let chains : Chain → Prop := fun d => Undivided (tokenAt (ofInstructions code)) d ∧ d.here ≤ c.here
  have hclosed : Closed (tokenAt (ofInstructions code)) chains := by
    refine ⟨fun d hd => hd.1, fun d hd k subject hk hlt => ?_⟩
    have hbefore := UInt32.lt_of_lt_of_le hlt hd.2
    obtain ⟨e, rfl, he⟩ := earlier k subject hk hbefore
    exact ⟨e, ⟨he, UInt32.le_of_lt hbefore⟩, rfl⟩
  have hkept := kept_of_flat hcode.ascending hcode.flat hclosed
  have hfinished := hkept.finish hclosed (follows_regroup hclosed (ofInstructions code))
    (regroup_idem _) hlaid (takenFrom_of_subset (List.Subset.refl _)) hkept.intact
  -- The tree stands for the offset of the switch, and only a switch can own it.
  obtain ⟨subject, hswitch⟩ := hchain.switch
  have hoffset : c.here ∈ offsets (regroup (ofInstructions code)) := by
    rw [regroup, Rule.regroupWithin_anchored _ hcode, hcode.flat.offsets_eq]
    exact mem_keys.mpr ⟨_, mem_of_tokenAt hswitch, rfl⟩
  obtain ⟨part, hpart, ⟨k, s⟩, he, hown⟩ := exists_part_owns hoffset
  have hsourced := Rule.sourced_regroupWithin (plainCount (ofInstructions code) + 1) hlaid.sourced
  obtain ⟨rfl, subject, arms, rfl, hcases⟩ := owner_of_finished ⟨hchain, UInt32.le_refl _⟩ hchain
    (Every.of_mem_parts hfinished hpart) (Every.of_mem_parts hsourced hpart) he hown
  exact ⟨part, hpart, subject, arms, he, hcases⟩

/-- A switch with a branch in one of its cases, inside a loop. -/
def switchInLoop : List Instruction :=
  [⟨0, .jumpIfNot 30 (.localVariable "w")⟩, ⟨2, .switch (.localVariable "a")⟩,
    ⟨4, .case 14 (some (.intConst 1))⟩, ⟨6, .jumpIfNot 10 (.localVariable "c")⟩, ⟨8, .stop⟩,
    ⟨10, .jump 20⟩, ⟨14, .case Token.defaultLink none⟩, ⟨16, .jump 20⟩, ⟨20, .jump 0⟩, ⟨30, .stop⟩]

theorem undivided_switchInLoop :
    Undivided (tokenAt (ofInstructions switchInLoop)) ⟨2, [4, 14], some 16⟩ := by
  have hlabel : ∀ {k next value}, tokenAt (ofInstructions switchInLoop) k = some (.case next value) →
      k = 4 ∨ k = 14 := by
    intro k next value h
    have hmem := mem_code_of_tokenAt h
    simp only [switchInLoop, List.mem_cons, Placed.mk.injEq, reduceCtorEq] at hmem
    grind
  have hbranch : ∀ {k target condition},
      tokenAt (ofInstructions switchInLoop) k = some (.jumpIfNot target condition) →
      k = 0 ∧ target = 30 ∨ k = 6 ∧ target = 10 := by
    intro k target condition h
    have hmem := mem_code_of_tokenAt h
    simp only [switchInLoop, List.mem_cons, Placed.mk.injEq, reduceCtorEq] at hmem
    grind
  have hjump : ∀ {k destination}, tokenAt (ofInstructions switchInLoop) k = some (.jump destination) →
      k = 10 ∧ destination = 20 ∨ k = 16 ∧ destination = 20 ∨ k = 20 ∧ destination = 0 := by
    intro k destination h
    simpa [switchInLoop] using mem_code_of_tokenAt h
  refine ⟨⟨_, rfl⟩, .link rfl (by decide) rfl (by decide) (.default rfl), ?_, ?_, ?_, ?_, ?_, ?_⟩
  · rintro first ⟨⟩
    refine ⟨by decide, fun k hlt hlt' => ?_⟩
    obtain rfl : k = 3 := by grind
    rfl
  · rintro exit ⟨⟩
    refine ⟨by simp, 20, rfl, by decide, fun k target condition h hlt hlt' => ?_⟩
    obtain ⟨rfl, rfl⟩ | ⟨rfl, rfl⟩ := hbranch h
    · decide
    · exact absurd hlt' (by decide)
  · rintro k hlt (⟨subject, h⟩ | ⟨next, value, h⟩)
    · obtain ⟨rfl, -⟩ : k = 2 ∧ subject = .localVariable "a" := by
        simpa [switchInLoop] using mem_code_of_tokenAt h
      exact absurd hlt (by decide)
    · exact .inl (by simpa using hlabel h)
  · intro low high hcut
    cases hcut with
    | ahead h =>
      obtain ⟨rfl, rfl⟩ | ⟨rfl, rfl⟩ := hbranch h
      · exact .inl (by simp [Chain.marks])
      · exact .inr (by simp [Chain.marks])
    | back h => obtain ⟨rfl, rfl⟩ | ⟨rfl, rfl⟩ := hbranch h <;> exact .inr (by simp [Chain.marks])
    | other h leaves inside =>
      obtain ⟨rfl, rfl⟩ | ⟨rfl, rfl⟩ := hbranch h
      · obtain ⟨rfl, rfl⟩ | ⟨rfl, rfl⟩ | ⟨rfl, rfl⟩ := hjump leaves <;>
          exact .inr (by simp [Chain.marks])
      · obtain ⟨rfl, rfl⟩ | ⟨rfl, rfl⟩ | ⟨rfl, rfl⟩ := hjump leaves <;> exact absurd inside (by simp)
    | loop h => simpa [switchInLoop] using mem_code_of_tokenAt h
  · intro k expression last h
    simpa [switchInLoop] using mem_code_of_tokenAt h
  · intro k hk header step back label token hlt hlt' hlt'' h
    obtain ⟨rfl, rfl⟩ | ⟨rfl, rfl⟩ | ⟨rfl, rfl⟩ := hjump h <;> grind

/-- The switch keeps its two labels through the loop around it and the branch in it. -/
theorem switch_cases_switchInLoop :
    Undivided (tokenAt (ofInstructions switchInLoop)) ⟨2, [4, 14], some 16⟩ ∧
    ∃ part ∈ parts (regroup (ofInstructions switchInLoop)), ∃ subject arms,
      ⟨2, .switch subject arms⟩ ∈ part.block ∧ arms.map (·.offset) = [4, 14] := by
  refine ⟨undivided_switchInLoop, switch_cases_eq switchInLoop (by simp [switchInLoop])
    undivided_switchInLoop fun k subject h hlt => ?_⟩
  obtain ⟨rfl, -⟩ : k = 2 ∧ subject = .localVariable "a" := by
    simpa [switchInLoop] using mem_code_of_tokenAt h
  exact absurd hlt (by decide)

/-- A switch in a case of another one. Its labels stand before the exit of the outer
switch, which takes them in place of its own default at 20. -/
def switchInCase : List Instruction :=
  [⟨0, .switch (.localVariable "a")⟩, ⟨2, .case 20 (some (.intConst 1))⟩,
    ⟨4, .switch (.localVariable "b")⟩, ⟨6, .case 12 (some (.intConst 5))⟩, ⟨8, .stop⟩, ⟨10, .jump 18⟩,
    ⟨12, .case Token.defaultLink none⟩, ⟨14, .stop⟩, ⟨16, .jump 18⟩, ⟨18, .jump 30⟩,
    ⟨20, .case Token.defaultLink none⟩, ⟨22, .stop⟩, ⟨24, .jump 30⟩, ⟨30, .stop⟩]

example : ∃ arms rest, regroup (ofInstructions switchInCase) =
    ⟨0, .switch (.localVariable "a") arms⟩ :: rest ∧ arms.map (·.offset) = [2, 6, 12] :=
  ⟨_, _, rfl, rfl⟩

end Block

end ScriptLift
