import ScriptLift.Proofs.Stability

/- The entry of a counted loop.

   A loop is read as a counted one when the plain instruction in front of it shares
   exactly one operand with the last of its body. The rule asks for no more, so a branch,
   an iterator or a case label may be taken for the start of the loop, and other branches
   of the code may go to its condition.

   What does hold of every counted loop (`Stmt.Counted`): its start is not a branch back,
   since those are used up in an earlier pass of the round, and its step is not a branch
   to anywhere else, since the body it was taken from was idle. And a counted loop stands
   for all instructions from its start to its jump back, so that exactly the branches in
   front of the start and behind that jump enter it past its start. -/
namespace ScriptLift

/-- What the start and the step of a counted loop at `here` are. -/
def Stmt.Counted (here : UInt32) : Stmt → Prop
  | .forLoop start _ step _ _ =>
    ∃ first last, start = some ⟨here, first⟩ ∧ step = some last ∧
      Rule.sharesOneOperand first last.item = true ∧
      (∀ target condition, first = .jumpIfNot target condition → here ≤ target) ∧
      ∀ target condition, last.item = .jumpIfNot target condition → target = last.offset
  | _ => True

namespace Block

/-- The starts and steps of the counted loops among the statements are as they should
be. -/
def AllCounted (block : Block) : Prop := ∀ e ∈ block, e.item.Counted e.offset

/-- No branch among the statements goes back. -/
def NoneBack (block : Block) : Prop :=
  ∀ k target condition, ⟨k, .plain (.jumpIfNot target condition)⟩ ∈ block → k ≤ target

/-- All counted loops at every depth, above idle blocks. -/
structure Counted (b : Block) : Prop where
  every : Every AllCounted b
  inside : Rule.IdleInside b

theorem AllCounted.takenFrom {b c : Block} (hb : AllCounted b) (hc : Rule.TakenFrom b c) :
    AllCounted c := by
  intro e he
  rcases hc e he with hmem | hleave
  · exact hb e hmem
  · simp [hleave, Stmt.Counted]

end Block

namespace Rule

open Block

/-! Applications. -/

/-- A counted loop gets its start from a block without branches back, and its step from
an idle body. -/
theorem Collapse.allCounted {inner : Block → Block} {rule : Rule} {b b' : Block}
    (h : Collapse inner rule b b') (hahead : rule = .forLoop → NoneBack b) (hb : AllCounted b)
    (hinside : IdleInside b) : AllCounted b' := by
  unfold AllCounted at hb ⊢
  cases h with
  | @forLoop pre body post k here last back start step condition counts =>
    have hloop := everyIn_iff.mp hinside.every
      ⟨here, .whileLoop condition (body ++ [⟨last, .plain step⟩]) back⟩ (by simp)
    have hidle : Idle (body ++ [⟨last, .plain step⟩]) := ((Stmt.every_whileLoop ..).mp hloop).1
    simp only [List.forall_mem_append, List.forall_mem_cons] at hb ⊢
    refine ⟨hb.1, ⟨start, ⟨last, step⟩, rfl, rfl, counts, ?_, ?_⟩, hb.2.2.2⟩
    · rintro target condition rfl
      exact hahead rfl k target condition (by simp)
    · rintro target condition rfl
      have hlast : ⟨last, .plain (.jumpIfNot target condition)⟩ ∈
        body ++ [⟨last, .plain (.jumpIfNot target condition)⟩] := by simp
      exact hidle.branch hlast
  | forEach | doUntil | ifElse | whileLoop | plainIf | switch =>
    intro e he
    rcases List.mem_append.mp he with he | he
    · exact hb e (List.mem_append_left _ he)
    · rcases List.mem_cons.mp he with rfl | he
      · trivial
      · exact hb e (by simp [he])

theorem Collapse.counted {inner : Block → Block} {rule : Rule} {b b' : Block}
    (hinner : ∀ c, Counted c → Counted (inner c)) (hstays : ∀ c, regroup (inner c) = inner c)
    (h : Collapse inner rule b b') (hahead : rule = .forLoop → NoneBack b) (hb : Counted b) :
    Counted b' := by
  have htaken : ∀ c, TakenFrom b c → Counted (inner c) := fun c hc =>
    hinner c ⟨⟨hb.every.1.takenFrom hc, hc.everyIn hb.every.2⟩, ⟨hc.everyIn hb.inside.every⟩⟩
  refine ⟨⟨h.allCounted hahead hb.every.1 hb.inside, ?_⟩, ?_⟩
  · refine h.everyIn (fun c hc _ => (htaken c hc).every) ?_ hb.every.2
    exact fun c e hc x hx => hc x (by simp [hx])
  · exact h.idleInside (fun c hc _ => (htaken c hc).inside) hstays hb.inside

/-! Rounds. -/

/-- The pass for loops that end in their condition leaves no branch back. -/
theorem noneBack_scanFrom {inner : Block → Block} {fuel : Nat} {before after : Block}
    (hfuel : after.length ≤ fuel) (hbefore : NoneBack before) :
    NoneBack (doUntil.scanFrom inner fuel before after).1 := by
  fun_induction scanFrom inner doUntil fuel before after with
  | case1 before after =>
    obtain rfl : after = [] := by simpa using hfuel
    exact fun k target condition hk => hbefore k target condition (by simpa using hk)
  | case2 fuel before =>
    exact fun k target condition hk => hbefore k target condition (by simpa using hk)
  | case3 fuel before here s after happly ih =>
    refine ih (by simpa using hfuel) fun k target condition hk => ?_
    rcases List.mem_cons.mp hk with heq | hk
    · cases heq
      simp only [apply, applyDoUntil] at happly
      exact UInt32.not_lt.mp fun back => by simp [back] at happly
    · exact hbefore k target condition hk
  | case4 fuel before here s after before' after' happly ih =>
    have hlen := (apply_suffix happly).length_le
    simp only [apply, applyDoUntil] at happly
    split at happly
    · next target condition =>
      split at happly
      · simp only [Option.some.injEq, Prod.mk.injEq] at happly
        obtain ⟨rfl, rfl⟩ := happly
        refine ih (Nat.le_of_succ_le_succ hfuel) fun k t c hk => hbefore k t c ?_
        have hsub := (List.dropWhile_sublist (fun x : Placed Stmt => decide (target ≤ x.offset))
          (l := before)).subset
        exact hsub (by simpa using hk)
      · simp at happly
    · simp at happly

theorem counted_round {inner : Block → Block} (hinner : ∀ c, Counted c → Counted (inner c))
    (hstays : ∀ c, regroup (inner c) = inner c) {b : Block} (hb : Counted b) :
    Counted (scanAll inner order b).1 := by
  have hscan : ∀ rule : Rule, rule ≠ .forLoop → ∀ c, Counted c → Counted (rule.scan inner c).1 :=
    fun rule hrule => scan_rel (R := fun b b' => Counted b → Counted b') (fun _ h => h)
      (fun hab hbc h => hbc (hab h)) fun h => h.counted hinner hstays (fun heq => absurd heq hrule)
  have hloops := hscan .forEach (by simp) b hb
  have huntil := hscan .doUntil (by simp) _ hloops
  have hahead : NoneBack (doUntil.scan inner (forEach.scan inner b).1).1 :=
    noneBack_scanFrom (Nat.le_refl _) (by simp [NoneBack])
  -- The later rules of the round see no branch back, for they leave no new plain instructions.
  have hlater := scanAll_rel (R := fun b b' => Counted b ∧ NoneBack b → Counted b' ∧ NoneBack b')
    (fun _ h => h) (fun hab hbc h => hbc (hab h)) [.ifElse, .whileLoop, .forLoop, .plainIf, .switch]
    (fun _ _ _ _ h hb => ⟨h.counted hinner hstays (fun _ => hb.2) hb.1,
      fun k target condition hk => hb.2 k target condition (h.plain_mem hk)⟩) _ ⟨huntil, hahead⟩
  rw [order, scanAll_cons_fst, scanAll_cons_fst]
  exact hlater.1

theorem counted_regroup {b : Block} (hb : Counted b) : Counted (regroup b) :=
  regroup_rounds (R := fun b b' => Counted b → Counted b') (fun _ h => h)
    (fun hab hbc h => hbc (hab h))
    (fun b _ => ⟨⟨by simp [AllCounted], by simp [EveryIn]⟩, ⟨by simp [EveryIn]⟩⟩)
    (fun _ hinner hstays _ => counted_round hinner hstays) b hb

end Rule

namespace Block

/-! Stretches of the code. -/

/-- A stretch of an ascending list is all of it that lies between the ends of the
stretch. -/
theorem mem_stretch_iff {front inside beyond : List UInt32} {low high : UInt32}
    (h : (front ++ (low :: (inside ++ [high])) ++ beyond).Pairwise (· < ·)) {k : UInt32} :
    k ∈ low :: (inside ++ [high]) ↔
      k ∈ front ++ (low :: (inside ++ [high])) ++ beyond ∧ low ≤ k ∧ k ≤ high := by
  obtain ⟨hfirst, -, hbeyond⟩ := List.pairwise_append.mp h
  obtain ⟨-, hown, hfront⟩ := List.pairwise_append.mp hfirst
  obtain ⟨hlow, hrest⟩ := List.pairwise_cons.mp hown
  obtain ⟨-, -, hhigh⟩ := List.pairwise_append.mp hrest
  constructor
  · intro hk
    refine ⟨List.mem_append_left _ (List.mem_append_right _ hk), ?_⟩
    simp only [List.mem_cons, List.mem_append, List.not_mem_nil, or_false] at hk
    rcases hk with rfl | hk | rfl
    · exact ⟨UInt32.le_refl _, UInt32.le_of_lt (hlow high (by simp))⟩
    · exact ⟨UInt32.le_of_lt (hlow k (by simp [hk])), UInt32.le_of_lt (hhigh k hk high (by simp))⟩
    · exact ⟨UInt32.le_of_lt (hlow k (by simp)), UInt32.le_refl _⟩
  · rintro ⟨hk, hle, hge⟩
    rcases List.mem_append.mp hk with hk | hk
    · rcases List.mem_append.mp hk with hk | hk
      · exact absurd (hfront k hk low (by simp)) (UInt32.not_lt.mpr hle)
      · exact hk
    · exact absurd (hbeyond high (by simp) k hk) (UInt32.not_lt.mpr hge)

/-- The instruction at `k` goes to `target`, always or on a condition. -/
def Branches (code : UInt32 → Option Token) (k target : UInt32) : Prop :=
  code k = some (.jump target) ∨ ∃ condition, code k = some (.jumpIfNot target condition)

theorem Branches.mem_keys {block : Block} {k target : UInt32} (h : Branches (tokenAt block) k target) :
    k ∈ keys block := by
  rcases h with hjump | ⟨condition, hbranch⟩
  · exact Block.mem_keys.mpr ⟨_, mem_of_tokenAt hjump, rfl⟩
  · exact Block.mem_keys.mpr ⟨_, mem_of_tokenAt hbranch, rfl⟩

theorem counted_of_flat {block : Block} (h : Flat block) : Counted block := by
  refine ⟨⟨fun e he => ?_, everyIn_of_flat h⟩, ⟨everyIn_of_flat h⟩⟩
  obtain ⟨token, htoken⟩ := h e he
  simp [htoken, Stmt.Counted]

/-- Of every counted loop in the tree of a list of instructions: its start and its step
share exactly one operand, its start is not a branch back, and its step not a branch to
anywhere else. It stands for exactly the instructions from its start to its jump back,
so all branches to its condition are its own exactly when none stands in front of its
start or behind its jump back. -/
theorem forLoop_entry_iff (code : List Instruction)
    (ends : ∀ i ∈ code, ∀ expression last, i.item = .iterator expression last → i.offset < last →
      ∃ j ∈ code, j.offset = last)
    {part : Part} {here back : UInt32} {start condition step : Option (Placed Token)} {body : Block}
    (hpart : part ∈ parts (regroup (ofInstructions code)))
    (hloop : ⟨here, .forLoop start condition step body back⟩ ∈ part.block) :
    ∃ first test last, start = some ⟨here, first⟩ ∧ condition = some test ∧ step = some last ∧
      Rule.sharesOneOperand first last.item = true ∧
      (∀ target c, first = .jumpIfNot target c → here ≤ target) ∧
      (∀ target c, last.item = .jumpIfNot target c → target = last.offset) ∧
      (∀ k, k ∈ (Stmt.forLoop start condition step body back).offsets here ↔
        k ∈ keys (ofInstructions code) ∧ here ≤ k ∧ k ≤ back) ∧
      ((∀ k, Branches (tokenAt (ofInstructions code)) k test.offset →
          k ∈ (Stmt.forLoop start condition step body back).offsets here) ↔
        ∀ k, Branches (tokenAt (ofInstructions code)) k test.offset → here ≤ k ∧ k ≤ back) := by
  have hcode := Rule.anchored_ofInstructions ends
  have hsourced := Rule.sourced_regroupWithin (plainCount (ofInstructions code) + 1)
    (sourced_of_flat hcode.ascending hcode.flat (List.Subset.refl _))
  have hcounted := (Rule.counted_regroup (counted_of_flat hcode.flat)).every
  have hparts : (Stmt.forLoop start condition step body back).Counted here :=
    Every.of_mem_parts hcounted hpart _ hloop
  have hsource : (Stmt.forLoop start condition step body back).Sourced
      (tokenAt (ofInstructions code)) here := Every.of_mem_parts hsourced hpart _ hloop
  obtain ⟨first, last, rfl, rfl, hshares, hfirst, hlast⟩ := hparts
  obtain ⟨-, test, -, -, -, rfl, -⟩ := hsource
  -- The loop is a stretch of the offsets of the tree, and these are those of the code.
  have hoffsets : offsets (regroup (ofInstructions code)) = keys (ofInstructions code) := by
    rw [regroup, Rule.regroupWithin_anchored _ hcode, hcode.flat.offsets_eq]
  obtain ⟨front, hfront⟩ := endsIn_of_mem_parts hpart
  obtain ⟨pre, post, hsplit⟩ := List.append_of_mem hloop
  have hstretch : keys (ofInstructions code) = (front ++ offsets pre) ++ (here :: ((test.offset ::
      (offsets body ++ [last.offset])) ++ [back])) ++ (offsets post ++ part.beyond) := by
    rw [← hoffsets, hfront, hsplit]
    simp [offsets, Stmt.offsets]
  have hown : ∀ k, k ∈ (Stmt.forLoop (some ⟨here, first⟩) (some test) (some last) body back).offsets
      here ↔ k ∈ keys (ofInstructions code) ∧ here ≤ k ∧ k ≤ back := by
    intro k
    have hasc : (keys (ofInstructions code)).Pairwise (· < ·) := hcode.ascending
    rw [hstretch] at hasc ⊢
    rw [← mem_stretch_iff hasc]
    simp [Stmt.offsets]
  refine ⟨first, test, last, rfl, rfl, rfl, hshares, hfirst, hlast, hown, ?_⟩
  refine forall₂_congr fun k hk => ?_
  rw [hown]
  exact and_iff_right hk.mem_keys

/-- A branch over the statement in front of a loop, to the condition of the loop. -/
def skipsStart : List Instruction :=
  [⟨0, .jumpIfNot 10 (.localVariable "x")⟩, ⟨5, .assign (.localVariable "i") (.intConst 0)⟩,
    ⟨10, .jumpIfNot 30 (.localVariable "c")⟩, ⟨20, .postfixOp "++" (.localVariable "i")⟩,
    ⟨25, .jump 10⟩, ⟨30, .stop⟩]

/-- The counted loop stands for 5 to 25, and the branch at 0 enters it at 10. -/
theorem forLoop_entry_skipsStart :
    ∃ part ∈ parts (regroup (ofInstructions skipsStart)), ∃ body,
      ⟨5, .forLoop (some ⟨5, .assign (.localVariable "i") (.intConst 0)⟩)
        (some ⟨10, .localVariable "c"⟩) (some ⟨20, .postfixOp "++" (.localVariable "i")⟩) body 25⟩ ∈
          part.block ∧
      Branches (tokenAt (ofInstructions skipsStart)) 0 10 ∧
      ¬ ∀ k, Branches (tokenAt (ofInstructions skipsStart)) k 10 →
        k ∈ (Stmt.forLoop (some ⟨5, .assign (.localVariable "i") (.intConst 0)⟩)
          (some ⟨10, .localVariable "c"⟩) (some ⟨20, .postfixOp "++" (.localVariable "i")⟩) body
          25).offsets 5 := by
  have htree : regroup (ofInstructions skipsStart) =
      [⟨0, .branch (.localVariable "x")
        [⟨5, .forLoop (some ⟨5, .assign (.localVariable "i") (.intConst 0)⟩)
          (some ⟨10, .localVariable "c"⟩) (some ⟨20, .postfixOp "++" (.localVariable "i")⟩) [] 25⟩]
        none⟩, ⟨30, .plain .stop⟩] := rfl
  have hpart : (⟨[⟨5, .forLoop (some ⟨5, .assign (.localVariable "i") (.intConst 0)⟩)
      (some ⟨10, .localVariable "c"⟩) (some ⟨20, .postfixOp "++" (.localVariable "i")⟩) [] 25⟩],
      [30]⟩ : Part) ∈ parts (regroup (ofInstructions skipsStart)) := by
    rw [htree]
    simp [parts, partsIn, Stmt.parts, offsets, Stmt.offsets]
  have hskips : Branches (tokenAt (ofInstructions skipsStart)) 0 10 := .inr ⟨_, rfl⟩
  have hloop := List.mem_singleton_self (⟨5, .forLoop
    (some ⟨5, .assign (.localVariable "i") (.intConst 0)⟩) (some ⟨10, .localVariable "c"⟩)
    (some ⟨20, .postfixOp "++" (.localVariable "i")⟩) [] 25⟩ : Placed Stmt)
  obtain ⟨first, test, last, -, htest, -, -, -, -, -, hiff⟩ :=
    forLoop_entry_iff skipsStart (by simp [skipsStart]) hpart hloop
  obtain rfl : ⟨10, .localVariable "c"⟩ = test := Option.some.inj htest
  refine ⟨_, hpart, [], hloop, hskips, fun hall => ?_⟩
  have hbetween := hiff.mp hall 0 hskips
  exact absurd hbetween.1 (by decide)

end Block

end ScriptLift
