import ScriptLift.Proofs.Lossless
import ScriptLift.Proofs.Provenance

/- Where a branch exits.

   After an if, the code goes on at the target of its branch, or, when it has a
   second part, at the target of the jump that ends its first part (`Stmt.exit?`).
   A rule takes everything in front of that exit into the statement, as far as its
   block goes, so whatever follows in the same block lies at or behind the exit,
   and no later application changes that (`Collapse.laidOut`).

   The block itself may have been cut out of a larger one whose rest the branch
   skips too. There the statement ends where its block ends, in front of its exit:
   the exit is right exactly when it does not lie behind what follows the block. -/
namespace ScriptLift

/-- Where the code goes on after a branch at `here`. -/
def Stmt.exit? (code : UInt32 → Option Token) (here : UInt32) : Stmt → Option UInt32
  | .branch _ _ none =>
    match code here with
    | some (.jumpIfNot target _) => some target
    | _ => none
  | .branch _ _ (some ⟨jump, _⟩) =>
    match code jump with
    | some (.jump destination) => some destination
    | _ => none
  | _ => none

namespace Block

/-- Every offset of `x` is at or behind the exit of `e`. -/
def ExitsBefore (code : UInt32 → Option Token) (e x : Placed Stmt) : Prop :=
  ∀ exit ∈ e.item.exit? code e.offset, ∀ k ∈ x.item.offsets x.offset, exit ≤ k

/-- The statements of a block stand in order, none in front of its own offset, and
none in front of the exit of an earlier one. -/
structure LaidOut (code : UInt32 → Option Token) (block : Block) : Prop where
  ascending : Ascending block
  keyed : ∀ e ∈ block, ∀ k ∈ e.item.offsets e.offset, e.offset ≤ k
  exits : block.Pairwise (ExitsBefore code)

theorem mem_offsets {block : Block} {k : UInt32} :
    k ∈ offsets block ↔ ∃ e ∈ block, k ∈ e.item.offsets e.offset := by
  induction block with
  | nil => simp [offsets]
  | cons e rest ih => simp [offsets, ih]

theorem LaidOut.sublist {code : UInt32 → Option Token} {b c : Block} (h : LaidOut code b)
    (hc : c.Sublist b) : LaidOut code c where
  ascending := h.ascending.of_keys_sublist (hc.map _)
  keyed := fun e he => h.keyed e (hc.subset he)
  exits := h.exits.sublist hc

end Block

namespace Rule

open Block

variable {code : UInt32 → Option Token}

theorem exit?_leaving (here : UInt32) (s : Stmt) : (leaving s).exit? code here = s.exit? code here := by
  unfold leaving
  split <;> rfl

theorem LaidOut.cutFrom {own body : Block} (h : LaidOut code own) (hbody : CutFrom own body) :
    LaidOut code body := by
  obtain ⟨part, hpart, rfl⟩ := hbody
  have hp := h.sublist hpart
  refine ⟨?_, ?_, ?_⟩
  · simpa [Ascending, keys, Function.comp_def] using hp.ascending
  · simpa [offsets_leaving] using hp.keyed
  · rw [List.pairwise_map]
    refine hp.exits.imp ?_
    intro a b hab
    simpa [ExitsBefore, offsets_leaving, exit?_leaving] using hab

/-- One statement in place of consecutive ones: the block stays laid out when the
statement stands where they stood, reaches no further down than they did, and
exits in front of what follows. -/
theorem LaidOut.replace {pre range post : Block} {e : Placed Stmt}
    (h : LaidOut code (pre ++ (range ++ post)))
    (hpre : ∀ x ∈ pre, x.offset < e.offset) (hpost : ∀ x ∈ post, e.offset < x.offset)
    (hkeyed : ∀ k ∈ offsets range, e.offset ≤ k)
    (hbound : ∀ bound, (∀ k ∈ offsets range, bound ≤ k) →
      ∀ k ∈ e.item.offsets e.offset, bound ≤ k)
    (hexit : ∀ exit ∈ e.item.exit? code e.offset, ∀ k ∈ offsets post, exit ≤ k) :
    LaidOut code (pre ++ e :: post) := by
  have hframe : LaidOut code (pre ++ post) :=
    h.sublist ((List.Sublist.refl pre).append (List.sublist_append_right range post))
  obtain ⟨hpre_asc, hpost_asc, hcross⟩ := ascending_append.mp hframe.ascending
  obtain ⟨hpre_exits, hpost_exits, hcross_exits⟩ := List.pairwise_append.mp hframe.exits
  obtain ⟨-, -, hrange_exits⟩ := List.pairwise_append.mp h.exits
  refine ⟨?_, ?_, ?_⟩
  · refine ascending_append.mpr ⟨hpre_asc, ascending_cons.mpr ⟨hpost, hpost_asc⟩, ?_⟩
    intro x hx y hy
    rcases List.mem_cons.mp hy with rfl | hy
    · exact hpre x hx
    · exact hcross x hx y hy
  · intro x hx
    rcases List.mem_append.mp hx with hx | hx
    · exact hframe.keyed x (by simp [hx])
    · rcases List.mem_cons.mp hx with rfl | hx
      · exact hbound _ hkeyed
      · exact hframe.keyed x (by simp [hx])
  · refine List.pairwise_append.mpr ⟨hpre_exits, List.pairwise_cons.mpr ⟨?_, hpost_exits⟩, ?_⟩
    · intro x hx exit hexit_mem k hk
      exact hexit exit hexit_mem k (mem_offsets.mpr ⟨x, hx, hk⟩)
    · intro x hx y hy exit hexit_mem
      rcases List.mem_cons.mp hy with rfl | hy
      · refine hbound exit fun k hk => ?_
        obtain ⟨z, hz, hkz⟩ := mem_offsets.mp hk
        exact hrange_exits x hx z (by simp [hz]) exit hexit_mem k hkz
      · exact hcross_exits x hx y hy exit hexit_mem

/-- From the head of the rest of a block to all of it. -/
theorem LaidOut.le_offsets {block : Block} {limit : UInt32} (h : LaidOut code block)
    (hhead : ∀ e ∈ block.head?, limit ≤ e.offset) : ∀ k ∈ offsets block, limit ≤ k := by
  intro k hk
  obtain ⟨e, he, hke⟩ := mem_offsets.mp hk
  cases block with
  | nil => simp at he
  | cons first rest =>
    have hfirst := hhead first (by simp)
    have hlt := (ascending_cons.mp h.ascending).1
    have hle : first.offset ≤ e.offset := by
      rcases List.mem_cons.mp he with rfl | he
      · exact UInt32.le_refl _
      · exact UInt32.le_of_lt (hlt e he)
    exact UInt32.le_trans hfirst (UInt32.le_trans hle (h.keyed e he k hke))

/-! Applications. -/

/-- Nothing reaches further down than before. -/
def Bounded (b b' : Block) : Prop :=
  ∀ bound, (∀ k ∈ offsets b, bound ≤ k) → ∀ k ∈ offsets b', bound ≤ k

/-- What takes the place of a block: every block of it is laid out, and nothing in it reaches
further down. -/
structure Relaid (code : UInt32 → Option Token) (b b' : Block) : Prop where
  every : Every (LaidOut code) b'
  bounded : Bounded b b'

/-- A tree that says what the code says, with every block laid out. -/
structure WellLaid (code : UInt32 → Option Token) (b : Block) : Prop where
  every : Every (LaidOut code) b
  sourced : Block.Sourced code b

theorem Every.sublist {b c : Block} (h : Every (LaidOut code) b) (hc : c.Sublist b) :
    Every (LaidOut code) c :=
  ⟨h.1.sublist hc, everyIn_iff.mpr fun e he => everyIn_iff.mp h.2 e (hc.subset he)⟩

theorem WellLaid.sublist {b c : Block} (h : WellLaid code b) (hc : c.Sublist b) : WellLaid code c where
  every := Every.sublist h.every hc
  sourced := Sourced.subset h.sourced hc.subset

theorem WellLaid.plain {b : Block} (h : WellLaid code b) (k : UInt32) (token : Token)
    (hk : ⟨k, .plain token⟩ ∈ b) : code k = some token :=
  (sourced_iff.mp h.sourced ⟨k, .plain token⟩ hk).1

theorem WellLaid.left {a b : Block} (h : WellLaid code (a ++ b)) : WellLaid code a :=
  h.sublist (List.sublist_append_left a b)

theorem WellLaid.right {a b : Block} (h : WellLaid code (a ++ b)) : WellLaid code b :=
  h.sublist (List.sublist_append_right a b)

theorem WellLaid.tail {e : Placed Stmt} {rest : Block} (h : WellLaid code (e :: rest)) :
    WellLaid code rest :=
  h.sublist (List.sublist_cons_self e rest)

theorem WellLaid.cutFrom {own body : Block} (h : WellLaid code own) (hbody : CutFrom own body) :
    WellLaid code body where
  every := by
    refine ⟨LaidOut.cutFrom h.every.1 hbody, everyIn_iff.mpr fun e he => ?_⟩
    obtain ⟨s, hs, hitem⟩ := hbody.mem he
    rw [hitem]
    unfold leaving
    split
    · simp
    · exact everyIn_iff.mp h.every.2 _ hs
  sourced := Sourced.cutFrom h.sourced hbody

theorem Every.replace {pre post : Block} {e : Placed Stmt} (range : Block)
    (h : Every (LaidOut code) (pre ++ (range ++ post)))
    (hpre : ∀ x ∈ pre, x.offset < e.offset) (hpost : ∀ x ∈ post, e.offset < x.offset)
    (hkeyed : ∀ k ∈ offsets range, e.offset ≤ k)
    (hbound : ∀ bound, (∀ k ∈ offsets range, bound ≤ k) →
      ∀ k ∈ e.item.offsets e.offset, bound ≤ k)
    (hexit : ∀ exit ∈ e.item.exit? code e.offset, ∀ k ∈ offsets post, exit ≤ k)
    (hevery : e.item.Every (LaidOut code)) :
    Relaid code (pre ++ (range ++ post)) (pre ++ e :: post) := by
  refine ⟨⟨LaidOut.replace h.1 hpre hpost hkeyed hbound hexit, everyIn_iff.mpr ?_⟩, ?_⟩
  · have hin := everyIn_iff.mp h.2
    intro x hx
    rcases List.mem_append.mp hx with hx | hx
    · exact hin x (by simp [hx])
    · rcases List.mem_cons.mp hx with rfl | hx
      · exact hevery
      · exact hin x (by simp [hx])
  · intro bound hb
    simp only [Block.offsets_append, List.forall_mem_append] at hb
    obtain ⟨hb_pre, hb_range, hb_post⟩ := hb
    simpa [Block.offsets, or_imp, forall_and] using ⟨hb_pre, hbound bound hb_range, hb_post⟩

/-- The same where the new statement stands at the offset of the first it replaces. -/
theorem Every.replace_from {pre post : Block} {here : UInt32} {s : Stmt} (range : Block) (s' : Stmt)
    (h : Every (LaidOut code) (pre ++ ⟨here, s⟩ :: (range ++ post)))
    (hbound : ∀ bound, (∀ k ∈ s.offsets here ++ offsets range, bound ≤ k) →
      ∀ k ∈ s'.offsets here, bound ≤ k)
    (hexit : ∀ exit ∈ s'.exit? code here, ∀ k ∈ offsets post, exit ≤ k)
    (hevery : s'.Every (LaidOut code)) :
    Relaid code (pre ++ ⟨here, s⟩ :: (range ++ post)) (pre ++ ⟨here, s'⟩ :: post) := by
  obtain ⟨-, hrest, hcross⟩ := ascending_append.mp h.1.ascending
  have hrange : LaidOut code (⟨here, s⟩ :: range) :=
    h.1.sublist ((List.sublist_append_left (⟨here, s⟩ :: range) post).trans
      (List.sublist_append_right pre _))
  refine Every.replace (⟨here, s⟩ :: range) h ?_ ?_ ?_ hbound hexit hevery
  · exact fun x hx => hcross x hx ⟨here, s⟩ (by simp)
  · exact fun x hx => (ascending_cons.mp hrest).1 x (by simp [hx])
  · exact LaidOut.le_offsets hrange (by simp)

theorem Arms.le_offsets {arms : Arms} {bound : UInt32} : (∀ k ∈ Arms.offsets arms, bound ≤ k) ↔
    ∀ arm ∈ arms, bound ≤ arm.offset ∧ ∀ k ∈ offsets arm.item.body, bound ≤ k := by
  induction arms with
  | nil => simp [Arms.offsets]
  | cons arm rest ih =>
    rw [List.forall_mem_cons, ← ih]
    simp [Arms.offsets, or_imp, forall_and, and_assoc]

/-- Regrouped cases reach no further down than the cases did. -/
theorem regroupArms_le {inner : Block → Block} {arms : Arms} {bound : UInt32}
    (h : ∀ arm ∈ arms, Bounded arm.item.body (inner arm.item.body))
    (hle : ∀ k ∈ Arms.offsets arms, bound ≤ k) :
    ∀ k ∈ Arms.offsets (regroupArms inner arms), bound ≤ k := by
  refine Arms.le_offsets.mpr fun arm harm => ?_
  obtain ⟨a, ha, rfl⟩ := List.mem_map.mp harm
  obtain ⟨hoffset, hbody⟩ := Arms.le_offsets.mp hle a ha
  exact ⟨hoffset, h a ha bound hbody⟩

/-! What each rule does, with `body'` for its regrouped part. -/

section Rules
variable {pre body body' post : Block} {here : UInt32} {condition : Token}

theorem WellLaid.forEach {next : Option UInt32} {last : UInt32} {expression : Token} {marker : Stmt}
    (hb : WellLaid code (pre ++ ⟨here, .plain (.iterator expression last)⟩ ::
      (body ++ stepPart next ++ ⟨last, marker⟩ :: post)))
    (hbody : Relaid code body body') (ahead : here < last) :
    Relaid code (pre ++ ⟨here, .plain (.iterator expression last)⟩ ::
        (body ++ stepPart next ++ ⟨last, marker⟩ :: post))
      (pre ++ ⟨here, .forEach expression body' next last⟩ :: post) := by
  have hnew := Every.replace_from (body ++ stepPart next ++ [⟨last, marker⟩])
    (.forEach expression body' next last) (by simpa using hb.every) ?_ (by simp [Stmt.exit?])
    ((Stmt.every_forEach ..).mpr hbody.every)
  · simpa using hnew
  · intro bound hle
    simp only [Stmt.offsets, Block.offsets_append, offsets_stepPart, List.forall_mem_append,
      List.forall_mem_cons] at hle ⊢
    obtain ⟨⟨hhere, -⟩, ⟨hin, hnext⟩, -⟩ := hle
    -- The statement at the end is gone, but its offset is behind the iterator.
    have hlast : bound ≤ last := UInt32.le_trans hhere (UInt32.le_of_lt ahead)
    exact ⟨⟨⟨hhere, hbody.bounded bound hin⟩, hnext⟩, hlast, by simp⟩

theorem WellLaid.doUntil {target : UInt32}
    (hb : WellLaid code (pre ++ (body ++ ⟨here, .plain (.jumpIfNot target condition)⟩ :: post)))
    (hbody : Relaid code body body') (back : target < here)
    (pre_below : ∀ e ∈ pre.getLast?, e.offset < target) (body_above : ∀ e ∈ body, target ≤ e.offset) :
    Relaid code (pre ++ (body ++ ⟨here, .plain (.jumpIfNot target condition)⟩ :: post))
      (pre ++ ⟨target, .doUntil ⟨here, condition⟩ body'⟩ :: post) := by
  obtain ⟨hpre, hrest, -⟩ := ascending_append.mp hb.every.1.ascending
  obtain ⟨-, hhere, -⟩ := ascending_append.mp hrest
  -- The loop stands at its target, which need not be an offset of the code.
  have hnew := Every.replace (e := ⟨target, .doUntil ⟨here, condition⟩ body'⟩)
    (body ++ [⟨here, .plain (.jumpIfNot target condition)⟩]) (by simpa using hb.every)
    ?_ ?_ ?_ ?_ (by simp [Stmt.exit?]) ((Stmt.every_doUntil ..).mpr hbody.every)
  · simpa using hnew
  · exact hpre.lt_of_last pre_below
  · exact fun x hx => UInt32.lt_trans back ((ascending_cons.mp hhere).1 x hx)
  · intro k hk
    simp only [Block.offsets_append, List.mem_append] at hk
    rcases hk with hk | hk
    · obtain ⟨e, he, hke⟩ := mem_offsets.mp hk
      exact UInt32.le_trans (body_above e he) (hb.every.1.keyed e (by simp [he]) k hke)
    · obtain rfl : k = here := by simpa [Block.offsets, Stmt.offsets] using hk
      exact UInt32.le_of_lt back
  · intro bound hle
    simp only [Stmt.offsets, Block.offsets, Block.offsets_append, List.forall_mem_append,
      List.forall_mem_cons] at hle ⊢
    exact ⟨hbody.bounded bound hle.1, hle.2.1⟩

theorem WellLaid.ifElse {other other' : Block} {target jump destination : UInt32}
    (hb : WellLaid code (pre ++ ⟨here, .plain (.jumpIfNot target condition)⟩ ::
      (body ++ ⟨jump, .plain (.jump destination)⟩ :: (other ++ post))))
    (hbody : Relaid code body body') (hother : Relaid code other other')
    (post_above : ∀ e ∈ post.head?, destination ≤ e.offset) :
    Relaid code (pre ++ ⟨here, .plain (.jumpIfNot target condition)⟩ ::
        (body ++ ⟨jump, .plain (.jump destination)⟩ :: (other ++ post)))
      (pre ++ ⟨here, .branch condition body' (some ⟨jump, other'⟩)⟩ :: post) := by
  have hjump : code jump = some (.jump destination) := hb.plain jump (.jump destination) (by simp)
  have hnew := Every.replace_from (body ++ ⟨jump, .plain (.jump destination)⟩ :: other)
    (.branch condition body' (some ⟨jump, other'⟩)) (by simpa using hb.every) ?_ ?_
    ((Stmt.every_branch ..).mpr ⟨hbody.every, by simpa using hother.every⟩)
  · simpa using hnew
  · intro bound hle
    simp only [Stmt.offsets, Block.offsets, Block.offsets_append, List.forall_mem_append,
      List.forall_mem_cons] at hle ⊢
    obtain ⟨⟨hhere, -⟩, hin, ⟨hj, -⟩, hin'⟩ := hle
    exact ⟨⟨hhere, hbody.bounded bound hin⟩, hj, hother.bounded bound hin'⟩
  · -- Its exit is the target of the jump that ended the first part.
    rintro exit hexit
    obtain rfl : destination = exit := by simpa [Stmt.exit?, hjump] using hexit
    exact LaidOut.le_offsets hb.right.tail.right.tail.right.every.1 post_above

theorem WellLaid.whileLoop {target back : UInt32}
    (hb : WellLaid code (pre ++ ⟨here, .plain (.jumpIfNot target condition)⟩ ::
      (body ++ ⟨back, .plain (.jump here)⟩ :: post)))
    (hbody : Relaid code body body') :
    Relaid code (pre ++ ⟨here, .plain (.jumpIfNot target condition)⟩ ::
        (body ++ ⟨back, .plain (.jump here)⟩ :: post))
      (pre ++ ⟨here, .whileLoop condition body' back⟩ :: post) := by
  have hnew := Every.replace_from (body ++ [⟨back, .plain (.jump here)⟩])
    (.whileLoop condition body' back) (by simpa using hb.every) ?_ (by simp [Stmt.exit?])
    ((Stmt.every_whileLoop ..).mpr hbody.every)
  · simpa using hnew
  · intro bound hle
    simp only [Stmt.offsets, Block.offsets, Block.offsets_append, List.forall_mem_append,
      List.forall_mem_cons] at hle ⊢
    exact ⟨⟨hle.1.1, hbody.bounded bound hle.2.1⟩, hle.2.2.1⟩

/-- The body of a counted loop is as it was in the loop that it was before. -/
theorem WellLaid.forLoop {k last back : UInt32} {start step : Token}
    (hb : WellLaid code (pre ++ ⟨k, .plain start⟩ ::
      ⟨here, .whileLoop condition (body ++ [⟨last, .plain step⟩]) back⟩ :: post)) :
    Relaid code (pre ++ ⟨k, .plain start⟩ ::
        ⟨here, .whileLoop condition (body ++ [⟨last, .plain step⟩]) back⟩ :: post)
      (pre ++
        ⟨k, .forLoop (some ⟨k, start⟩) (some ⟨here, condition⟩) (some ⟨last, step⟩) body back⟩ :: post) := by
  have hloop := everyIn_iff.mp hb.every.2
    ⟨here, .whileLoop condition (body ++ [⟨last, .plain step⟩]) back⟩ (by simp)
  have hbody : Every (LaidOut code) body :=
    Every.sublist ((Stmt.every_whileLoop ..).mp hloop) (List.sublist_append_left body _)
  have hnew := Every.replace_from [⟨here, .whileLoop condition (body ++ [⟨last, .plain step⟩]) back⟩]
    (.forLoop (some ⟨k, start⟩) (some ⟨here, condition⟩) (some ⟨last, step⟩) body back)
    (by simpa using hb.every) ?_ (by simp [Stmt.exit?]) ((Stmt.every_forLoop ..).mpr hbody)
  · simpa using hnew
  · intro bound hle
    simpa [Stmt.offsets, Block.offsets] using hle

theorem WellLaid.plainIf {target : UInt32}
    (hb : WellLaid code (pre ++ ⟨here, .plain (.jumpIfNot target condition)⟩ :: (body ++ post)))
    (hbody : Relaid code body body') (post_above : ∀ e ∈ post.head?, target ≤ e.offset) :
    Relaid code (pre ++ ⟨here, .plain (.jumpIfNot target condition)⟩ :: (body ++ post))
      (pre ++ ⟨here, .branch condition body' none⟩ :: post) := by
  have hhere : code here = some (.jumpIfNot target condition) :=
    hb.plain here (.jumpIfNot target condition) (by simp)
  refine Every.replace_from body (.branch condition body' none) hb.every ?_ ?_
    ((Stmt.every_branch ..).mpr ⟨hbody.every, by simp⟩)
  · intro bound hle
    simp only [Stmt.offsets, List.forall_mem_append, List.forall_mem_cons] at hle ⊢
    exact ⟨hle.1.1, hbody.bounded bound hle.2⟩
  · rintro exit hexit
    obtain rfl : target = exit := by simpa [Stmt.exit?, hhere] using hexit
    exact LaidOut.le_offsets hb.right.tail.right.every.1 post_above

theorem WellLaid.switch {inner : Block → Block} {own : Block} {subject : Token}
    (hb : WellLaid code (pre ++ ⟨here, .plain (.switch subject)⟩ :: (own ++ post)))
    (harms : ∀ arm ∈ (splitArms own).2, Relaid code arm.item.body (inner arm.item.body))
    (opens : startsWithCase (own ++ post) = true) (extent : switchExtent false (own ++ post) = (own, post)) :
    Relaid code (pre ++ ⟨here, .plain (.switch subject)⟩ :: (own ++ post))
      (pre ++ ⟨here, .switch subject (regroupArms inner (splitArms own).2)⟩ :: post) := by
  refine Every.replace_from own (.switch subject (regroupArms inner (splitArms own).2)) hb.every ?_
    (by simp [Stmt.exit?]) ((Stmt.every_switch ..).mpr ?_)
  · intro bound hle
    simp only [Stmt.offsets, List.forall_mem_append, List.forall_mem_cons] at hle ⊢
    have hsplit := offsets_splitArms own
    rw [splitArms_fst_of_opens opens extent, Block.offsets, List.nil_append] at hsplit
    exact ⟨hle.1.1, regroupArms_le (fun a ha => (harms a ha).bounded) (hsplit ▸ hle.2)⟩
  · intro arm harm
    obtain ⟨a, ha, rfl⟩ := List.mem_map.mp harm
    exact (harms a ha).every

end Rules

/-- An application keeps every block laid out: what it takes into a statement was
in front of the exit of no earlier branch, and the exit of a new branch is where
its block goes on. -/
theorem Collapse.laidOut {inner : Block → Block} {rule : Rule} {b b' : Block}
    (hinner : ∀ c, WellLaid code c → Relaid code c (inner c)) (h : Collapse inner rule b b')
    (hb : WellLaid code b) : Relaid code b b' := by
  cases h with
  | @forEach pre body post next here last expression marker ahead =>
    exact hb.forEach (hinner body hb.right.tail.left.left) ahead
  | @doUntil pre body post here target condition back pre_below body_above =>
    exact hb.doUntil (hinner body hb.right.left) back pre_below body_above
  | @ifElse pre body other post here target jump destination condition ahead further body_below
      jump_below rest_above other_below post_above =>
    have hother := hinner other hb.right.tail.right.tail.left
    exact hb.ifElse (hinner body hb.right.tail.left) hother post_above
  | @whileLoop pre body post here target back condition =>
    exact hb.whileLoop (hinner body hb.right.tail.left)
  | forLoop => exact hb.forLoop
  | @plainIf pre body post here target condition ahead body_below post_above =>
    exact hb.plainIf (hinner body hb.right.tail.left) post_above
  | @switch pre own post here subject opens extent =>
    have hown := hb.right.tail.left
    exact hb.switch (fun arm harm => hinner _ (hown.cutFrom (mem_splitArms_snd harm).2)) opens extent

/-- What regrouping does to a tree that says what the code says. -/
def KeepsLayout (code : UInt32 → Option Token) (b b' : Block) : Prop :=
  (Block.Sourced code b → Block.Sourced code b') ∧
    (WellLaid code b → WellLaid code b' ∧ Bounded b b')

theorem KeepsLayout.refl (b : Block) : KeepsLayout code b b :=
  ⟨fun h => h, fun h => ⟨h, fun _ hle => hle⟩⟩

theorem KeepsLayout.trans {a b c : Block} (hab : KeepsLayout code a b) (hbc : KeepsLayout code b c) :
    KeepsLayout code a c := by
  refine ⟨fun h => hbc.1 (hab.1 h), fun h => ?_⟩
  obtain ⟨hb, hbound⟩ := hab.2 h
  obtain ⟨hc, hbound'⟩ := hbc.2 hb
  exact ⟨hc, fun bound hle => hbound' bound (hbound bound hle)⟩

theorem Collapse.keepsLayout {inner : Block → Block} {rule : Rule} {b b' : Block}
    (hinner : ∀ c, KeepsLayout code c (inner c)) (h : Collapse inner rule b b') :
    KeepsLayout code b b' := by
  refine ⟨h.sourced fun c => (hinner c).1, fun hb => ?_⟩
  have hparts : ∀ c, WellLaid code c → Relaid code c (inner c) := by
    intro c hc
    obtain ⟨hlaid, hbound⟩ := (hinner c).2 hc
    exact ⟨hlaid.every, hbound⟩
  have hnew := h.laidOut hparts hb
  exact ⟨⟨hnew.every, h.sourced (fun c => (hinner c).1) hb.sourced⟩, hnew.bounded⟩

theorem wellLaid_regroupWithin (fuel : Nat) {b : Block} (hb : WellLaid code b) :
    WellLaid code (regroupWithin fuel b) :=
  ((regroupWithin_rel KeepsLayout.refl KeepsLayout.trans
    (fun _ hinner _ _ _ h => h.keepsLayout hinner) fuel b).2 hb).1

end Rule

namespace Block

theorem wellLaid_ofInstructions (code : List Instruction) :
    Rule.WellLaid (tokenAt (ofInstructions code)) (ofInstructions code) := by
  have hasc := ascending_ofInstructions code
  have hflat := flat_ofInstructions code
  refine ⟨⟨⟨hasc, ?_, ?_⟩, everyIn_iff.mpr ?_⟩, sourced_of_flat hasc hflat (List.Subset.refl _)⟩
  · intro e he
    obtain ⟨token, htoken⟩ := hflat e he
    simp [htoken, Stmt.offsets]
  · refine (List.pairwise_map.mp hasc).imp_of_mem ?_
    intro a b ha _ _ exit hexit
    obtain ⟨token, htoken⟩ := hflat a ha
    simp [htoken, Stmt.exit?] at hexit
  · intro e he
    obtain ⟨token, htoken⟩ := hflat e he
    simp [htoken]

/-- A branch that says what the code says has an exit. -/
theorem exit?_of_sourced {code : UInt32 → Option Token} {here : UInt32} {condition : Token}
    {body : Block} {otherwise : Option (Placed Block)}
    (h : (Stmt.branch condition body otherwise).Sourced code here) :
    ∃ exit, (Stmt.branch condition body otherwise).exit? code here = some exit := by
  obtain ⟨target, hhere, -, hother⟩ := h
  cases otherwise with
  | none => exact ⟨target, by simp [Stmt.exit?, hhere]⟩
  | some o =>
    obtain ⟨destination, hjump, -⟩ := hother o rfl
    exact ⟨destination, by simp [Stmt.exit?, hjump]⟩

/-- Where a branch of the tree exits: everything that follows it in its own block is
at or behind its exit, so all that follows it in the tree is exactly when what
follows its block is. -/
theorem branch_exit_le_iff (code : List Instruction) {part : Part} {pre post body : Block}
    {here : UInt32} {condition : Token} {otherwise : Option (Placed Block)}
    (hpart : part ∈ parts (regroup (ofInstructions code)))
    (hbranch : part.block = pre ++ ⟨here, .branch condition body otherwise⟩ :: post) :
    ∃ exit front, (Stmt.branch condition body otherwise).exit? (tokenAt (ofInstructions code)) here =
        some exit ∧
      offsets (regroup (ofInstructions code)) = front ++
        (Stmt.branch condition body otherwise).offsets here ++ (offsets post ++ part.beyond) ∧
      (∀ k ∈ offsets post, exit ≤ k) ∧
      ((∀ k ∈ offsets post ++ part.beyond, exit ≤ k) ↔ ∀ k ∈ part.beyond, exit ≤ k) := by
  have htree := Rule.wellLaid_regroupWithin (plainCount (ofInstructions code) + 1)
    (wellLaid_ofInstructions code)
  obtain ⟨front, hfront⟩ := endsIn_of_mem_parts hpart
  have hsourced := Every.of_mem_parts htree.sourced hpart ⟨here, .branch condition body otherwise⟩
    (by simp [hbranch])
  obtain ⟨exit, hexit⟩ := exit?_of_sourced hsourced
  have hexits := (Every.of_mem_parts htree.every hpart).exits
  rw [hbranch, List.pairwise_append, List.pairwise_cons] at hexits
  have hpost : ∀ k ∈ offsets post, exit ≤ k := by
    intro k hk
    obtain ⟨x, hx, hkx⟩ := mem_offsets.mp hk
    exact hexits.2.1.1 x hx exit hexit k hkx
  refine ⟨exit, front ++ offsets pre, hexit, ?_, hpost, ?_⟩
  · rw [hfront, hbranch]
    simp [offsets]
  · rw [List.forall_mem_append]
    exact and_iff_right hpost

/-- A branch out of a loop over an iterator. -/
def outOfLoop : List Instruction :=
  [⟨0, .iterator .selfObject 30⟩, ⟨10, .jumpIfNot 40 .noObject⟩, ⟨14, .stop⟩, ⟨20, .iteratorNext⟩,
    ⟨30, .iteratorPop⟩, ⟨35, .stop⟩, ⟨40, .stop⟩]

/-- The if ends with the body of the loop, and the step of the loop at 20 follows
it, which the branch to 40 skips. -/
theorem branch_exit_out_of_loop :
    ∃ part ∈ parts (regroup (ofInstructions outOfLoop)),
      part.block = [⟨10, .branch .noObject [⟨14, .plain .stop⟩] none⟩] ∧
      part.beyond = [20, 30, 35, 40] ∧
      tokenAt (ofInstructions outOfLoop) 10 = some (.jumpIfNot 40 .noObject) ∧
      ¬ ∀ k ∈ part.beyond, 40 ≤ k := by
  have htree : regroup (ofInstructions outOfLoop) =
      [⟨0, .forEach .selfObject [⟨10, .branch .noObject [⟨14, .plain .stop⟩] none⟩] (some 20) 30⟩,
        ⟨35, .plain .stop⟩, ⟨40, .plain .stop⟩] := rfl
  have hpart : (⟨[⟨10, .branch .noObject [⟨14, .plain .stop⟩] none⟩], [20, 30, 35, 40]⟩ : Part) ∈
      parts (regroup (ofInstructions outOfLoop)) := by
    rw [htree]
    simp [parts, partsIn, Stmt.parts, Block.offsets, Stmt.offsets]
  obtain ⟨exit, front, hexit, -, -, hiff⟩ := @branch_exit_le_iff _ _ [] [] _ _ _ _ hpart rfl
  obtain rfl : 40 = exit := Option.some.inj hexit
  refine ⟨_, hpart, rfl, rfl, rfl, fun hall => ?_⟩
  have hleft := hiff.mpr hall 20 (by simp)
  exact absurd hleft (by decide)

end Block

end ScriptLift
