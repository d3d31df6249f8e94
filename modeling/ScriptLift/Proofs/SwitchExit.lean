import ScriptLift.Proofs.LoopEnd
import ScriptLift.Proofs.Stability
import ScriptLift.Proofs.SwitchExtent

/- Where the breaks of a switch go.

   A switch ends at the first jump for which the last label in front is that of the
   default, whatever the breaks of its cases go to. With such a jump, it stays the last
   instruction of the switch, and a break leaves the switch exactly when it goes further
   than that jump. Without one the switch takes all that is left of its block, and so what
   its breaks go to as well, when that is in the block.

   The jump stays the last instruction because regrouping keeps the offsets of a block in
   order (`Replaces`), but for the offset of a loop over an iterator that ends where the
   code has no instruction. -/
namespace ScriptLift

/-! Offsets in the order of the code. -/

/-- Where the code has an instruction, all earlier offsets are smaller. -/
def InOrder (code : UInt32 → Option Token) (offsets : List UInt32) : Prop :=
  offsets.Pairwise fun j k => code k ≠ none → j < k

/-- Offsets that come in the place of others, at any place of a list, keep it in order, and
a jump at its end. -/
structure Replaces (code : UInt32 → Option Token) (old new : List UInt32) : Prop where
  inOrder : ∀ pre post, InOrder code (pre ++ old ++ post) → InOrder code (pre ++ new ++ post)
  last : ∀ pre post stop target, code stop = some (.jump target) →
    (pre ++ old ++ post).getLast? = some stop → (pre ++ new ++ post).getLast? = some stop

namespace Replaces

variable {code : UInt32 → Option Token} {a b c : List UInt32}

theorem refl (a : List UInt32) : Replaces code a a :=
  ⟨fun _ _ h => h, fun _ _ _ _ _ h => h⟩

theorem trans (hab : Replaces code a b) (hbc : Replaces code b c) : Replaces code a c where
  inOrder pre post h := hbc.inOrder pre post (hab.inOrder pre post h)
  last pre post stop target hstop h :=
    hbc.last pre post stop target hstop (hab.last pre post stop target hstop h)

theorem within (h : Replaces code a b) (front back : List UInt32) :
    Replaces code (front ++ a ++ back) (front ++ b ++ back) where
  inOrder pre post := by simpa using h.inOrder (pre ++ front) (back ++ post)
  last pre post := by simpa using h.last (pre ++ front) (back ++ post)

/-- The offset of an iterator's end in the place of a loop that ends in its condition. -/
theorem of_branch {last branch target : UInt32} {condition : Token} (hnone : code last = none)
    (hbranch : code branch = some (.jumpIfNot target condition)) (hback : last < branch)
    (inside : List UInt32) : Replaces code (inside ++ [branch]) [last] where
  inOrder pre post h := by
    unfold InOrder at h ⊢
    simp only [List.pairwise_append, List.pairwise_cons, List.mem_append, List.mem_singleton] at h ⊢
    obtain ⟨⟨hpre, -, -⟩, hpost, hcross⟩ := h
    refine ⟨⟨hpre, by simp, fun j _ k hk hcode => absurd (hk ▸ hnone) hcode⟩, hpost, ?_⟩
    rintro j (hj | rfl) k hk hcode
    · exact hcross j (.inl hj) k hk hcode
    · exact UInt32.lt_trans hback (hcross branch (.inr (.inr rfl)) k hk hcode)
  last pre post stop target hstop h := by
    rcases List.eq_nil_or_concat post with rfl | ⟨post, x, rfl⟩
    · -- The branch is no jump.
      obtain rfl : branch = stop := by simpa using h
      simp [hbranch] at hstop
    · simpa [List.getLast?_cons, List.getLast?_append] using h

end Replaces

namespace Rule

open Block

/-! Applications. -/

theorem replaces_regroupArms {code : UInt32 → Option Token} {inner : Block → Block}
    (hinner : ∀ c, Replaces code (Block.offsets c) (Block.offsets (inner c))) (arms : Arms) :
    Replaces code (Arms.offsets arms) (Arms.offsets (regroupArms inner arms)) := by
  induction arms with
  | nil => exact Replaces.refl _
  | cons arm rest ih =>
    have hbody := (hinner arm.item.body).within [arm.offset] (Arms.offsets rest)
    have hrest := ih.within (arm.offset :: Block.offsets (inner arm.item.body)) []
    have hcons : Arms.offsets (regroupArms inner (arm :: rest)) = arm.offset ::
        (Block.offsets (inner arm.item.body) ++ Arms.offsets (regroupArms inner rest)) := rfl
    rw [hcons]
    simpa [Arms.offsets] using hbody.trans (by simpa using hrest)

/-- All rules but the one for loops over iterators keep the statements they take. -/
theorem Collapse.replaces {code : UInt32 → Option Token} {inner : Block → Block} {rule : Rule}
    {b b' : Block} (hinner : ∀ c, Replaces code (Block.offsets c) (Block.offsets (inner c)))
    (hrule : rule ≠ .forEach) (h : Collapse inner rule b b') :
    Replaces code (Block.offsets b) (Block.offsets b') := by
  cases h with
  | forEach => exact absurd rfl hrule
  | @doUntil pre body post here target condition =>
    have hbody := (hinner body).within (Block.offsets pre) (here :: Block.offsets post)
    simpa [Block.offsets, Stmt.offsets] using hbody
  | @ifElse pre body other post here target jump destination condition =>
    have hbody := (hinner body).within (Block.offsets pre ++ [here])
      (jump :: (Block.offsets other ++ Block.offsets post))
    have hother := (hinner other).within
      (Block.offsets pre ++ here :: (Block.offsets (inner body) ++ [jump])) (Block.offsets post)
    simpa [Block.offsets, Stmt.offsets] using hbody.trans (by simpa using hother)
  | @whileLoop pre body post here target back condition =>
    have hbody := (hinner body).within (Block.offsets pre ++ [here]) (back :: Block.offsets post)
    simpa [Block.offsets, Stmt.offsets] using hbody
  | forLoop => simpa [Block.offsets, Stmt.offsets] using Replaces.refl _
  | @plainIf pre body post here target condition =>
    have hbody := (hinner body).within (Block.offsets pre ++ [here]) (Block.offsets post)
    simpa [Block.offsets, Stmt.offsets] using hbody
  | @switch pre own post here subject opens extent =>
    have hown := offsets_splitArms own
    rw [splitArms_fst_of_opens opens extent, Block.offsets, List.nil_append] at hown
    have harms := (replaces_regroupArms hinner (splitArms own).2).within (Block.offsets pre ++ [here])
      (Block.offsets post)
    simpa [Block.offsets, Stmt.offsets, hown] using harms

/-- A loop over an iterator keeps the offset of its end. -/
theorem Situated.replaces {code before after before' after' : Block} {inner : Block → Block}
    {here : UInt32} {s : Stmt} (hflat : Flat code)
    (hinner : ∀ c, Replaces (tokenAt code) (Block.offsets c) (Block.offsets (inner c)))
    (h : Situated code .forEach before (⟨here, s⟩ :: after))
    (happly : applyForEach inner before here s after = some (before', after')) :
    Replaces (tokenAt code) (Block.offsets (before.reverse ++ ⟨here, s⟩ :: after))
      (Block.offsets (before'.reverse ++ after')) := by
  obtain ⟨expression, last, body, next, marker, rfl, ahead, rfl, -, rfl⟩ := applyForEach_eq_some happly
  have hmarker : Replaces (tokenAt code) (marker.offsets last) [last] := by
    rcases h.marker hflat ahead with ⟨-, token, rfl⟩ | ⟨hnone, condition, inside, rfl, hbranch, hback⟩
    · exact Replaces.refl _
    · exact Replaces.of_branch (tokenAt_eq_none hnone) hbranch hback _
  have hbody := (hinner body).within (Block.offsets before.reverse ++ [here])
    (next.toList ++ (marker.offsets last ++ Block.offsets after'))
  have hend := hmarker.within
    (Block.offsets before.reverse ++ here :: (Block.offsets (inner body) ++ next.toList))
    (Block.offsets after')
  simpa [Block.offsets, Stmt.offsets, offsets_stepPart] using hbody.trans (by simpa using hend)

/-! The end of a switch. -/

/-- The statements of a switch that ends at a jump behind the label of its default;
`isDefault` says whether the last label in front of them is one. -/
inductive Stops : Bool → Block → Prop where
  | jump {stop target : UInt32} : Stops true [⟨stop, .plain (.jump target)⟩]
  | other {isDefault : Bool} {e : Placed Stmt} {own : Block} (h : e.item.isLabel = false)
      (rest : Stops isDefault own) : Stops isDefault (e :: own)
  | label {isDefault : Bool} {here : UInt32} {next : UInt16} {value : Option Token} {own : Block}
      (rest : Stops (next == Token.defaultLink) own) :
      Stops isDefault (⟨here, .plain (.case next value)⟩ :: own)

/-- A switch takes all that is left of its block, or stops at a jump. -/
theorem switchExtent_stops (isDefault : Bool) (block : Block) :
    (switchExtent isDefault block).2 = [] ∨ Stops isDefault (switchExtent isDefault block).1 := by
  fun_induction switchExtent isDefault block with
  | case1 => exact .inl rfl
  | case2 e rest target hitem =>
    obtain ⟨k, s⟩ := e
    subst hitem
    exact .inr .jump
  | case3 isDefault e rest target hitem hmore own post hrest ih =>
    rw [hrest] at ih
    exact ih.imp_right fun h => h.other (by simp [hitem, Stmt.isLabel])
  | case4 isDefault e rest next value hitem own post hrest ih =>
    rw [hrest] at ih
    obtain ⟨k, s⟩ := e
    subst hitem
    exact ih.imp_right .label
  | case5 isDefault e rest own post hrest hjump hlabel ih =>
    rw [hrest] at ih
    refine ih.imp_right fun h => h.other (Bool.eq_false_iff.mpr fun htrue => ?_)
    obtain ⟨next, value, hitem⟩ := Stmt.isLabel_iff.mp htrue
    exact hlabel next value hitem

theorem Stops.last {isDefault : Bool} {own : Block} (h : Stops isDefault own) :
    ∃ stop target, own.getLast? = some ⟨stop, .plain (.jump target)⟩ := by
  induction h with
  | jump => exact ⟨_, _, rfl⟩
  | other _ _ ih | label _ ih =>
    obtain ⟨stop, target, hlast⟩ := ih
    exact ⟨stop, target, by simp [List.getLast?_cons, hlast]⟩

/-- The last label of such a switch is that of the default. -/
theorem Stops.lastLabel {isDefault : Bool} {own : Block} (h : Stops isDefault own) :
    (isDefault = true ∧ own.filter (·.item.isLabel) = []) ∨
      ∃ label value, (own.filter (·.item.isLabel)).getLast? =
        some ⟨label, .plain (.case Token.defaultLink value)⟩ := by
  induction h with
  | jump => exact .inl ⟨rfl, rfl⟩
  | other hother _ ih => simpa [hother] using ih
  | @label isDefault here next value own _ ih =>
    have hlabels : (⟨here, .plain (.case next value)⟩ :: own : Block).filter (·.item.isLabel) =
        ⟨here, .plain (.case next value)⟩ :: own.filter (·.item.isLabel) := List.filter_cons_of_pos rfl
    rw [hlabels]
    refine .inr ?_
    rcases ih with ⟨hdefault, hnone⟩ | ⟨label, value', hlast⟩
    · obtain rfl : next = Token.defaultLink := by simpa using hdefault
      exact ⟨here, value, by rw [hnone]; rfl⟩
    · exact ⟨label, value', by rw [List.getLast?_cons, hlast]; rfl⟩

/-- The last label of the cases is that of the default, and a jump comes last. -/
def EndsInJump (code : UInt32 → Option Token) (arms : Arms) : Prop :=
  ∃ label value stop target, (arms.map (·.offset)).getLast? = some label ∧
    code label = some (.case Token.defaultLink value) ∧
    (Arms.offsets arms).getLast? = some stop ∧ code stop = some (.jump target)

theorem Stops.endsInJump {code : UInt32 → Option Token} {inner : Block → Block} {own : Block}
    (h : Stops false own) (hinner : ∀ c, Replaces code (Block.offsets c) (Block.offsets (inner c)))
    (hown : WellLaid code own) (hfirst : (splitArms own).1 = []) :
    EndsInJump code (regroupArms inner (splitArms own).2) := by
  obtain ⟨stop, target, hlast⟩ := h.last
  obtain ⟨hfalse, -⟩ | ⟨label, value, hlabel⟩ := h.lastLabel
  · simp at hfalse
  have hstop : code stop = some (.jump target) := hown.plain stop _ (List.mem_of_getLast? hlast)
  refine ⟨label, value, stop, target, ?_, ?_, ?_, hstop⟩
  · have hkeys : (regroupArms inner (splitArms own).2).map (·.offset) =
        (splitArms own).2.map (·.offset) := by simp [regroupArms]
    rw [hkeys, splitArms_keys, keys, List.getLast?_map, hlabel]
    rfl
  · exact hown.plain label _ (List.mem_filter.mp (List.mem_of_getLast? hlabel)).1
  · have hoffsets : (Block.offsets own).getLast? = some stop := by
      rw [← List.dropLast_append_getLast? _ hlast]
      simp [Block.offsets, Stmt.offsets]
    have hsplit := offsets_splitArms own
    rw [hfirst, Block.offsets, List.nil_append] at hsplit
    rw [← hsplit] at hoffsets
    simpa using (replaces_regroupArms hinner (splitArms own).2).last [] [] stop target hstop
      (by simpa using hoffsets)

/-! The switches of a block. -/

/-- Every switch of the block ends in a jump, or no statement follows it. -/
def SwitchesEnd (code : UInt32 → Option Token) (block : Block) : Prop :=
  ∀ here subject arms, ⟨here, .switch subject arms⟩ ∈ block →
    EndsInJump code arms ∨ ∀ e ∈ block, e.offset ≤ here

theorem SwitchesEnd.subset {code : UInt32 → Option Token} {b c : Block} (h : SwitchesEnd code b)
    (hc : c ⊆ b) : SwitchesEnd code c :=
  fun here subject arms hmem => (h here subject arms (hc hmem)).imp_right fun hle e he => hle e (hc he)

theorem SwitchesEnd.cutFrom {code : UInt32 → Option Token} {own body : Block} (h : SwitchesEnd code own)
    (hbody : CutFrom own body) : SwitchesEnd code body := by
  intro here subject arms hmem
  refine (h here subject arms (hbody.mem_of_ne_leave hmem (by simp))).imp_right fun hle e he => ?_
  obtain ⟨s, hs, -⟩ := hbody.mem he
  exact hle ⟨e.offset, s⟩ hs

/-- An application leaves the switches of the block as they are, and the one that it makes
ends in a jump or takes the rest of the block. -/
theorem Collapse.switchesEnd {code : UInt32 → Option Token} {inner : Block → Block} {rule : Rule}
    {b b' : Block} (hinner : ∀ c, Replaces code (Block.offsets c) (Block.offsets (inner c)))
    (hb : WellLaid code b) (h : Collapse inner rule b b') (hends : SwitchesEnd code b) :
    SwitchesEnd code b' := by
  intro k subject arms hk
  have hold : ⟨k, .switch subject arms⟩ ∈ b → EndsInJump code arms ∨ ∀ e ∈ b', e.offset ≤ k :=
    fun hmem => (hends k subject arms hmem).imp_right h.keys_le
  cases h with
  | @switch pre own post here subject' opens extent =>
    rcases List.mem_append.mp hk with hmem | hmem
    · exact hold (by simp [hmem])
    rcases List.mem_cons.mp hmem with heq | hmem
    · obtain ⟨rfl, rfl, rfl⟩ : k = here ∧ subject = subject' ∧
          arms = regroupArms inner (splitArms own).2 := by simpa using heq
      have hstops := switchExtent_stops false (own ++ post)
      rw [extent] at hstops
      rcases hstops with rfl | hstops
      · refine .inr fun e he => ?_
        obtain ⟨-, -, hcross⟩ := ascending_append.mp hb.every.1.ascending
        rcases List.mem_append.mp he with he | he
        · exact UInt32.le_of_lt (hcross e he ⟨k, .plain (.switch subject)⟩ (by simp))
        · obtain rfl := List.mem_singleton.mp he
          exact UInt32.le_refl _
      · exact .inl (hstops.endsInJump hinner hb.right.tail.left (splitArms_fst_of_opens opens extent))
    · exact hold (by simp [hmem])
  | _ => exact hold (by simp at hk ⊢; grind)

/-- What is handed on is as the block it was cut out of. -/
theorem every_of_handedOn {P : Block → Prop} {rule : Rule} {before after c : Block} {here : UInt32}
    {s : Stmt} (hsubset : ∀ {b c : Block}, P b → c ⊆ b → P c)
    (hcut : ∀ {own body : Block}, P own → CutFrom own body → P body)
    (hb : Every P (before.reverse ++ ⟨here, s⟩ :: after)) (handed : c ∈ rule.handedOn before s after) :
    Every P c := by
  obtain ⟨-, hsub | ⟨arm, harm, rfl⟩⟩ := mem_handedOn handed
  · have hc := (hsub.trans ((List.Sublist.refl before.reverse).append
      (List.sublist_cons_self ⟨here, s⟩ _))).subset
    exact ⟨hsubset hb.1 hc, (takenFrom_of_subset hc).everyIn hb.2⟩
  · have hown : (switchExtent false after).1 ⊆ before.reverse ++ ⟨here, s⟩ :: after :=
      fun e he => by simp [(switchExtent_sublist false after).subset he]
    have harms := (mem_splitArms_snd harm).2
    exact ⟨hcut (hsubset hb.1 hown) harms, (harms.takenFrom hown).everyIn hb.2⟩

/-- What holds of the blocks inside a block holds after an application, when it holds of what
becomes of the blocks handed on. -/
theorem apply_everyIn {P : Block → Prop} {inner : Block → Block} {rule : Rule}
    {before after before' after' : Block} {here : UInt32} {s : Stmt} (hnil : P [])
    (hfront : ∀ c e, P (c ++ [e]) → P c)
    (hinner : ∀ c ∈ rule.handedOn before s after, Every P (inner c))
    (happly : rule.apply inner before here s after = some (before', after'))
    (hb : EveryIn P (before.reverse ++ ⟨here, s⟩ :: after)) : EveryIn P (before'.reverse ++ after') := by
  classical
  -- What becomes of other blocks does not matter.
  let inner' : Block → Block := fun c => if c ∈ rule.handedOn before s after then inner c else []
  have hsame : rule.apply inner before here s after = rule.apply inner' before here s after :=
    apply_congr_handedOn fun c hc => (if_pos hc).symm
  refine (apply_collapse (hsame ▸ happly)).everyIn (fun c _ _ => ?_) hfront hb
  by_cases hc : c ∈ rule.handedOn before s after
  · simp only [inner', if_pos hc]
    exact hinner c hc
  · simp only [inner', if_neg hc]
    exact ⟨hnil, by simp [EveryIn]⟩

/-! Runs. -/

/-- What regrouping keeps of a block: the order of its offsets, and how its switches end. -/
structure KeepsEnds (code : UInt32 → Option Token) (b b' : Block) : Prop where
  offsets : Replaces code (Block.offsets b) (Block.offsets b')
  switches : Every (SwitchesEnd code) b → Every (SwitchesEnd code) b'

theorem Reached.keepsEnds {code b : Block} (hflat : Flat code) (hlaid : WellLaid (tokenAt code) code)
    (h : Reached code .forEach [] b) : KeepsEnds (tokenAt code) b (Block.regroup b) := by
  refine h.regroup_rel (fun b => ⟨Replaces.refl _, fun h => h⟩)
    (fun hab hbc => ⟨hab.offsets.trans hbc.offsets, fun h => hbc.switches (hab.switches h)⟩) ?_
  intro inner hinner rule before after before' after' here s hreached happly
  have hplace := hreached.situated hlaid
  have hcollapse := apply_collapse happly
  refine ⟨?_, fun hb => ⟨?_, ?_⟩⟩
  · by_cases hrule : rule = .forEach
    · subst hrule
      exact hplace.replaces hflat (fun c => (hinner c).offsets) happly
    · exact hcollapse.replaces (fun c => (hinner c).offsets) hrule
  · exact hcollapse.switchesEnd (fun c => (hinner c).offsets) hplace.laid hb.1
  · refine apply_everyIn (by simp [SwitchesEnd]) (fun c e hc => hc.subset (by simp)) ?_ happly hb.2
    exact fun c hc => (hinner c).switches (every_of_handedOn SwitchesEnd.subset SwitchesEnd.cutFrom hb hc)

end Rule

namespace Block

open Rule

theorem switchesEnd_of_flat {code : UInt32 → Option Token} {block : Block} (h : Flat block) :
    SwitchesEnd code block := by
  intro here subject arms hmem
  obtain ⟨token, htoken⟩ := h _ hmem
  simp at htoken

theorem keepsEnds_ofInstructions (code : List Instruction) :
    KeepsEnds (tokenAt (ofInstructions code)) (ofInstructions code) (regroup (ofInstructions code)) :=
  Reached.start.keepsEnds (flat_ofInstructions code) (wellLaid_ofInstructions code)

/-- The offsets of every statement of a tree are in order. -/
theorem inOrder_offsets (code : List Instruction) {part : Part} {e : Placed Stmt}
    (hpart : part ∈ parts (regroup (ofInstructions code))) (he : e ∈ part.block) :
    InOrder (tokenAt (ofInstructions code)) (e.item.offsets e.offset) := by
  have hcode : InOrder (tokenAt (ofInstructions code)) (offsets (ofInstructions code)) := by
    rw [(flat_ofInstructions code).offsets_eq]
    exact List.Pairwise.imp (S := fun j k => tokenAt (ofInstructions code) k ≠ none → j < k)
      (fun hlt _ => hlt) (ascending_ofInstructions code)
  have htree : InOrder (tokenAt (ofInstructions code)) (offsets (regroup (ofInstructions code))) := by
    simpa using (keepsEnds_ofInstructions code).offsets.inOrder [] [] (by simpa using hcode)
  obtain ⟨front, hfront⟩ := endsIn_of_mem_parts hpart
  obtain ⟨pre, post, hblock⟩ := List.append_of_mem he
  have hsub : (e.item.offsets e.offset).Sublist (offsets (regroup (ofInstructions code))) := by
    rw [hfront, hblock]
    simpa [offsets] using ((List.sublist_append_left _ (offsets post ++ part.beyond)).trans
      (List.sublist_append_right (offsets pre) _)).trans (List.sublist_append_right front _)
  exact List.Pairwise.sublist hsub htree

/-- The statement with the greatest offset is the last. -/
theorem Ascending.getLast?_eq {block : Block} (h : Ascending block) {e : Placed Stmt} (he : e ∈ block)
    (hle : ∀ x ∈ block, x.offset ≤ e.offset) : block.getLast? = some e := by
  obtain ⟨pre, post, rfl⟩ := List.append_of_mem he
  obtain ⟨-, hpost, -⟩ := ascending_append.mp h
  cases post with
  | nil => simp
  | cons x rest =>
    have hlt := (ascending_cons.mp hpost).1 x (by simp)
    exact absurd hlt (UInt32.not_lt.mpr (hle x (by simp)))

/-- Where a break goes. A switch that ends in a jump behind the label of its default has
that jump as its last instruction, and a break leaves the switch exactly when it goes
further than the jump. Any other switch takes all that is left of its block. -/
theorem leave_target_iff (code : List Instruction) {part : Part} {here k : UInt32} {subject : Token}
    {arms : Arms} {arm : Placed (Arm Block)} (hpart : part ∈ parts (regroup (ofInstructions code)))
    (hswitch : ⟨here, .switch subject arms⟩ ∈ part.block) (harm : arm ∈ arms)
    (hleave : ⟨k, .leave⟩ ∈ arm.item.body) :
    ∃ target, tokenAt (ofInstructions code) k = some (.jump target) ∧
      ((∃ label value stop destination, (arms.map (·.offset)).getLast? = some label ∧
          tokenAt (ofInstructions code) label = some (.case Token.defaultLink value) ∧
          ((Stmt.switch subject arms).offsets here).getLast? = some stop ∧
          tokenAt (ofInstructions code) stop = some (.jump destination) ∧
          ((∀ j ∈ (Stmt.switch subject arms).offsets here, j < target) ↔ stop < target)) ∨
        part.block.getLast? = some ⟨here, .switch subject arms⟩) := by
  have htree := wellLaid_regroupWithin (plainCount (ofInstructions code) + 1)
    (wellLaid_ofInstructions code)
  have hsourced := everyIn_iff.mp (Every.of_mem_parts htree.sourced.every hpart).2 _ hswitch
  obtain ⟨target, htarget⟩ := ((Stmt.every_switch ..).mp hsourced arm harm).1 _ hleave
  have hflat := flat_ofInstructions code
  have hends := Every.of_mem_parts ((keepsEnds_ofInstructions code).switches
    ⟨switchesEnd_of_flat hflat, everyIn_of_flat hflat⟩) hpart
  refine ⟨target, htarget, (hends here subject arms hswitch).imp ?_ fun hle => ?_⟩
  · rintro ⟨label, value, stop, destination, hlabel, hdefault, hlast, hstop⟩
    have hlast' : ((Stmt.switch subject arms).offsets here).getLast? = some stop := by
      simp [Stmt.offsets, List.getLast?_cons, hlast]
    refine ⟨label, value, stop, destination, hlabel, hdefault, hlast', hstop,
      fun hall => hall stop (List.mem_of_getLast? hlast'), fun hlt j hj => ?_⟩
    -- All offsets in front of the last instruction are smaller.
    have horder := inOrder_offsets code hpart hswitch
    rw [← List.dropLast_append_getLast? _ hlast'] at hj
    rw [← List.dropLast_append_getLast? _ hlast', InOrder, List.pairwise_append] at horder
    rcases List.mem_append.mp hj with hj | hj
    · exact UInt32.lt_trans (horder.2.2 j hj stop (by simp) (by simp [hstop])) hlt
    · obtain rfl := List.mem_singleton.mp hj
      exact hlt
  · exact (Every.of_mem_parts htree.every hpart).ascending.getLast?_eq hswitch hle

/-- A switch whose default has no jump at its end. -/
def defaultFallsOut : List Instruction :=
  [⟨0, .switch (.localVariable "x")⟩, ⟨2, .case 10 (some (.intConst 1))⟩, ⟨4, .stop⟩, ⟨6, .jump 14⟩,
    ⟨10, .case Token.defaultLink none⟩, ⟨12, .stop⟩, ⟨14, .stop⟩]

/-- The switch takes the instruction at 14 that the break at 6 goes to. -/
theorem leave_target_defaultFallsOut :
    ∃ part ∈ parts (regroup (ofInstructions defaultFallsOut)), ∃ subject arms, ∃ arm ∈ arms,
      ⟨6, .leave⟩ ∈ arm.item.body ∧
      tokenAt (ofInstructions defaultFallsOut) 6 = some (.jump 14) ∧
      14 ∈ (Stmt.switch subject arms).offsets 0 ∧
      part.block.getLast? = some ⟨0, .switch subject arms⟩ := by
  have htree : regroup (ofInstructions defaultFallsOut) =
      [⟨0, .switch (.localVariable "x")
        [⟨2, ⟨some (.intConst 1), [⟨4, .plain .stop⟩, ⟨6, .leave⟩]⟩⟩,
          ⟨10, ⟨none, [⟨12, .plain .stop⟩, ⟨14, .plain .stop⟩]⟩⟩]⟩] := rfl
  have hpart : (⟨regroup (ofInstructions defaultFallsOut), []⟩ : Part) ∈
      parts (regroup (ofInstructions defaultFallsOut)) := List.mem_cons_self
  obtain ⟨target, htarget, hends⟩ := leave_target_iff defaultFallsOut hpart
    (by rw [htree]; exact List.mem_cons_self) List.mem_cons_self (List.mem_cons_of_mem _ List.mem_cons_self)
  have hcode : tokenAt (ofInstructions defaultFallsOut) 6 = some (.jump 14) := rfl
  obtain rfl : 14 = target := by simpa [hcode] using htarget
  rcases hends with ⟨label, value, stop, destination, -, -, hlast, hjump, -⟩ | hlast
  · obtain rfl : 14 = stop := by simpa [Stmt.offsets, Arms.offsets, Block.offsets] using hlast
    have hstop : tokenAt (ofInstructions defaultFallsOut) 14 = some .stop := rfl
    simp [hstop] at hjump
  · exact ⟨_, hpart, _, _, _, List.mem_cons_self, List.mem_cons_of_mem _ List.mem_cons_self, htarget,
      by decide, hlast⟩

end Block

end ScriptLift
