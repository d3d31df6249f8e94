import ScriptLift.Proofs.Collapse
import ScriptLift.Proofs.FlatCode

/- Regrouping loses nothing.

   Every rule but one takes consecutive statements and puts them, in the same
   order, into the parts of one statement. The exception is a loop over an
   iterator: the statement at its end goes, and only the offset of that end is
   kept. So nothing is lost as long as a plain instruction stands there.

   Where the ends of the iterators are offsets of the code, each loop over an
   iterator is recognized in the first pass, over plain instructions
   (`scanFrom_forEach`). What that pass leaves is settled: every iterator left ends
   at or before itself, or beyond the block. A settled block stays settled, so no
   later pass recognizes another (`keeps_regroupWithin`). -/
namespace ScriptLift

namespace Block

/-- Every iterator among the statements ends at or before itself, or beyond the
block. -/
def Settled (block : Block) : Prop :=
  ∀ k expression last, ⟨k, .plain (.iterator expression last)⟩ ∈ block →
    last ≤ k ∨ ∀ e ∈ block, e.offset < last

theorem Settled.of_part {b c : Block} (h : Settled b)
    (plain : ∀ k token, ⟨k, .plain token⟩ ∈ c → ⟨k, .plain token⟩ ∈ b)
    (below : ∀ limit, (∀ e ∈ b, e.offset < limit) → ∀ e ∈ c, e.offset < limit) : Settled c := by
  intro k expression last hk
  rcases h k expression last (plain _ _ hk) with hle | hlt
  · exact .inl hle
  · exact .inr (below last hlt)

theorem Settled.subset {b c : Block} (h : Settled b) (hc : c ⊆ b) : Settled c :=
  h.of_part (fun _ _ hk => hc hk) (fun _ hlt e he => hlt e (hc he))

theorem Settled.cutFrom {b own body : Block} (h : Settled b) (hown : own ⊆ b)
    (hbody : Rule.CutFrom own body) : Settled body := by
  refine h.of_part ?_ ?_
  · exact fun k token hk => hown (hbody.mem_of_ne_leave hk (by simp))
  · intro limit hlt e he
    obtain ⟨s, hs, -⟩ := hbody.mem he
    exact hlt ⟨e.offset, s⟩ (hown hs)

end Block

namespace Rule

open Block

/-! The offsets of the parts of a statement. -/

theorem offsets_stepPart (next : Option UInt32) : Block.offsets (stepPart next) = next.toList := by
  cases next <;> simp [stepPart, Block.offsets, Stmt.offsets]

theorem offsets_leaving (here : UInt32) (s : Stmt) : (leaving s).offsets here = s.offsets here := by
  unfold leaving
  split <;> simp [Stmt.offsets]

theorem offsets_splitArms (own : Block) :
    Block.offsets (splitArms own).1 ++ Arms.offsets (splitArms own).2 = Block.offsets own := by
  fun_induction splitArms own with
  | case1 => simp [Block.offsets, Arms.offsets]
  | case2 here rest body arms hrest next value ih =>
    rw [hrest] at ih
    simp [Block.offsets, Arms.offsets, Stmt.offsets, ← ih]
  | case3 here rest body arms hrest s hs ih =>
    rw [hrest] at ih
    simp [Block.offsets, offsets_leaving, ← ih]

theorem offsets_regroupArms {inner : Block → Block} {arms : Arms}
    (h : ∀ arm ∈ arms, Block.offsets (inner arm.item.body) = Block.offsets arm.item.body) :
    Arms.offsets (regroupArms inner arms) = Arms.offsets arms := by
  induction arms with
  | nil => rfl
  | cons arm rest ih =>
    have harm := h arm (by simp)
    have hrest := ih fun a ha => h a (by simp [ha])
    unfold regroupArms at hrest ⊢
    simp [Arms.offsets, harm, hrest]

/-! Settled blocks. -/

theorem Collapse.settled {inner : Block → Block} {rule : Rule} {b b' : Block}
    (h : Collapse inner rule b b') (hb : Settled b) : Settled b' :=
  hb.of_part (fun _ _ hk => h.plain_mem hk) (fun _ hlt => h.keys_lt hlt)

/-- An application to a settled block keeps the offsets and their order. -/
theorem Collapse.offsets_eq {inner : Block → Block} {rule : Rule} {b b' : Block}
    (hinner : ∀ c, Settled c → Block.offsets (inner c) = Block.offsets c)
    (h : Collapse inner rule b b') (hb : Settled b) : Block.offsets b' = Block.offsets b := by
  cases h with
  | @forEach pre body post next here last expression marker ahead body_below =>
    -- The end of the loop would be a statement of the block.
    rcases hb here expression last (by simp) with hle | hlt
    · exact absurd ahead (UInt32.not_lt.mpr hle)
    · exact absurd (hlt ⟨last, marker⟩ (by simp)) (UInt32.lt_irrefl _)
  | @doUntil pre body post here target condition back pre_below body_above =>
    have hbody := hinner body (hb.subset fun e he => by simp [he])
    simp [Block.offsets, Stmt.offsets, hbody]
  | @ifElse pre body other post here target jump destination condition =>
    have hbody := hinner body (hb.subset fun e he => by simp [he])
    have hother := hinner other (hb.subset fun e he => by simp [he])
    simp [Block.offsets, Stmt.offsets, hbody, hother]
  | @whileLoop pre body post here target back condition =>
    have hbody := hinner body (hb.subset fun e he => by simp [he])
    simp [Block.offsets, Stmt.offsets, hbody]
  | forLoop => simp [Block.offsets, Stmt.offsets]
  | @plainIf pre body post here target condition =>
    have hbody := hinner body (hb.subset fun e he => by simp [he])
    simp [Block.offsets, Stmt.offsets, hbody]
  | @switch pre own post here subject opens extent =>
    have harms : Arms.offsets (regroupArms inner (splitArms own).2) =
        Arms.offsets (splitArms own).2 := by
      refine offsets_regroupArms fun arm harm => hinner _ ?_
      exact hb.cutFrom (fun e he => by simp [he]) (mem_splitArms_snd harm).2
    have hown := offsets_splitArms own
    rw [splitArms_fst_of_opens opens extent] at hown
    simp [Block.offsets, Stmt.offsets, harms, ← hown]

/-- A settled block stays settled and keeps its offsets. -/
def Keeps (b b' : Block) : Prop := Settled b → Settled b' ∧ Block.offsets b' = Block.offsets b

theorem Keeps.refl (b : Block) : Keeps b b := fun hb => ⟨hb, rfl⟩

theorem Keeps.trans {a b c : Block} (hab : Keeps a b) (hbc : Keeps b c) : Keeps a c := by
  intro ha
  obtain ⟨hb, hoff⟩ := hab ha
  obtain ⟨hc, hoff'⟩ := hbc hb
  exact ⟨hc, hoff'.trans hoff⟩

theorem Collapse.keeps {inner : Block → Block} {rule : Rule} {b b' : Block}
    (hinner : ∀ c, Keeps c (inner c)) (h : Collapse inner rule b b') : Keeps b b' :=
  fun hb => ⟨h.settled hb, h.offsets_eq (fun c hc => (hinner c hc).2) hb⟩

theorem keeps_regroupWithin (fuel : Nat) (b : Block) : Keeps b (regroupWithin fuel b) :=
  regroupWithin_rel Keeps.refl Keeps.trans (fun _ hinner _ _ _ h => h.keeps hinner) fuel b

/-! The first pass. -/

/-- Flat code whose iterators end at an instruction of it, or beyond it. -/
structure Anchored (code : Block) : Prop where
  ascending : Ascending code
  flat : Flat code
  ends : ∀ k expression last, ⟨k, .plain (.iterator expression last)⟩ ∈ code →
    last ≤ k ∨ (∀ e ∈ code, e.offset < last) ∨ last ∈ keys code

theorem Anchored.tail {e : Placed Stmt} {rest : Block} (h : Anchored (e :: rest)) :
    Anchored rest := by
  obtain ⟨hlt, hrest⟩ := ascending_cons.mp h.ascending
  refine ⟨hrest, fun x hx => h.flat x (by simp [hx]), ?_⟩
  intro k expression last hk
  rcases h.ends k expression last (by simp [hk]) with hle | hall | hmem
  · exact .inl hle
  · exact .inr (.inl fun x hx => hall x (by simp [hx]))
  · rcases List.mem_cons.mp hmem with rfl | hmem
    · exact .inl (UInt32.le_of_lt (hlt _ hk))
    · exact .inr (.inr hmem)

theorem Anchored.suffix {front rest : Block} (h : Anchored (front ++ rest)) : Anchored rest := by
  induction front with
  | nil => exact h
  | cons e front ih => exact ih h.tail

/-- The body of a loop, without the step at its end, is anchored as the code was. -/
theorem Anchored.body {body post : Block} {next : Option UInt32} {e : Placed Stmt}
    (h : Anchored (body ++ stepPart next ++ e :: post)) : Anchored body := by
  obtain ⟨hfront, hback, hcross⟩ := ascending_append.mp h.ascending
  obtain ⟨hbody, -, hstep⟩ := ascending_append.mp hfront
  obtain ⟨hpost, -⟩ := ascending_cons.mp hback
  refine ⟨hbody, fun x hx => h.flat x (by simp [hx]), ?_⟩
  intro k expression last hk
  rcases h.ends k expression last (by simp [hk]) with hle | hall | hmem
  · exact .inl hle
  · exact .inr (.inl fun x hx => hall x (by simp [hx]))
  · -- An end behind the body is beyond it.
    obtain ⟨x, hx, rfl⟩ := mem_keys.mp hmem
    rcases List.mem_append.mp hx with hx | hx
    · rcases List.mem_append.mp hx with hx | hx
      · exact .inr (.inr (mem_keys.mpr ⟨x, hx, rfl⟩))
      · exact .inr (.inl fun y hy => hstep y hy x hx)
    · exact .inr (.inl fun y hy => hcross y (by simp [hy]) x hx)

/-- An iterator that ends at a later instruction is recognized. -/
theorem applyForEach_ne_none {inner : Block → Block} {before after : Block} {here last : UInt32}
    {expression : Token} (hafter : Ascending after) (ahead : here < last) (hlast : last ∈ keys after) :
    applyForEach inner before here (.plain (.iterator expression last)) after ≠ none := by
  obtain ⟨marker, rest, hrest⟩ := hafter.onward_of_mem_keys hlast
  simp [applyForEach, ahead, hrest]

/-- The pass that recognizes the loops over iterators leaves a settled block with
the same offsets. -/
theorem scanFrom_forEach {inner : Block → Block}
    (hinner : ∀ c, Anchored c → Block.offsets (inner c) = Block.offsets c) (fuel : Nat)
    (before after : Block) (hfuel : after.length ≤ fuel)
    (hall : Ascending (before.reverse ++ after)) (hafter : Anchored after)
    (hbefore : ∀ k expression last, ⟨k, .plain (.iterator expression last)⟩ ∈ before →
      last ≤ k ∨ ∀ e ∈ before.reverse ++ after, e.offset < last) :
    Settled (forEach.scanFrom inner fuel before after).1 ∧
      Block.offsets (forEach.scanFrom inner fuel before after).1 =
        Block.offsets (before.reverse ++ after) := by
  -- The invariant of the pass: iterators passed over end in front of themselves or beyond
  -- the block, and what is still to come is anchored on its own.
  fun_induction scanFrom inner forEach fuel before after with
  | case1 before after =>
    obtain rfl : after = [] := by simpa using hfuel
    exact ⟨fun k expression last hk => hbefore k expression last (by simpa using hk), rfl⟩
  | case2 _ before =>
    refine ⟨fun k expression last hk => ?_, by simp⟩
    simpa using hbefore k expression last (by simpa using hk)
  | case3 fuel before here s after happly ih =>
    have hcons : (⟨here, s⟩ :: before).reverse ++ after = before.reverse ++ ⟨here, s⟩ :: after := by
      simp
    obtain ⟨-, hasc, hcross⟩ := ascending_append.mp hall
    replace hasc := (ascending_cons.mp hasc).2
    rw [hcons] at ih
    refine ih (by simpa using hfuel) hall hafter.tail ?_
    intro k expression last hk
    rcases List.mem_cons.mp hk with heq | hk
    · -- The iterator just passed over ends at or before itself, or beyond the block.
      cases heq
      rcases hafter.ends here expression last (by simp) with hle | hall' | hmem
      · exact .inl hle
      · refine .inr fun e he => ?_
        rcases List.mem_append.mp he with he | he
        · exact UInt32.lt_trans (hcross e he _ List.mem_cons_self) (hall' _ List.mem_cons_self)
        · exact hall' e he
      · rcases List.mem_cons.mp hmem with rfl | hmem
        · exact .inl (UInt32.le_refl _)
        · refine .inl (UInt32.not_lt.mp fun ahead => ?_)
          exact applyForEach_ne_none hasc ahead hmem happly
    · exact hbefore k expression last hk
  | case4 fuel before here s after before' after' happly ih =>
    obtain ⟨expression, last, body, next, marker, rfl, ahead, rfl, -, rfl⟩ :=
      applyForEach_eq_some happly
    have hloop := hafter.tail
    have hbody := hinner body hloop.body
    obtain ⟨token, rfl⟩ : ∃ token, marker = .plain token := by
      simpa using hloop.flat ⟨last, marker⟩ (by simp)
    have hoff : Block.offsets ((⟨here, .forEach expression (inner body) next last⟩ :: before).reverse
        ++ after') = Block.offsets (before.reverse ++ ⟨here, .plain (.iterator expression last)⟩ ::
          (body ++ stepPart next ++ ⟨last, .plain token⟩ :: after')) := by
      simp [Block.offsets, Stmt.offsets, hbody, offsets_stepPart]
    have hkeys : (keys ((⟨here, .forEach expression (inner body) next last⟩ :: before).reverse
        ++ after')).Sublist (keys (before.reverse ++ ⟨here, .plain (.iterator expression last)⟩ ::
          (body ++ stepPart next ++ ⟨last, .plain token⟩ :: after'))) := by
      have hsuffix := List.sublist_append_right (keys body ++ keys (stepPart next) ++ [last]) (keys after')
      simpa using hsuffix
    have hrest : Anchored after' := hloop.suffix.tail
    rw [← hoff]
    refine ih ?_ (hall.of_keys_sublist hkeys) hrest ?_
    · simp only [List.length_cons, List.length_append] at hfuel
      omega
    · intro k e l hk
      rcases hbefore k e l (by simpa using hk) with hle | hlt
      · exact .inl hle
      · refine .inr fun x hx => ?_
        obtain ⟨y, hy, hyx⟩ := mem_keys.mp (hkeys.subset (mem_keys.mpr ⟨x, hx, rfl⟩))
        exact hyx ▸ hlt y hy

/-- Regrouping anchored code keeps its offsets. -/
theorem regroupWithin_anchored (fuel : Nat) {code : Block} (h : Anchored code) :
    Block.offsets (regroupWithin fuel code) = Block.offsets code := by
  induction fuel generalizing code with
  | zero => rfl
  | succ fuel ih =>
    -- Only the first pass of the first round sees iterators that are not settled.
    obtain ⟨hsettled, hoff⟩ := scanFrom_forEach (fun c hc => ih hc) code.length [] code
      (Nat.le_refl _) h.ascending h (by simp)
    have hrest := scanAll_rel Keeps.refl Keeps.trans order.tail
      (fun _ _ _ _ h => h.keeps (keeps_regroupWithin fuel)) (forEach.scan (regroupWithin fuel) code).1
    have hfirst : (scanAll (regroupWithin fuel) order.tail (forEach.scan (regroupWithin fuel) code).1).1
        = (scanAll (regroupWithin fuel) order code).1 := (scanAll_cons_fst ..).symm
    rw [hfirst] at hrest
    obtain ⟨hround, hoff'⟩ := hrest hsettled
    have hround_off := hoff'.trans hoff
    unfold regroupWithin
    split
    · next block hblock =>
      rw [hblock] at hround hround_off
      rw [(keeps_regroupWithin fuel block hround).2, hround_off]
      rfl
    · next block hblock =>
      rw [hblock] at hround_off
      exact hround_off

/-! The code of a list of instructions. -/

/-- The return at the end of a body goes, whatever stands before it stays anchored. -/
theorem Anchored.dropReturn {code : Block} (h : Anchored code) : Anchored (dropReturn code) := by
  unfold Block.dropReturn
  split
  · next k token hlast =>
    split
    · rw [← List.dropLast_append_getLast? _ hlast] at h
      have hloop : Anchored (code.dropLast ++ stepPart none ++ [⟨k, .plain token⟩]) := by
        simpa [stepPart] using h
      exact hloop.body
    · exact h
  · exact h

theorem anchored_ofInstructions {code : List Instruction}
    (ends : ∀ i ∈ code, ∀ expression last, i.item = .iterator expression last → i.offset < last →
      ∃ j ∈ code, j.offset = last) : Anchored (ofInstructions code) := by
  refine ⟨ascending_ofInstructions code, flat_ofInstructions code, ?_⟩
  intro k expression last hk
  obtain ⟨i, hi, heq⟩ := mem_ofInstructions hk
  simp only [Placed.mk.injEq, Stmt.plain.injEq] at heq
  obtain ⟨rfl, hitem⟩ := heq
  rcases UInt32.lt_or_le i.offset last with ahead | hle
  · exact .inr (.inr (mem_keys_ofInstructions.mpr (ends i hi expression last hitem.symm ahead)))
  · exact .inl hle

end Rule

namespace Block

/-- Regrouping is lossless: where every iterator that ends after itself ends at an
instruction, the tree of a list of instructions stands for exactly their offsets,
each once and in ascending order. Without the return at the end of a body, only
the greatest offset is missing. -/
theorem offsets_regroup_ofInstructions (code : List Instruction)
    (ends : ∀ i ∈ code, ∀ expression last, i.item = .iterator expression last → i.offset < last →
      ∃ j ∈ code, j.offset = last) :
    (Ascending (ofInstructions code) ∧
      ∀ k, k ∈ keys (ofInstructions code) ↔ ∃ i ∈ code, i.offset = k) ∧
    offsets (regroup (ofInstructions code)) = keys (ofInstructions code) ∧
    ((∃ k token, (ofInstructions code).getLast? = some ⟨k, .plain token⟩ ∧
        token.isEmptyReturn = true) →
      offsets (ofBody code) = (keys (ofInstructions code)).dropLast) ∧
    ((¬ ∃ k token, (ofInstructions code).getLast? = some ⟨k, .plain token⟩ ∧
        token.isEmptyReturn = true) →
      offsets (ofBody code) = keys (ofInstructions code)) := by
  have hcode := Rule.anchored_ofInstructions ends
  have hreturn := hcode.dropReturn
  have hbody : offsets (ofBody code) = keys (dropReturn (ofInstructions code)) := by
    rw [ofBody, regroup, Rule.regroupWithin_anchored _ hreturn, hreturn.flat.offsets_eq]
  refine ⟨⟨hcode.ascending, fun k => mem_keys_ofInstructions⟩, ?_, ?_, ?_⟩
  · rw [regroup, Rule.regroupWithin_anchored _ hcode, hcode.flat.offsets_eq]
  · rintro ⟨k, token, hlast, hempty⟩
    rw [hbody]
    simp [dropReturn, hlast, hempty, keys]
  · intro hlast
    rw [hbody]
    unfold dropReturn
    split
    · next k token hk =>
      split
      · next hempty => exact absurd ⟨k, token, hk, hempty⟩ hlast
      · rfl
    · rfl

/-- A loop over an iterator around a loop that ends in its condition. -/
def loopInLoop : List Instruction :=
  [⟨0, .iterator .selfObject 20⟩, ⟨4, .stop⟩, ⟨8, .jumpIfNot 4 .noObject⟩, ⟨12, .iteratorNext⟩,
    ⟨20, .iteratorPop⟩, ⟨24, .ret .nothing⟩]

theorem offsets_regroup_loopInLoop :
    offsets (regroup (ofInstructions loopInLoop)) = [0, 4, 8, 12, 20, 24] ∧
    offsets (ofBody loopInLoop) = [0, 4, 8, 12, 20] := by
  have h := offsets_regroup_ofInstructions loopInLoop (by simp [loopInLoop])
  exact ⟨h.2.1, h.2.2.1 ⟨24, .ret .nothing, rfl, rfl⟩⟩

end Block

end ScriptLift
