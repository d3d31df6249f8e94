import ScriptLift.Proofs.FlatCode
import ScriptLift.Proofs.Nesting

/- Regrouping rewrites nothing.

   `Stmt.Sourced code here` reads each part of a statement at `here` back from the
   code: a plain instruction is the one at its offset, a condition is that of a
   branch, and the offsets that a statement remembers are those of the jumps it
   replaced, which go where the statement says. An application of a rule reads its
   guards off plain instructions, and those stand where they stood in the code, so
   the statement it makes is sourced (`Collapse.sourced`); every statement of every
   block of a regrouped tree therefore is. -/
namespace ScriptLift

/-- A statement at `here` says what the code says at the offsets it stands for. -/
def Stmt.Sourced (code : UInt32 → Option Token) (here : UInt32) : Stmt → Prop
  | .plain token => code here = some token
  | .leave => ∃ target, code here = some (.jump target)
  | .branch condition _ otherwise =>
    ∃ target, code here = some (.jumpIfNot target condition) ∧ here < target ∧
      ∀ o ∈ otherwise, ∃ destination, code o.offset = some (.jump destination) ∧ target < destination
  | .whileLoop condition _ back =>
    (∃ target, code here = some (.jumpIfNot target condition)) ∧ code back = some (.jump here)
  | .doUntil condition _ =>
    code condition.offset = some (.jumpIfNot here condition.item) ∧ here < condition.offset
  | .forLoop start condition step _ back =>
    ∃ first test last target, start = some ⟨here, first⟩ ∧ condition = some test ∧ step = some last ∧
      code here = some first ∧ code test.offset = some (.jumpIfNot target test.item) ∧
      code last.offset = some last.item ∧ code back = some (.jump test.offset)
  | .forEach iterator _ next last =>
    code here = some (.iterator iterator last) ∧ ∀ k ∈ next, code k = some .iteratorNext
  | .switch subject arms =>
    code here = some (.switch subject) ∧
      ∀ arm ∈ arms, ∃ next value, code arm.offset = some (.case next value) ∧
        arm.item.label = if next = Token.defaultLink then none else value

/-- Every statement at every depth is sourced. -/
def Block.Sourced (code : UInt32 → Option Token) : Block → Prop :=
  Block.Every fun block => ∀ e ∈ block, e.item.Sourced code e.offset

namespace Rule

variable {code : UInt32 → Option Token}

theorem sourced_iff {block : Block} : Block.Sourced code block ↔
    ∀ e ∈ block, e.item.Sourced code e.offset ∧
      e.item.Every fun c => ∀ e ∈ c, e.item.Sourced code e.offset := by
  rw [Block.Sourced, Block.Every, Block.everyIn_iff]
  exact forall₂_and.symm

theorem Sourced.subset {b c : Block} (h : Block.Sourced code b) (hc : c ⊆ b) :
    Block.Sourced code c := by
  rw [sourced_iff] at h ⊢
  exact fun e he => h e (hc he)

theorem Sourced.cutFrom {own body : Block} (h : Block.Sourced code own) (hbody : CutFrom own body) :
    Block.Sourced code body := by
  rw [sourced_iff] at h ⊢
  intro e he
  obtain ⟨s, hs, hitem⟩ := hbody.mem he
  have hgood := h _ hs
  rw [hitem]
  unfold leaving
  split
  · exact ⟨⟨_, hgood.1⟩, by simp⟩
  · exact hgood

/-- The statement that a rule makes is sourced when the statements it took are. -/
theorem Collapse.sourced {inner : Block → Block} {rule : Rule} {b b' : Block}
    (hinner : ∀ c, Block.Sourced code c → Block.Sourced code (inner c))
    (h : Collapse inner rule b b') (hb : Block.Sourced code b) : Block.Sourced code b' := by
  have hpart : ∀ c ⊆ b, Block.Sourced code (inner c) := fun c hc => hinner c (Sourced.subset hb hc)
  cases h with
  | @forEach pre body post next here last expression marker =>
    have hbody := hpart body fun e he => by simp [he]
    rw [sourced_iff] at hb ⊢
    simp only [List.forall_mem_append, List.forall_mem_cons] at hb ⊢
    obtain ⟨hpre, ⟨hhere, -⟩, ⟨-, hnext⟩, -, hpost⟩ := hb
    refine ⟨hpre, ⟨⟨hhere, ?_⟩, (Stmt.every_forEach ..).mpr hbody⟩, hpost⟩
    intro k hk
    exact (hnext ⟨k, .plain .iteratorNext⟩ (by simp [stepPart, Option.mem_def.mp hk])).1
  | @doUntil pre body post here target condition back =>
    have hbody := hpart body fun e he => by simp [he]
    rw [sourced_iff] at hb ⊢
    simp only [List.forall_mem_append, List.forall_mem_cons] at hb ⊢
    obtain ⟨hpre, -, ⟨hhere, -⟩, hpost⟩ := hb
    exact ⟨hpre, ⟨⟨hhere, back⟩, (Stmt.every_doUntil ..).mpr hbody⟩, hpost⟩
  | @ifElse pre body other post here target jump destination condition ahead further =>
    have hbody := hpart body fun e he => by simp [he]
    have hother := hpart other fun e he => by simp [he]
    rw [sourced_iff] at hb ⊢
    simp only [List.forall_mem_append, List.forall_mem_cons] at hb ⊢
    obtain ⟨hpre, ⟨hhere, -⟩, -, ⟨hjump, -⟩, -, hpost⟩ := hb
    refine ⟨hpre, ⟨⟨target, hhere, ahead, ?_⟩, (Stmt.every_branch ..).mpr ⟨hbody, ?_⟩⟩, hpost⟩
    · rintro o ⟨⟩
      exact ⟨destination, hjump, further⟩
    · rintro o ⟨⟩
      exact hother
  | @whileLoop pre body post here target back condition =>
    have hbody := hpart body fun e he => by simp [he]
    rw [sourced_iff] at hb ⊢
    simp only [List.forall_mem_append, List.forall_mem_cons] at hb ⊢
    obtain ⟨hpre, ⟨hhere, -⟩, -, ⟨hjump, -⟩, hpost⟩ := hb
    exact ⟨hpre, ⟨⟨⟨target, hhere⟩, hjump⟩, (Stmt.every_whileLoop ..).mpr hbody⟩, hpost⟩
  | @forLoop pre body post k here last back start step condition =>
    rw [sourced_iff] at hb ⊢
    simp only [List.forall_mem_append, List.forall_mem_cons] at hb ⊢
    obtain ⟨hpre, ⟨hstart, -⟩, ⟨⟨⟨target, hhere⟩, hback⟩, hloop⟩, hpost⟩ := hb
    -- The step of the loop was the last statement of its body.
    have hwhole := (Stmt.every_whileLoop ..).mp hloop
    have hstep := (sourced_iff.mp hwhole ⟨last, .plain step⟩ (by simp)).1
    have hbody : Block.Sourced code body := Sourced.subset hwhole (by simp)
    exact ⟨hpre, ⟨⟨start, ⟨here, condition⟩, ⟨last, step⟩, target, rfl, rfl, rfl, hstart, hhere, hstep,
      hback⟩, (Stmt.every_forLoop ..).mpr hbody⟩, hpost⟩
  | @plainIf pre body post here target condition ahead =>
    have hbody := hpart body fun e he => by simp [he]
    rw [sourced_iff] at hb ⊢
    simp only [List.forall_mem_append, List.forall_mem_cons] at hb ⊢
    obtain ⟨hpre, ⟨hhere, -⟩, -, hpost⟩ := hb
    exact ⟨hpre, ⟨⟨target, hhere, ahead, by simp⟩, (Stmt.every_branch ..).mpr ⟨hbody, by simp⟩⟩, hpost⟩
  | @switch pre own post here subject =>
    have hown : Block.Sourced code own := Sourced.subset hb fun e he => by simp [he]
    rw [sourced_iff] at hb ⊢
    simp only [List.forall_mem_append, List.forall_mem_cons] at hb ⊢
    obtain ⟨hpre, ⟨hhere, -⟩, -, hpost⟩ := hb
    refine ⟨hpre, ⟨⟨hhere, ?_⟩, (Stmt.every_switch ..).mpr ?_⟩, hpost⟩
    · intro arm harm
      obtain ⟨a, ha, rfl⟩ := List.mem_map.mp harm
      obtain ⟨⟨next, value, hmem, hlabel⟩, -⟩ := mem_splitArms_snd ha
      exact ⟨next, value, (sourced_iff.mp hown _ hmem).1, by simpa [labelOf] using hlabel⟩
    · intro arm harm
      obtain ⟨a, ha, rfl⟩ := List.mem_map.mp harm
      exact hinner _ (Sourced.cutFrom hown (mem_splitArms_snd ha).2)

theorem sourced_regroupWithin (fuel : Nat) {b : Block} (hb : Block.Sourced code b) :
    Block.Sourced code (Block.regroupWithin fuel b) :=
  regroupWithin_rel (R := fun b b' => Block.Sourced code b → Block.Sourced code b')
    (fun _ h => h) (fun hab hbc h => hbc (hab h))
    (fun _ hinner _ _ _ h => h.sourced hinner) fuel b hb

end Rule

namespace Block

theorem sourced_of_flat {code block : Block} (hcode : Ascending code) (hflat : Flat block)
    (hblock : block ⊆ code) : Sourced (tokenAt code) block := by
  rw [Rule.sourced_iff]
  intro e he
  obtain ⟨k, s⟩ := e
  obtain ⟨token, rfl⟩ := hflat _ he
  exact ⟨tokenAt_of_mem hcode (hblock he), by simp⟩

/-- Nothing is rewritten: every statement of the tree of a list of instructions, at
every depth, says what the instructions say at the offsets it stands for, with and
without the return at the end of the body. -/
theorem sourced_regroup_ofInstructions (code : List Instruction) :
    Sourced (tokenAt (ofInstructions code)) (regroup (ofInstructions code)) ∧
    Sourced (tokenAt (ofInstructions code)) (ofBody code) := by
  have hasc := ascending_ofInstructions code
  have hflat := flat_ofInstructions code
  refine ⟨Rule.sourced_regroupWithin _ (sourced_of_flat hasc hflat (List.Subset.refl _)), ?_⟩
  have hdrop : dropReturn (ofInstructions code) ⊆ ofInstructions code := by
    unfold dropReturn
    split
    · split
      · exact List.dropLast_subset _
      · exact List.Subset.refl _
    · exact List.Subset.refl _
  exact Rule.sourced_regroupWithin _ (sourced_of_flat hasc (fun e he => hflat e (hdrop he)) hdrop)

end Block

end ScriptLift
