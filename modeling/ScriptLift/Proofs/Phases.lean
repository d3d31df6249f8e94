import ScriptLift.Proofs.Lowering

/- Trees half way between code and statements.

   `Block.unfold phase` has the statements of the rules from `phase` on as jumps and
   all others as statements: it is the lowered code at first (`ofInstructions_lower`)
   and the tree itself after the last rule (`unfold_last`). A loop with a counter is
   recognized in two phases: after the first it is a loop without one, behind the
   statement that sets the counter. -/
namespace ScriptLift

mutual

/-- A statement whose kind is recognized in `phase` or later, as jumps. -/
def Stmt.unfold (phase : Nat) (here exit : UInt32) : Stmt → Block
  | .forEach iterator body (some next) last =>
    if phase ≤ 0 then
      ⟨here, .plain (.iterator iterator last)⟩ :: Block.unfold phase next body ++
        [⟨next, .plain .iteratorNext⟩, ⟨last, .plain .iteratorPop⟩]
    else [⟨here, .forEach iterator body (some next) last⟩]
  | .doUntil condition body =>
    if phase ≤ 1 then
      Block.unfold phase condition.offset body ++
        [⟨condition.offset, .plain (.jumpIfNot here condition.item)⟩]
    else [⟨here, .doUntil condition body⟩]
  | .branch condition body (some ⟨jump, other⟩) =>
    if phase ≤ 2 then
      ⟨here, .plain (.jumpIfNot (Block.entry exit other) condition)⟩ ::
        Block.unfold phase jump body ++ ⟨jump, .plain (.jump exit)⟩ :: Block.unfold phase exit other
    else [⟨here, .branch condition body (some ⟨jump, other⟩)⟩]
  | .whileLoop condition body back =>
    if phase ≤ 3 then
      ⟨here, .plain (.jumpIfNot exit condition)⟩ :: Block.unfold phase back body ++
        [⟨back, .plain (.jump here)⟩]
    else [⟨here, .whileLoop condition body back⟩]
  | .forLoop (some start) (some condition) (some step) body back =>
    if phase ≤ 3 then
      ⟨start.offset, .plain start.item⟩ ::
        ⟨condition.offset, .plain (.jumpIfNot exit condition.item)⟩ ::
        Block.unfold phase step.offset body ++
        [⟨step.offset, .plain step.item⟩, ⟨back, .plain (.jump condition.offset)⟩]
    else if phase ≤ 4 then
      [⟨start.offset, .plain start.item⟩,
        ⟨condition.offset,
          .whileLoop condition.item (body ++ [⟨step.offset, .plain step.item⟩]) back⟩]
    else [⟨here, .forLoop (some start) (some condition) (some step) body back⟩]
  | .branch condition body none =>
    if phase ≤ 5 then
      ⟨here, .plain (.jumpIfNot exit condition)⟩ :: Block.unfold phase exit body
    else [⟨here, .branch condition body none⟩]
  | s => [⟨here, s⟩]

/-- The statements of a block whose kinds are recognized in `phase` or later, as
jumps. -/
def Block.unfold (phase : Nat) (exit : UInt32) : List (Placed Stmt) → Block
  | [] => []
  | ⟨here, s⟩ :: rest =>
    s.unfold phase here (Block.entry exit rest) ++ Block.unfold phase exit rest

end

/-! What unfolding keeps. -/

/-- After the last phase nothing is unfolded. -/
theorem Stmt.unfold_last {phase : Nat} (hphase : 6 ≤ phase) (here exit : UInt32) (s : Stmt) :
    s.unfold phase here exit = [⟨here, s⟩] := by
  have hlate (k : Nat) (hk : k < 6) : ¬ phase ≤ k := by omega
  unfold Stmt.unfold
  split <;> simp [hlate]

theorem Stmt.unfold_ne_nil (phase : Nat) (here exit : UInt32) (s : Stmt) :
    s.unfold phase here exit ≠ [] := by
  unfold Stmt.unfold
  split <;> (try split_ifs) <;> simp

namespace Block

theorem unfold_append (phase : Nat) (exit : UInt32) (a b : Block) :
    Block.unfold phase exit (a ++ b) =
      Block.unfold phase (entry exit b) a ++ Block.unfold phase exit b := by
  induction a with
  | nil => rfl
  | cons e rest ih => simp [Block.unfold, ih, entry_append]

theorem unfold_cons (phase : Nat) (exit : UInt32) (e : Placed Stmt) (rest : Block) :
    Block.unfold phase exit (e :: rest) =
      Block.unfold phase (entry exit rest) [e] ++ Block.unfold phase exit rest :=
  unfold_append phase exit [e] rest

@[simp] theorem unfold_singleton (phase : Nat) (exit here : UInt32) (s : Stmt) :
    Block.unfold phase exit [⟨here, s⟩] = s.unfold phase here exit := by
  simp [Block.unfold, entry, offsets]

theorem unfold_last {phase : Nat} (hphase : 6 ≤ phase) (exit : UInt32) (block : Block) :
    Block.unfold phase exit block = block := by
  induction block with
  | nil => rfl
  | cons e rest ih =>
    rw [Block.unfold, ih, Stmt.unfold_last hphase]
    rfl

/-- An unfolded block has only offsets of the block. -/
theorem mem_unfold {block : Block} (phase : Nat) (h : Structured block) :
    ∀ exit, ∀ e ∈ Block.unfold phase exit block, e.offset ∈ offsets block := by
  refine Structured.induction ⟨?nil, ?cons, ?plain, ?plainIf, ?ifElse, ?whileLoop, ?doUntil,
    ?forLoop, ?forEach⟩ block h
  case nil => simp [Block.unfold]
  case cons =>
    intro e rest he hrest exit x hx
    rw [unfold_cons, List.mem_append] at hx
    rw [offsets_cons, List.mem_append]
    exact hx.imp (he _ x) (hrest _ x)
  case plain => simp [Stmt.unfold, Stmt.offsets]
  case plainIf =>
    intro here condition body hbody exit
    simp only [unfold_singleton, offsets_singleton, Stmt.unfold, Stmt.offsets]
    split <;> grind
  case ifElse =>
    intro here condition body jump other _ hbody hother exit
    simp only [unfold_singleton, offsets_singleton, Stmt.unfold, Stmt.offsets]
    split <;> grind
  case whileLoop =>
    intro here condition body back hbody exit
    simp only [unfold_singleton, offsets_singleton, Stmt.unfold, Stmt.offsets]
    split <;> grind
  case doUntil =>
    intro here condition body hfirst hbody exit
    have hhere := List.mem_of_mem_head? (Option.mem_def.mpr hfirst)
    simp only [unfold_singleton, offsets_singleton, Stmt.unfold, Stmt.offsets]
    split <;> grind
  case forLoop =>
    intro start condition step body back _ _ _ hbody exit
    simp only [unfold_singleton, offsets_singleton, Stmt.unfold, Stmt.offsets]
    split <;> grind
  case forEach =>
    intro here iterator body next last hbody exit
    simp only [unfold_singleton, offsets_singleton, Stmt.unfold, Stmt.offsets]
    split <;> grind

theorem unfold_ne_nil {block : Block} (hne : block ≠ []) (phase : Nat) (exit : UInt32) :
    Block.unfold phase exit block ≠ [] := by
  obtain ⟨⟨here, s⟩, rest, rfl⟩ := List.exists_cons_of_ne_nil hne
  rw [unfold_cons, unfold_singleton]
  exact List.append_ne_nil_of_left_ne_nil (s.unfold_ne_nil phase here _) _

/-- A jump at the end of an unfolded block goes back into the block. -/
theorem mem_offsets_of_getLast?_unfold {block : Block} (phase : Nat) (h : Structured block) :
    ∀ exit j d, (Block.unfold phase exit block).getLast? = some ⟨j, .plain (.jump d)⟩ →
      d ∈ offsets block := by
  refine Structured.induction ⟨?nil, ?cons, ?plain, ?plainIf, ?ifElse, ?whileLoop, ?doUntil,
    ?forLoop, ?forEach⟩ block h
  case nil => simp [Block.unfold]
  case cons =>
    intro e rest he hrest exit j d hlast
    rw [unfold_cons, List.getLast?_append, Option.or_eq_some_iff] at hlast
    rw [offsets_cons, List.mem_append]
    rcases hlast with hlast | ⟨-, hlast⟩
    · exact Or.inr (hrest _ j d hlast)
    · exact Or.inl (he _ j d hlast)
  case plain =>
    intro here token hcontrol exit j d hlast
    obtain ⟨rfl, rfl⟩ : here = j ∧ token = .jump d := by simpa [Stmt.unfold] using hlast
    simp [Token.isControl] at hcontrol
  case plainIf =>
    intro here condition body hbody exit j d
    simp only [unfold_singleton, offsets_singleton, Stmt.unfold, Stmt.offsets]
    split
    · intro hlast
      rw [← List.singleton_append, List.getLast?_append, Option.or_eq_some_iff] at hlast
      rcases hlast with hlast | ⟨-, hlast⟩
      · exact List.mem_cons_of_mem _ (hbody _ j d hlast)
      · simp at hlast
    · simp
  case ifElse =>
    intro here condition body jump other hne _ hother exit j d
    simp only [unfold_singleton, offsets_singleton, Stmt.unfold, Stmt.offsets]
    split
    · intro hlast
      rw [List.getLast?_append_of_ne_nil _ (List.cons_ne_nil _ _),
        List.getLast?_cons_of_ne_nil (unfold_ne_nil hne phase exit)] at hlast
      have hd := hother _ j d hlast
      simp [hd]
    · simp
  case whileLoop =>
    intro here condition body back _ exit j d
    simp only [unfold_singleton, offsets_singleton, Stmt.unfold, Stmt.offsets]
    split <;> grind
  case doUntil =>
    intro here condition body _ _ exit j d
    simp only [unfold_singleton, offsets_singleton, Stmt.unfold, Stmt.offsets]
    split <;> simp
  case forLoop =>
    intro start condition step body back _ _ _ _ exit j d
    simp only [unfold_singleton, offsets_singleton, Stmt.unfold, Stmt.offsets]
    split <;> grind
  case forEach =>
    intro here iterator body next last _ exit j d
    simp only [unfold_singleton, offsets_singleton, Stmt.unfold, Stmt.offsets]
    split <;> grind

theorem Lowerable.unfold_lt {exit : UInt32} {block : Block} (h : Lowerable exit block) (phase : Nat)
    (exit' : UInt32) : ∀ e ∈ Block.unfold phase exit' block, e.offset < exit :=
  fun e he => h.below _ (mem_unfold phase h.structured exit' e he)

theorem unfold_zero {block : Block} (h : Structured block) :
    ∀ exit, Block.unfold 0 exit block =
      (Block.lower exit block).map fun i => ⟨i.offset, .plain i.item⟩ := by
  refine Structured.induction ⟨?nil, ?cons, ?plain, ?plainIf, ?ifElse, ?whileLoop, ?doUntil,
    ?forLoop, ?forEach⟩ block h
  case cons =>
    intro e rest he hrest exit
    have he := he (entry exit rest)
    simp_all [Block.lower, entry, offsets, Block.unfold]
  all_goals simp_all [Block.lower, Stmt.lower, Stmt.unfold, Block.unfold, entry, offsets]

/-- The instructions of a lowered tree, as a block. -/
theorem ofInstructions_lower {block : Block} {exit : UInt32} (h : Lowerable exit block) :
    ofInstructions (Block.lower exit block) = Block.unfold 0 exit block := by
  have hoff := lower_offsets h.structured exit
  rw [unfold_zero h.structured, ofInstructions_of_ascending (hoff ▸ h.ascending)]

theorem plainCount_lower {block : Block} {exit : UInt32} (h : Lowerable exit block) :
    plainCount (ofInstructions (Block.lower exit block)) = (offsets block).length := by
  rw [ofInstructions_lower h, unfold_zero h.structured, ← lower_offsets h.structured exit]
  generalize Block.lower exit block = code
  induction code with
  | nil => rfl
  | cons i rest ih => simp_all [plainCount, Stmt.plainCount, Nat.add_comm]

end Block

end ScriptLift
