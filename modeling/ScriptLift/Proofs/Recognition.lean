import ScriptLift.Proofs.Pass
import ScriptLift.Proofs.Phases

/- Regrouping undoes lowering.

   A pass of the rule of rank `r` takes the instructions of a structured tree from
   phase `r` to phase `r + 1`: statements of its kind are recognized, everything else
   is passed over. `Block.Passes` says so of a block inside a longer one, between what
   the pass is done with and what is still to come, and is proved by induction over the
   tree, one case for each kind of statement. Bodies that a rule cuts out are in the
   phase of the rule (the body in front of a branch back is one further), and `inner`
   regroups them from there (`Block.Inverts`). A round of all rules therefore gives the
   tree, and the next round leaves it alone. -/
namespace ScriptLift

/-! Blocks between two passes. -/

namespace Block

/-- The plain instruction nearest in front, if there is one, has these operands. -/
def Follows (operands : List Token) : Block → Prop
  | ⟨_, .plain start⟩ :: _ => start.children = operands
  | _ => True

/-- What is done with lies before the entry of a block, and what is left lies at its
exit or behind. The rule for counted loops also reads the operands in front. -/
structure Around (rule : Rule) (operands : List Token) (entry exit : UInt32) (before rest : Block) :
    Prop where
  before_lt : ∀ e ∈ before, e.offset < entry
  le_rest : ∀ e ∈ rest, exit ≤ e.offset
  follows : rule.rank = 4 → Follows operands before

/-- Bodies of fewer than `size` instructions are regrouped from any phase. -/
def Inverts (inner : Block → Block) (size : Nat) : Prop :=
  ∀ phase exit block, Lowerable exit block → Uncounted [] block → (offsets block).length < size →
    inner (Block.unfold phase exit block) = block

/-- A pass of the rule goes over the block from one phase to the next. -/
def Passes (inner : Block → Block) (rule : Rule) (phase : Nat) (block : Block) : Prop :=
  ∀ exit operands before rest, Lowerable exit block → Uncounted operands block →
    (phase = rule.rank → Inverts inner (offsets block).length) →
    Around rule operands (entry exit block) exit before rest →
    rule.pass inner before (Block.unfold phase exit block ++ rest) =
      rule.pass inner ((Block.unfold (max phase (rule.rank + 1)) exit block).reverse ++ before) rest

theorem Inverts.mono {inner : Block → Block} {m n : Nat} (h : Inverts inner n) (hle : m ≤ n) :
    Inverts inner m :=
  fun phase exit block hl hu hlt => h phase exit block hl hu (Nat.lt_of_lt_of_le hlt hle)

/-- The operands in front of what follows an unfolded block, while only branches with
one part are jumps. -/
theorem follows_unfold {block : Block} {phase : Nat} (hphase : 5 ≤ phase) (h : Structured block) :
    ∀ exit operands before, Follows operands before →
      Follows (lastOperands operands block) ((Block.unfold phase exit block).reverse ++ before) := by
  refine Structured.induction ⟨?nil, ?cons, ?plain, ?plainIf, ?ifElse, ?whileLoop, ?doUntil,
    ?forLoop, ?forEach⟩ block h
  case nil =>
    intro exit operands before hbefore
    exact hbefore
  case cons =>
    intro e rest he hrest exit operands before hbefore
    rw [unfold_cons, List.reverse_append, List.append_assoc]
    exact hrest exit _ _ (he _ operands before hbefore)
  case plainIf =>
    intro here condition body hbody exit operands before hbefore
    rw [unfold_singleton, Stmt.unfold]
    split
    · have := hbody exit [condition] (⟨here, .plain (.jumpIfNot exit condition)⟩ :: before) rfl
      simpa [lastOperands, Stmt.lastOperands] using this
    · trivial
  all_goals
    intros
    have hlate (k : Nat) (hk : k < 5) : ¬ phase ≤ k := by omega
    simp [Stmt.unfold, hlate, Follows, lastOperands, Stmt.lastOperands]

section Around
variable {rule : Rule} {operands : List Token} {exit : UInt32} {e : Placed Stmt} {block before rest : Block}

/-- Around the first statement of a block, the others are still to come. -/
theorem Around.first (h : Around rule operands (entry exit (e :: block)) exit before rest)
    (hl : Lowerable exit (e :: block)) (phase : Nat) :
    Around rule operands (entry (entry exit block) [e]) (entry exit block) before
      (Block.unfold phase exit block ++ rest) := by
  have hentry : entry exit (e :: block) = entry (entry exit block) [e] := entry_append exit [e] block
  refine ⟨hentry ▸ h.before_lt, ?_, h.follows⟩
  intro x hx
  rcases List.mem_append.mp hx with hx | hx
  · exact hl.tail.entry_le _ (mem_unfold _ hl.tail.structured _ x hx)
  · exact UInt32.le_trans hl.tail.entry_le_exit (h.le_rest x hx)

/-- Around the others, the first statement is done with. -/
theorem Around.next (h : Around rule operands (entry exit (e :: block)) exit before rest)
    (hl : Lowerable exit (e :: block)) (phase : Nat) (hphase : rule.rank = 4 → 5 ≤ phase) :
    Around rule e.item.lastOperands (entry exit block) exit
      ((Block.unfold phase (entry exit block) [e]).reverse ++ before) rest := by
  have hentry : entry exit (e :: block) = entry (entry exit block) [e] := entry_append exit [e] block
  refine ⟨?_, h.le_rest, ?_⟩
  · intro x hx
    rcases List.mem_append.mp hx with hx | hx
    · exact hl.first.unfold_lt phase _ x (List.mem_reverse.mp hx)
    · exact UInt32.lt_of_lt_of_le (hentry ▸ h.before_lt x hx) hl.first.entry_le_exit
  · intro hrule
    exact follows_unfold (hphase hrule) hl.first.structured _ operands before (h.follows hrule)

end Around

/-! One case for each kind of statement. -/

section Cases
variable {inner : Block → Block} {rule : Rule} {phase : Nat} {here : UInt32} {condition : Token}
  {body other : Block}

theorem before_lt_entry {before : Block} {s : Stmt} {exit : UInt32}
    (hbefore : ∀ e ∈ before, e.offset < here) (hexit : here < exit)
    (hbody : ∀ k ∈ offsets body, here < k) :
    ∀ e ∈ (⟨here, s⟩ :: before : Block), e.offset < entry exit body := by
  have hentry : here < entry exit body := entry_of hexit hbody
  grind

theorem passes_nil : Passes inner rule phase [] := by
  intro exit operands before rest _ _ _ _
  rfl

theorem passes_cons {e : Placed Stmt} {block : Block} (he : Passes inner rule phase [e])
    (hblock : Passes inner rule phase block) :
    Passes inner rule phase (e :: block) := by
  intro exit operands before rest hl hu hinner harea
  have hlen : (offsets (e :: block)).length = (offsets [e]).length + (offsets block).length := by
    rw [offsets_cons e block, List.length_append]
  have hfirst := he (entry exit block) operands before _ hl.first ⟨hu.1, trivial⟩
    (fun heq => (hinner heq).mono (by omega)) (harea.first hl phase)
  have hnext := hblock exit e.item.lastOperands _ rest hl.tail hu.2
    (fun heq => (hinner heq).mono (by omega))
    (harea.next hl (max phase (rule.rank + 1)) (by omega))
  rw [unfold_cons phase exit e block, unfold_cons (max phase _) exit e block, List.append_assoc,
    List.reverse_append, List.append_assoc, hfirst, hnext]

theorem passes_plain {token : Token} (h : token.isControl = false) :
    Passes inner rule phase [⟨here, .plain token⟩] := by
  intro exit operands before rest _ _ _ _
  simp only [unfold_singleton, Stmt.unfold]
  exact Rule.pass_skip (Rule.apply_of_not_control h)

/-- A statement that is no loop with the condition in front and no longer unfolded is
passed over. -/
theorem pass_node {s : Stmt} (before rest : Block) (hs : ∀ token, s ≠ .plain token)
    (hwhile : ∀ condition body back, s ≠ .whileLoop condition body back) :
    rule.pass inner before ([⟨here, s⟩] ++ rest) = rule.pass inner ([⟨here, s⟩].reverse ++ before) rest := by
  apply Rule.pass_skip
  by_cases hrule : rule.rank = 4
  · obtain rfl : rule = .forLoop := Rule.rank_inj hrule
    exact Rule.applyFor_of_not_while hwhile
  · exact Rule.apply_of_not_plain hs hrule

theorem passes_forEach {iterator : Token} {next last : UInt32} (hphase : rule.rank ≤ phase) :
    Passes inner rule phase [⟨here, .forEach iterator body (some next) last⟩] := by
  intro exit operands before rest hl hu hinner harea
  obtain ⟨hbody, hhere, hnext, hlast, hexit⟩ := (lowerable_singleton.mp hl).forEach
  have hrest := harea.le_rest
  rw [unfold_singleton, unfold_singleton]
  by_cases hp : phase ≤ 0
  · have hr : rule.rank = 0 := by omega
    obtain rfl : rule = .forEach := Rule.rank_inj hr
    obtain rfl : phase = 0 := by omega
    have hinv := hinner rfl 0 next body hbody hu.1 (by simp +arith [Stmt.offsets])
    have hfire := @Rule.pass_forEach inner before (Block.unfold 0 next body) rest here iterator next
      last (hbody.unfold_lt 0 next) hnext hlast (by grind)
    rw [hinv] at hfire
    simpa [Stmt.unfold, Rule.rank] using hfire
  · simp only [Stmt.unfold, if_neg hp, if_neg (show ¬ max phase (rule.rank + 1) ≤ 0 by omega)]
    exact pass_node before rest (by simp) (by simp)

theorem passes_doUntil {condition : Placed Token} (hphase : rule.rank ≤ phase)
    (ih : Passes inner rule phase body) :
    Passes inner rule phase [⟨here, .doUntil condition body⟩] := by
  intro exit operands before rest hl hu hinner harea
  obtain ⟨hbody, hentry, hge, hhere, hexit⟩ := (lowerable_singleton.mp hl).doUntil
  have hbefore := entry_singleton (lowerable_singleton.mp hl) ▸ harea.before_lt
  have hrest := harea.le_rest
  rw [unfold_singleton, unfold_singleton]
  by_cases hp : phase ≤ 1
  · -- the pass has been over the body when it comes to the branch behind
    have hover := ih condition.offset [] before
      (⟨condition.offset, .plain (.jumpIfNot here condition.item)⟩ :: rest) hbody hu.1
      (fun heq => (hinner heq).mono (by simp [Stmt.offsets]))
      ⟨hentry ▸ hbefore, by grind, by omega⟩
    by_cases hr : rule.rank = 1
    · obtain rfl : rule = .doUntil := Rule.rank_inj hr
      obtain rfl : phase = 1 := by omega
      have hinv := hinner rfl 2 _ body hbody hu.1 (by simp [Stmt.offsets])
      have hfire := @Rule.pass_doUntil inner before (Block.unfold 2 condition.offset body) rest
        condition.offset condition.item here hbefore
        (fun e he => hge _ (mem_unfold 2 hbody.structured _ e he)) hhere
      rw [hinv] at hfire
      simpa [Stmt.unfold, Rule.rank] using hover.trans hfire
    · simp only [Stmt.unfold, if_pos hp, if_pos (show max phase (rule.rank + 1) ≤ 1 by omega)]
      rw [List.append_assoc, List.singleton_append, hover,
        Rule.pass_skip (Rule.apply_branch_back hhere hr)]
      simp
  · simp only [Stmt.unfold, if_neg hp, if_neg (show ¬ max phase (rule.rank + 1) ≤ 1 by omega)]
    exact pass_node before rest (by simp) (by simp)

theorem passes_ifElse {jump : UInt32} (hphase : rule.rank ≤ phase)
    (ihbody : Passes inner rule phase body) (ihother : Passes inner rule phase other) :
    Passes inner rule phase [⟨here, .branch condition body (some ⟨jump, other⟩)⟩] := by
  intro exit operands before rest hl hu hinner harea
  obtain ⟨hbody, hother, hne, hhere, hjump, hgt, hexit⟩ := (lowerable_singleton.mp hl).ifElse
  have hbefore := entry_singleton (lowerable_singleton.mp hl) ▸ harea.before_lt
  have hrest := harea.le_rest
  have htarget : jump < entry exit other := hgt _ (entry_mem hne hother.structured exit)
  have hahead : here < entry exit other := UInt32.lt_trans hjump htarget
  have hbody_lt := hbody.unfold_lt phase jump
  have hother_ge : ∀ e ∈ Block.unfold phase exit other, entry exit other ≤ e.offset :=
    fun e he => hother.entry_le _ (mem_unfold phase hother.structured exit e he)
  rw [unfold_singleton, unfold_singleton]
  by_cases hp : phase ≤ 2
  · by_cases hr : rule.rank = 2
    · obtain rfl : rule = .ifElse := Rule.rank_inj hr
      obtain rfl : phase = 2 := by omega
      have hinvBody := hinner rfl 2 jump body hbody hu.1.1 (by simp +arith [Stmt.offsets])
      have hinvOther := hinner rfl 2 exit other hother hu.1.2 (by simp +arith [Stmt.offsets])
      have hfire := @Rule.pass_ifElse inner before (Block.unfold 2 jump body)
        (Block.unfold 2 exit other) rest here condition _ jump exit hahead hbody_lt htarget
        (fun e he => ⟨hother_ge e he, hother.unfold_lt 2 exit e he⟩)
        (hother.below _ (entry_mem hne hother.structured exit)) hrest
      rw [hinvBody, hinvOther] at hfire
      simpa [Stmt.unfold, Rule.rank] using hfire
    · -- over the branch, the first part, the jump at its end and the other part
      have hheader : rule.apply inner before here
          (.plain (.jumpIfNot (entry exit other) condition))
          (Block.unfold phase jump body ++ ⟨jump, .plain (.jump exit)⟩ ::
            (Block.unfold phase exit other ++ rest)) = none :=
        Rule.apply_branch_ahead hahead (by omega) (by omega) (by omega)
      have hoverBody := ihbody jump [] (⟨here, .plain (.jumpIfNot (entry exit other) condition)⟩ :: before)
        (⟨jump, .plain (.jump exit)⟩ :: (Block.unfold phase exit other ++ rest)) hbody hu.1.1
        (fun heq => (hinner heq).mono (by simp +arith [Stmt.offsets]))
        ⟨before_lt_entry hbefore hjump hhere, by grind, by omega⟩
      have hdone := hbody.unfold_lt (max phase (rule.rank + 1)) jump
      have hoverOther := ihother exit [] (⟨jump, .plain (.jump exit)⟩ ::
        ((Block.unfold (max phase (rule.rank + 1)) jump body).reverse ++
          ⟨here, .plain (.jumpIfNot (entry exit other) condition)⟩ :: before)) rest hother hu.1.2
        (fun heq => (hinner heq).mono (by simp +arith [Stmt.offsets]))
        ⟨by grind, hrest, by omega⟩
      simp only [Stmt.unfold, if_pos hp, if_pos (show max phase (rule.rank + 1) ≤ 2 by omega),
        List.cons_append, List.append_assoc]
      rw [Rule.pass_skip hheader, hoverBody, Rule.pass_skip (Rule.apply_jump exit), hoverOther]
      simp
  · simp only [Stmt.unfold, if_neg hp, if_neg (show ¬ max phase (rule.rank + 1) ≤ 2 by omega)]
    exact pass_node before rest (by simp) (by simp)

theorem pass_while_node {operands : List Token} {back : UInt32} {before : Block} (rest : Block)
    (hu : (Stmt.whileLoop condition body back).Uncounted operands)
    (hfollows : rule.rank = 4 → Follows operands before) :
    rule.pass inner before ([⟨here, .whileLoop condition body back⟩] ++ rest) =
      rule.pass inner ([⟨here, .whileLoop condition body back⟩].reverse ++ before) rest := by
  apply Rule.pass_skip
  by_cases hrule : rule.rank = 4
  · obtain rfl : rule = .forLoop := Rule.rank_inj hrule
    simp only [Rule.apply, Rule.applyFor]
    split
    · next k start before' condition' body' back' heq =>
      simp only [Stmt.whileLoop.injEq] at heq
      obtain ⟨rfl, rfl, rfl⟩ := heq
      split
      · next last step hlast =>
        have hstart : start.children = operands := hfollows rfl
        have hcount := hu.1 _ hlast step rfl
        rw [← hstart] at hcount
        rw [if_neg]
        simpa [Rule.sharesOneOperand, Rule.countsWith] using hcount
      · rfl
    · rfl
  · exact Rule.apply_of_not_plain (by simp) hrule

theorem passes_whileLoop {back : UInt32} (hphase : rule.rank ≤ phase)
    (ih : Passes inner rule phase body) :
    Passes inner rule phase [⟨here, .whileLoop condition body back⟩] := by
  intro exit operands before rest hl hu hinner harea
  obtain ⟨hbody, hhere, hback, hexit⟩ := (lowerable_singleton.mp hl).whileLoop
  have hbefore := entry_singleton (lowerable_singleton.mp hl) ▸ harea.before_lt
  have hrest := harea.le_rest
  have hahead : here < exit := UInt32.lt_trans hback hexit
  have hlt := hbody.unfold_lt phase back
  rw [unfold_singleton, unfold_singleton]
  by_cases hp : phase ≤ 3
  · by_cases hr : rule.rank = 3
    · obtain rfl : rule = .whileLoop := Rule.rank_inj hr
      obtain rfl : phase = 3 := by omega
      have hinv := hinner rfl 3 back body hbody hu.1.2 (by simp +arith [Stmt.offsets])
      have hfire := @Rule.pass_whileLoop inner before (Block.unfold 3 back body) rest here condition
        exit back hahead hlt hexit hrest
      rw [hinv] at hfire
      simpa [Stmt.unfold, Rule.rank] using hfire
    · have hheader := @Rule.apply_loop inner before (Block.unfold phase back body) rest here condition
        rule exit back hahead hlt hexit hrest (by omega)
      have hover := ih back [] (⟨here, .plain (.jumpIfNot exit condition)⟩ :: before)
        (⟨back, .plain (.jump here)⟩ :: rest) hbody hu.1.2
        (fun heq => (hinner heq).mono (by simp +arith [Stmt.offsets]))
        ⟨before_lt_entry hbefore hback hhere, by grind, by omega⟩
      simp only [Stmt.unfold, if_pos hp, if_pos (show max phase (rule.rank + 1) ≤ 3 by omega),
        List.cons_append, List.append_assoc, List.nil_append]
      rw [Rule.pass_skip hheader, hover, Rule.pass_skip (Rule.apply_jump here)]
      simp
  · simp only [Stmt.unfold, if_neg hp, if_neg (show ¬ max phase (rule.rank + 1) ≤ 3 by omega)]
    exact pass_while_node rest hu.1 harea.follows

theorem passes_plainIf (hphase : rule.rank ≤ phase) (ih : Passes inner rule phase body) :
    Passes inner rule phase [⟨here, .branch condition body none⟩] := by
  intro exit operands before rest hl hu hinner harea
  obtain ⟨hbody, hhere⟩ := (lowerable_singleton.mp hl).plainIf
  have hahead := (lowerable_singleton.mp hl).here_lt
  have hbefore := entry_singleton (lowerable_singleton.mp hl) ▸ harea.before_lt
  have hrest := harea.le_rest
  have hlt := hbody.unfold_lt phase exit
  rw [unfold_singleton, unfold_singleton]
  by_cases hp : phase ≤ 5
  · by_cases hr : rule.rank = 5
    · obtain rfl : rule = .plainIf := Rule.rank_inj hr
      obtain rfl : phase = 5 := by omega
      have hinv := hinner rfl 5 exit body hbody hu.1.weaken (by simp [Stmt.offsets])
      have hfire := @Rule.pass_plainIf inner before (Block.unfold 5 exit body) rest here condition
        exit hahead hlt hrest
      rw [hinv] at hfire
      simpa [Stmt.unfold, Rule.rank] using hfire
    · -- a jump at the end of the body stays in the body, so it is no sign of another kind
      have hjump : ∀ jump destination, Rule.lastJump? (Block.unfold phase exit body) =
          some (jump, destination) → destination ∈ offsets body := by
        intro jump destination hlast
        have hlast := congrArg List.getLast? (Rule.dropLast_append_lastJump hlast)
        rw [List.getLast?_concat] at hlast
        exact mem_offsets_of_getLast?_unfold phase hbody.structured exit jump destination hlast.symm
      have hbelow := (Rule.cut_append hlt hrest).1
      have hheader : rule.apply inner before here (.plain (.jumpIfNot exit condition))
          (Block.unfold phase exit body ++ rest) = none := by
        refine Rule.apply_branch_ahead hahead hr ?_ ?_ <;> rw [hbelow] <;>
          intro _ jump destination hlast
        · exact UInt32.le_of_lt (hbody.below _ (hjump jump destination hlast))
        · have := hhere _ (hjump jump destination hlast)
          grind
      have hover := ih exit [condition] (⟨here, .plain (.jumpIfNot exit condition)⟩ :: before) rest
        hbody hu.1 (fun heq => (hinner heq).mono (by simp [Stmt.offsets]))
        ⟨before_lt_entry hbefore hahead hhere, hrest, fun _ => rfl⟩
      simp only [Stmt.unfold, if_pos hp, if_pos (show max phase (rule.rank + 1) ≤ 5 by omega),
        List.cons_append]
      rw [Rule.pass_skip hheader, hover]
      simp
  · simp only [Stmt.unfold, if_neg hp, if_neg (show ¬ max phase (rule.rank + 1) ≤ 5 by omega)]
    exact pass_node before rest (by simp) (by simp)

/-- The body of a counted loop is regrouped together with its last statement. -/
theorem Inverts.append_plain (phase : Nat) {size : Nat} {k back : UInt32} {token : Token} (h : Inverts inner size)
    (hbody : Lowerable k body) (htoken : token.isControl = false) (hk : k < back)
    (hu : Uncounted [] body) (hsize : (offsets body).length + 1 < size) :
    inner (Block.unfold phase k body ++ [⟨k, .plain token⟩]) = body ++ [⟨k, .plain token⟩] := by
  have hstruct : Structured (body ++ [⟨k, .plain token⟩]) :=
    structured_append.mpr ⟨hbody.structured, rfl, htoken, trivial⟩
  have hl : Lowerable back (body ++ [⟨k, .plain token⟩]) := by
    refine ⟨hstruct, ?_, ?_⟩
    · simp only [offsets_append, offsets_singleton, Stmt.offsets, List.pairwise_append]
      exact ⟨hbody.ascending, by simp, by simpa using hbody.below⟩
    · have := hbody.below
      simp only [offsets_append, offsets_singleton, Stmt.offsets]
      grind
  have hinv := h phase back _ hl ((uncounted_append_plain [] body k token).mpr hu)
    (by simpa [Stmt.offsets] using hsize)
  simpa [unfold_append, Stmt.unfold, entry, Stmt.offsets] using hinv

section ForLoop
variable {start condition step : Placed Token} {back exit : UInt32} {before rest : Block}

/-- Up to the rule for loops with the condition in front, a counted loop is such a
loop behind a plain statement. -/
theorem pass_forLoop_jumps (hphase : rule.rank ≤ phase) (hp : phase ≤ 3)
    (hstart : start.item.isControl = false) (hstep : step.item.isControl = false)
    (ih : Passes inner rule phase body)
    (hl : (Stmt.forLoop (some start) (some condition) (some step) body back).Lowerable start.offset exit)
    (hu : Uncounted [] body)
    (hinner : phase = rule.rank → Inverts inner ((offsets body).length + 2))
    (hbefore : ∀ e ∈ before, e.offset < start.offset) (hrest : ∀ e ∈ rest, exit ≤ e.offset) :
    rule.pass inner before (Stmt.unfold phase start.offset exit
        (.forLoop (some start) (some condition) (some step) body back) ++ rest) =
      rule.pass inner ((Stmt.unfold (max phase (rule.rank + 1)) start.offset exit
        (.forLoop (some start) (some condition) (some step) body back)).reverse ++ before) rest := by
  obtain ⟨hbody, -, hcond, hgt, hhere, hback, hexit⟩ := hl.forLoop
  have hahead : condition.offset < exit := by grind
  have hlt : ∀ e ∈ Block.unfold phase step.offset body ++ [⟨step.offset, .plain step.item⟩],
      e.offset < back := by
    have := hbody.unfold_lt phase step.offset
    grind
  have hskip : rule.apply inner before start.offset (.plain start.item)
      (⟨condition.offset, .plain (.jumpIfNot exit condition.item)⟩ ::
        (Block.unfold phase step.offset body ++ ⟨step.offset, .plain step.item⟩ ::
          ⟨back, .plain (.jump condition.offset)⟩ :: rest)) = none :=
    Rule.apply_of_not_control hstart
  by_cases hr : rule.rank = 3
  · -- the step of the counter is still a part of the body
    obtain rfl : rule = .whileLoop := Rule.rank_inj hr
    obtain rfl : phase = 3 := by omega
    have hinv := (hinner rfl).append_plain 3 hbody hstep hback hu (by omega)
    have hfire := @Rule.pass_whileLoop inner (⟨start.offset, .plain start.item⟩ :: before) _ rest
      condition.offset condition.item exit back hahead hlt hexit hrest
    rw [hinv, List.append_assoc, List.singleton_append] at hfire
    simpa [Stmt.unfold, Rule.rank] using (Rule.pass_skip hskip).trans hfire
  · have hheader := @Rule.apply_loop inner (⟨start.offset, .plain start.item⟩ :: before) _ rest
      condition.offset condition.item rule exit back hahead hlt hexit hrest (by omega)
    have hover := ih step.offset []
      (⟨condition.offset, .plain (.jumpIfNot exit condition.item)⟩ ::
        ⟨start.offset, .plain start.item⟩ :: before)
      (⟨step.offset, .plain step.item⟩ :: ⟨back, .plain (.jump condition.offset)⟩ :: rest) hbody hu
      (fun heq => (hinner heq).mono (by omega))
      ⟨before_lt_entry (by grind) hhere hgt, by grind, by omega⟩
    simp only [Stmt.unfold, if_pos hp, if_pos (show max phase (rule.rank + 1) ≤ 3 by omega),
      List.cons_append, List.append_assoc, List.nil_append] at hheader ⊢
    rw [Rule.pass_skip hskip, Rule.pass_skip hheader, hover,
      Rule.pass_skip (Rule.apply_of_not_control hstep), Rule.pass_skip (Rule.apply_jump _)]
    simp

end ForLoop

theorem passes_forLoop {start condition step : Placed Token} {back : UInt32}
    (hphase : rule.rank ≤ phase) (hstart : start.item.isControl = false)
    (hstep : step.item.isControl = false)
    (hcounts : Rule.sharesOneOperand start.item step.item = true)
    (ih : Passes inner rule phase body) :
    Passes inner rule phase
      [⟨start.offset, .forLoop (some start) (some condition) (some step) body back⟩] := by
  intro exit operands before rest hl hu hinner harea
  have hbefore := entry_singleton (lowerable_singleton.mp hl) ▸ harea.before_lt
  rw [unfold_singleton, unfold_singleton]
  by_cases hp : phase ≤ 3
  · refine pass_forLoop_jumps hphase hp hstart hstep ih (lowerable_singleton.mp hl) hu.1 ?_ hbefore
      harea.le_rest
    intro heq
    exact (hinner heq).mono (by simp [Stmt.offsets])
  by_cases hp4 : phase ≤ 4
  · by_cases hr : rule.rank = 4
    · obtain rfl : rule = .forLoop := Rule.rank_inj hr
      obtain rfl : phase = 4 := by omega
      have hfire := @Rule.pass_forLoop inner before body rest condition.offset condition.item
        start.offset step.offset back start.item step.item hcounts
      have hskip := (Rule.pass_skip (Rule.apply_of_not_control hstart)).trans hfire
      simpa [Stmt.unfold, Rule.rank] using hskip
    · have hlate : ¬ max phase (rule.rank + 1) ≤ 3 := by omega
      have hlast : max phase (rule.rank + 1) ≤ 4 := by omega
      simp only [Stmt.unfold, if_neg hp, if_pos hp4, if_neg hlate, if_pos hlast, List.cons_append,
        List.nil_append]
      rw [Rule.pass_skip (Rule.apply_of_not_control hstart),
        Rule.pass_skip (Rule.apply_of_not_plain (by simp) hr)]
      simp
  · have hlate : ¬ max phase (rule.rank + 1) ≤ 3 := by omega
    have hlast : ¬ max phase (rule.rank + 1) ≤ 4 := by omega
    simp only [Stmt.unfold, if_neg hp, if_neg hp4, if_neg hlate, if_neg hlast]
    exact pass_node before rest (by simp) (by simp)

end Cases

/-- A pass of a rule takes a block from one phase to the next. -/
theorem passes {inner : Block → Block} {rule : Rule} {phase : Nat} (hphase : rule.rank ≤ phase)
    {block : Block} (h : Structured block) : Passes inner rule phase block := by
  refine Structured.induction ⟨?nil, ?cons, ?plain, ?plainIf, ?ifElse, ?whileLoop, ?doUntil,
    ?forLoop, ?forEach⟩ block h
  case nil => exact passes_nil
  case cons =>
    intro e rest he hrest
    exact passes_cons he hrest
  case plain =>
    intro here token htoken
    exact passes_plain htoken
  case plainIf =>
    intro here condition body hbody
    exact passes_plainIf hphase hbody
  case ifElse =>
    intro here condition body jump other _ hbody hother
    exact passes_ifElse hphase hbody hother
  case whileLoop =>
    intro here condition body back hbody
    exact passes_whileLoop hphase hbody
  case doUntil =>
    intro here condition body _ hbody
    exact passes_doUntil hphase hbody
  case forLoop =>
    intro start condition step body back hstart hstep hcounts hbody
    exact passes_forLoop hphase hstart hstep hcounts hbody
  case forEach =>
    intro here iterator body next last _
    exact passes_forEach hphase

section Rounds
variable {inner : Block → Block} {exit : UInt32} {block : Block}

theorem scan_unfold {rule : Rule} {phase : Nat} (hl : Lowerable exit block) (hu : Uncounted [] block)
    (hphase : rule.rank ≤ phase) (hinner : phase < 7 → Inverts inner (offsets block).length) :
    (rule.scan inner (Block.unfold phase exit block)).1 =
      Block.unfold (max phase (rule.rank + 1)) exit block := by
  have hrank : rule.rank < 7 := by cases rule <;> decide
  have hpass := passes hphase hl.structured exit [] [] [] hl hu (fun heq => hinner (by omega))
    ⟨by simp, by simp, fun _ => trivial⟩
  simpa [Rule.scan_fst] using hpass

/-- One pass of each rule gives the tree. -/
theorem scanAll_unfold {phase : Nat} (hl : Lowerable exit block) (hu : Uncounted [] block)
    (hinner : phase < 7 → Inverts inner (offsets block).length) :
    (Rule.scanAll inner Rule.order (Block.unfold phase exit block)).1 = block := by
  have hstep (rule : Rule) : (rule.scan inner (Block.unfold (max phase rule.rank) exit block)).1 =
      Block.unfold (max phase (rule.rank + 1)) exit block := by
    have hscan := @scan_unfold inner exit block rule (max phase rule.rank) hl hu
      (Nat.le_max_right _ _) (fun hlt => hinner (by omega))
    rwa [show max (max phase rule.rank) (rule.rank + 1) = max phase (rule.rank + 1) by omega] at hscan
  have h0 := hstep .forEach
  have h1 := hstep .doUntil
  have h2 := hstep .ifElse
  have h3 := hstep .whileLoop
  have h4 := hstep .forLoop
  have h5 := hstep .plainIf
  have h6 := hstep .switch
  simp only [Rule.rank, Nat.max_zero, Nat.reduceAdd] at h0 h1 h2 h3 h4 h5 h6
  simp only [Rule.order, Rule.scanAll_cons_fst, h0, h1, h2, h3, h4, h5, h6]
  exact unfold_last (Nat.le_trans (by decide) (Nat.le_max_right phase 7)) exit block

theorem regroupWithin_unfold (fuel : Nat) {phase : Nat} (hl : Lowerable exit block)
    (hu : Uncounted [] block) (hfuel : phase < 7 → (offsets block).length < fuel) :
    regroupWithin fuel (Block.unfold phase exit block) = block := by
  -- bodies have fewer instructions than the block they are cut out of, so that the fuel
  -- of one round less is enough for them
  induction fuel generalizing phase exit block with
  | zero => exact unfold_last (by omega) exit block
  | succ fuel ih =>
    have hinner : phase < 7 → Inverts (regroupWithin fuel) (offsets block).length := by
      intro hlt phase' exit' body hbody hu' hsize
      exact ih hbody hu' (fun _ => by have := hfuel hlt; omega)
    have hround := scanAll_unfold hl hu hinner
    -- the next round starts from the tree, which is its own last phase
    have hdone : regroupWithin fuel block = block := by
      have := @ih exit block 7 hl hu (by omega)
      rwa [unfold_last (by omega)] at this
    rw [regroupWithin]
    split
    · next hscan =>
      rw [hscan] at hround
      obtain rfl := hround
      exact hdone
    · next hscan =>
      rw [hscan] at hround
      exact hround

end Rounds

/-- Regrouping the instructions of a structured tree gives the tree back, whatever the
label behind it, when no loop in it reads as a counted one. -/
theorem regroup_lower {exit : UInt32} {tree : Block} (hl : Lowerable exit tree)
    (hu : Uncounted [] tree) : regroup (ofInstructions (Block.lower exit tree)) = tree := by
  have hcount := plainCount_lower hl
  rw [regroup, hcount, ofInstructions_lower hl]
  exact regroupWithin_unfold _ hl hu (fun _ => Nat.lt_succ_self _)

/-- A loop over an iterator around an if with two parts, a loop that ends in its
condition and a counted loop, all nested. -/
def nestedLoops : Block :=
  [⟨0, .forEach .selfObject
    [⟨4, .branch .noObject
      [⟨8, .doUntil ⟨16, .noObject⟩ [⟨8, .branch .noObject [⟨12, .plain .stop⟩] none⟩]⟩]
      (some ⟨20,
        [⟨24, .forLoop (some ⟨24, .assign .selfObject .noObject⟩) (some ⟨28, .noObject⟩)
          (some ⟨36, .postfixOp "++" .selfObject⟩) [⟨32, .whileLoop .selfObject [] 34⟩] 40⟩]⟩)⟩]
    (some 44) 48⟩]

theorem regroup_lower_nestedLoops :
    regroup (ofInstructions (Block.lower 50 nestedLoops)) = nestedLoops := by
  refine regroup_lower ⟨?_, ?_, ?_⟩ ?_
  · simp [nestedLoops, Structured, Stmt.Structured, offsets, Stmt.offsets, Token.isControl]
    rfl
  · simp [nestedLoops, offsets, Stmt.offsets]
  · simp [nestedLoops, offsets, Stmt.offsets]
  · simp [nestedLoops, Uncounted, Stmt.Uncounted]

/-- A loop without a counter behind an assignment to the variable that it steps. -/
def looksCounted : Block :=
  [⟨0, .plain (.assign (.localVariable "i") (.intConst 0))⟩,
    ⟨5, .whileLoop (.localVariable "c") [⟨10, .plain (.postfixOp "++" (.localVariable "i"))⟩] 15⟩]

/-- Its instructions are those of the counted loop. -/
theorem regroup_lower_looksCounted :
    Lowerable 20 looksCounted ∧
      regroup (ofInstructions (Block.lower 20 looksCounted)) =
        [⟨0, .forLoop (some ⟨0, .assign (.localVariable "i") (.intConst 0)⟩) (some ⟨5, .localVariable "c"⟩)
          (some ⟨10, .postfixOp "++" (.localVariable "i")⟩) [] 15⟩] ∧
      regroup (ofInstructions (Block.lower 20 looksCounted)) ≠ looksCounted := by
  have htree : regroup (ofInstructions (Block.lower 20 looksCounted)) =
      [⟨0, .forLoop (some ⟨0, .assign (.localVariable "i") (.intConst 0)⟩) (some ⟨5, .localVariable "c"⟩)
          (some ⟨10, .postfixOp "++" (.localVariable "i")⟩) [] 15⟩] := rfl
  refine ⟨⟨?_, ?_, ?_⟩, htree, ?_⟩
  · simp [looksCounted, Structured, Stmt.Structured, offsets, Stmt.offsets, Token.isControl]
  · simp [looksCounted, offsets, Stmt.offsets]
  · simp [looksCounted, offsets, Stmt.offsets]
  · rw [htree]
    simp [looksCounted]

end Block

end ScriptLift
