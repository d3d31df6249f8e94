import Mathlib.Data.List.Induction
import ScriptLift.Proofs.FlatCode

/- Statements written as jumps.

   `Block.lower` writes a tree as the instructions it stands for: a statement
   starts at its own offset, and the label behind it is the offset of what follows
   it in the whole tree. The trees for which this is meant are the structured ones
   (`Block.Structured`).

   Loops with and without a counter are written alike, so a loop whose last
   statement shares one operand with the plain instruction in front of it reads as a
   counted one. `Block.Uncounted` rules such loops out. The instruction in front is
   the one in front at the time the loops are told apart: branches with one part are
   jumps then, and all other statements are not plain any more. -/
namespace ScriptLift

/-- Where a block starts; `exit` when it is empty. -/
def Block.entry (exit : UInt32) (block : Block) : UInt32 := (Block.offsets block).headD exit

mutual

/-- The instructions of a statement at `here` that is followed by `exit`. -/
def Stmt.lower (here exit : UInt32) : Stmt → List Instruction
  | .plain token => [⟨here, token⟩]
  | .branch condition body none => ⟨here, .jumpIfNot exit condition⟩ :: Block.lower exit body
  | .branch condition body (some ⟨jump, other⟩) =>
    ⟨here, .jumpIfNot (Block.entry exit other) condition⟩ :: Block.lower jump body ++
      ⟨jump, .jump exit⟩ :: Block.lower exit other
  | .whileLoop condition body back =>
    ⟨here, .jumpIfNot exit condition⟩ :: Block.lower back body ++ [⟨back, .jump here⟩]
  | .doUntil condition body =>
    Block.lower condition.offset body ++ [⟨condition.offset, .jumpIfNot here condition.item⟩]
  | .forLoop (some start) (some condition) (some step) body back =>
    start :: ⟨condition.offset, .jumpIfNot exit condition.item⟩ :: Block.lower step.offset body ++
      [step, ⟨back, .jump condition.offset⟩]
  | .forEach iterator body (some next) last =>
    ⟨here, .iterator iterator last⟩ :: Block.lower next body ++
      [⟨next, .iteratorNext⟩, ⟨last, .iteratorPop⟩]
  | _ => []

/-- The instructions of a block that is followed by `exit`. -/
def Block.lower (exit : UInt32) : List (Placed Stmt) → List Instruction
  | [] => []
  | ⟨here, s⟩ :: rest => s.lower here (Block.entry exit rest) ++ Block.lower exit rest

end

mutual

/-- A statement that the compiler writes: no switch, no break, no empty second part
and no empty loop with the condition behind. -/
def Stmt.Structured : Stmt → Prop
  | .plain token => token.isControl = false
  | .branch _ body none => Block.Structured body
  | .branch _ body (some ⟨_, other⟩) => Block.Structured body ∧ other ≠ [] ∧ Block.Structured other
  | .whileLoop _ body _ => Block.Structured body
  | .doUntil _ body => body ≠ [] ∧ Block.Structured body
  | .forLoop (some start) (some _) (some step) body _ =>
    start.item.isControl = false ∧ step.item.isControl = false ∧
      Rule.sharesOneOperand start.item step.item = true ∧ Block.Structured body
  | .forEach _ body (some _) _ => Block.Structured body
  | _ => False

/-- Every statement is structured and stands at the first offset it stands for. -/
def Block.Structured : List (Placed Stmt) → Prop
  | [] => True
  | ⟨here, s⟩ :: rest =>
    (s.offsets here).head? = some here ∧ s.Structured ∧ Block.Structured rest

end

mutual

/-- The operands of the plain instruction that a statement ends in while branches
with one part are jumps. -/
def Stmt.lastOperands : Stmt → List Token
  | .plain token => token.children
  | .branch condition body none => Block.lastOperands [condition] body
  | _ => []

def Block.lastOperands (before : List Token) : List (Placed Stmt) → List Token
  | [] => before
  | ⟨_, s⟩ :: rest => Block.lastOperands s.lastOperands rest

end

/-- Whether exactly one of the operands is also an operand of the token. -/
def Rule.countsWith (operands : List Token) (step : Token) : Bool :=
  (operands.countP fun c => step.children.any fun d => c.same d) == 1

mutual

/-- No loop without a counter reads as a counted one; `before` are the operands of
the plain instruction in front. -/
def Stmt.Uncounted (before : List Token) : Stmt → Prop
  | .branch condition body none => Block.Uncounted [condition] body
  | .branch _ body (some ⟨_, other⟩) => Block.Uncounted [] body ∧ Block.Uncounted [] other
  | .whileLoop _ body _ =>
    (∀ last ∈ body.getLast?, ∀ step, last.item = .plain step → Rule.countsWith before step = false) ∧
      Block.Uncounted [] body
  | .doUntil _ body => Block.Uncounted [] body
  | .forLoop _ _ _ body _ => Block.Uncounted [] body
  | .forEach _ body _ _ => Block.Uncounted [] body
  | _ => True

def Block.Uncounted (before : List Token) : List (Placed Stmt) → Prop
  | [] => True
  | ⟨_, s⟩ :: rest => s.Uncounted before ∧ Block.Uncounted s.lastOperands rest

end

/-! Trees in order, in front of their exit. -/

theorem Block.entry_of {P : UInt32 → Prop} {exit : UInt32} {block : Block} (hexit : P exit)
    (h : ∀ k ∈ Block.offsets block, P k) : P (Block.entry exit block) := by
  unfold Block.entry
  cases hoff : Block.offsets block with
  | nil => exact hexit
  | cons first more => exact h first (by simp [hoff])

/-- A structured statement at `here` whose offsets ascend and stay below `exit`. -/
structure Stmt.Lowerable (here exit : UInt32) (s : Stmt) : Prop where
  structured : s.Structured
  first : (s.offsets here).head? = some here
  ascending : (s.offsets here).Pairwise (· < ·)
  below : ∀ k ∈ s.offsets here, k < exit

/-- A structured block whose offsets ascend and stay below `exit`. -/
structure Block.Lowerable (exit : UInt32) (block : Block) : Prop where
  structured : Block.Structured block
  ascending : (Block.offsets block).Pairwise (· < ·)
  below : ∀ k ∈ Block.offsets block, k < exit

theorem Stmt.Lowerable.here_mem {here exit : UInt32} {s : Stmt} (h : s.Lowerable here exit) :
    here ∈ s.offsets here :=
  List.mem_of_mem_head? (Option.mem_def.mpr h.first)

theorem Stmt.Lowerable.here_lt {here exit : UInt32} {s : Stmt} (h : s.Lowerable here exit) :
    here < exit :=
  h.below here h.here_mem

theorem Stmt.Lowerable.here_le {here exit : UInt32} {s : Stmt} (h : s.Lowerable here exit) :
    ∀ k ∈ s.offsets here, here ≤ k := by
  obtain ⟨rest, hrest⟩ := List.head?_eq_some_iff.mp h.first
  have hasc := h.ascending
  rw [hrest, List.pairwise_cons] at hasc
  intro k hk
  rw [hrest] at hk
  rcases List.mem_cons.mp hk with rfl | hk
  · exact UInt32.le_refl _
  · exact UInt32.le_of_lt (hasc.1 k hk)

namespace Block.Lowerable

variable {exit here : UInt32} {s : Stmt} {rest : Block}

theorem entry_le (h : Block.Lowerable exit rest) : ∀ k ∈ Block.offsets rest, Block.entry exit rest ≤ k := by
  have hasc := h.ascending
  unfold Block.entry
  intro k hk
  cases hoff : Block.offsets rest with
  | nil => simp [hoff] at hk
  | cons first more =>
    rw [hoff, List.pairwise_cons] at hasc
    rw [hoff] at hk
    rcases List.mem_cons.mp hk with rfl | hk
    · exact UInt32.le_refl _
    · exact UInt32.le_of_lt (hasc.1 k hk)

theorem entry_le_exit (h : Block.Lowerable exit rest) : Block.entry exit rest ≤ exit :=
  @Block.entry_of (· ≤ exit) exit rest (UInt32.le_refl _) fun k hk => UInt32.le_of_lt (h.below k hk)

theorem tail (h : Block.Lowerable exit (⟨here, s⟩ :: rest)) : Block.Lowerable exit rest := by
  have hasc := h.ascending
  have hbelow := h.below
  rw [Block.offsets] at hasc hbelow
  exact ⟨h.structured.2.2, (List.pairwise_append.mp hasc).2.1,
    (List.forall_mem_append.mp hbelow).2⟩

theorem head (h : Block.Lowerable exit (⟨here, s⟩ :: rest)) :
    s.Lowerable here (Block.entry exit rest) := by
  have hasc := h.ascending
  have hbelow := h.below
  rw [Block.offsets] at hasc hbelow
  obtain ⟨hs, -, hcross⟩ := List.pairwise_append.mp hasc
  refine ⟨h.structured.2.1, h.structured.1, hs, ?_⟩
  intro k hk
  exact Block.entry_of (hbelow k (List.mem_append_left _ hk)) (hcross k hk)

end Block.Lowerable

namespace Stmt.Lowerable

variable {here exit : UInt32} {condition iterator : Token} {body other : Block}

theorem whileLoop {back : UInt32} (h : (Stmt.whileLoop condition body back).Lowerable here exit) :
    Block.Lowerable back body ∧ (∀ k ∈ Block.offsets body, here < k) ∧ here < back ∧ back < exit := by
  obtain ⟨hstruct, -, hasc, hbelow⟩ := h
  simp only [Stmt.offsets, List.cons_append, List.pairwise_cons, List.pairwise_append,
    List.forall_mem_append, List.forall_mem_cons] at hasc hbelow
  exact ⟨⟨hstruct, hasc.2.1, fun k hk => (hasc.2.2.2 k hk).1⟩, hasc.1.1, hasc.1.2.1,
    hbelow.2.2.1⟩

theorem plainIf (h : (Stmt.branch condition body none).Lowerable here exit) :
    Block.Lowerable exit body ∧ (∀ k ∈ Block.offsets body, here < k) := by
  obtain ⟨hstruct, -, hasc, hbelow⟩ := h
  simp only [Stmt.offsets, List.pairwise_cons, List.forall_mem_cons] at hasc hbelow
  exact ⟨⟨hstruct, hasc.2, hbelow.2⟩, hasc.1⟩

theorem ifElse {jump : UInt32} (h : (Stmt.branch condition body (some ⟨jump, other⟩)).Lowerable here exit) :
    Block.Lowerable jump body ∧ Block.Lowerable exit other ∧ other ≠ [] ∧
      (∀ k ∈ Block.offsets body, here < k) ∧ here < jump ∧ (∀ k ∈ Block.offsets other, jump < k) ∧
      jump < exit := by
  obtain ⟨hstruct, -, hasc, hbelow⟩ := h
  simp only [Stmt.offsets, List.cons_append, List.pairwise_cons, List.pairwise_append,
    List.forall_mem_append, List.forall_mem_cons] at hasc hbelow
  exact ⟨⟨hstruct.1, hasc.2.1, fun k hk => (hasc.2.2.2 k hk).1⟩,
    ⟨hstruct.2.2, hasc.2.2.1.2, hbelow.2.2.2⟩, hstruct.2.1, hasc.1.1, hasc.1.2.1, hasc.2.2.1.1,
    hbelow.2.2.1⟩

theorem doUntil {condition : Placed Token}
    (h : (Stmt.doUntil condition body).Lowerable here exit) :
    Block.Lowerable condition.offset body ∧ Block.entry condition.offset body = here ∧
      (∀ k ∈ Block.offsets body, here ≤ k) ∧ here < condition.offset ∧ condition.offset < exit := by
  have hle := h.here_le
  obtain ⟨hstruct, hfirst, hasc, hbelow⟩ := h
  simp only [Stmt.offsets, List.pairwise_append, List.forall_mem_append, List.forall_mem_singleton]
    at hfirst hasc hbelow hle
  obtain ⟨hne, hbody⟩ := hstruct
  obtain ⟨⟨first, s⟩, rest, rfl⟩ := List.exists_cons_of_ne_nil hne
  obtain ⟨more, hmore⟩ := List.head?_eq_some_iff.mp hbody.1
  obtain rfl : first = here := by simpa [Block.offsets, hmore] using hfirst
  refine ⟨⟨hbody, hasc.1, hasc.2.2⟩, ?_, hle.1, hasc.2.2 first ?_, hbelow.2⟩
  · simp [Block.entry, Block.offsets, hmore]
  · simp [Block.offsets, hmore]

theorem forLoop {start condition step : Placed Token} {back : UInt32}
    (h : (Stmt.forLoop (some start) (some condition) (some step) body back).Lowerable here exit) :
    Block.Lowerable step.offset body ∧ start.offset = here ∧ here < condition.offset ∧
      (∀ k ∈ Block.offsets body, condition.offset < k) ∧ condition.offset < step.offset ∧
      step.offset < back ∧ back < exit := by
  obtain ⟨hstruct, hfirst, hasc, hbelow⟩ := h
  simp only [Stmt.offsets, Option.toList_some, List.map_cons, List.map_nil, List.cons_append,
    List.nil_append, List.append_assoc, List.pairwise_cons, List.pairwise_append,
    List.forall_mem_append, List.forall_mem_cons] at hasc hbelow
  obtain rfl : start.offset = here := by simpa [Stmt.offsets] using hfirst
  exact ⟨⟨hstruct.2.2.2, hasc.2.2.1, fun k hk => (hasc.2.2.2.2 k hk).1⟩, rfl, hasc.1.1,
    hasc.2.1.1, hasc.2.1.2.1, hasc.2.2.2.1.1.1, hbelow.2.2.2.2.1⟩

theorem forEach {next last : UInt32}
    (h : (Stmt.forEach iterator body (some next) last).Lowerable here exit) :
    Block.Lowerable next body ∧ (∀ k ∈ Block.offsets body, here < k) ∧ here < next ∧ next < last ∧
      last < exit := by
  obtain ⟨hstruct, -, hasc, hbelow⟩ := h
  simp only [Stmt.offsets, Option.toList_some, List.cons_append, List.append_assoc,
    List.nil_append, List.pairwise_cons, List.pairwise_append, List.forall_mem_append,
    List.forall_mem_cons] at hasc hbelow
  exact ⟨⟨hstruct, hasc.2.1, fun k hk => (hasc.2.2.2 k hk).1⟩, hasc.1.1, hasc.1.2.1,
    hasc.2.2.1.1.1, hbelow.2.2.2.1⟩

end Stmt.Lowerable

/-! Induction over structured trees: a block is built from single statements, and a
single statement from the blocks inside it. -/

/-- A property that a block has as soon as its parts have it. -/
structure Block.Hereditary (motive : List (Placed Stmt) → Prop) : Prop where
  nil : motive []
  cons : ∀ e rest, motive [e] → motive rest → motive (e :: rest)
  plain : ∀ here token, token.isControl = false → motive [⟨here, .plain token⟩]
  plainIf : ∀ here condition body, motive body → motive [⟨here, .branch condition body none⟩]
  ifElse : ∀ here condition body jump other, other ≠ [] → motive body → motive other →
    motive [⟨here, .branch condition body (some ⟨jump, other⟩)⟩]
  whileLoop : ∀ here condition body back, motive body →
    motive [⟨here, .whileLoop condition body back⟩]
  doUntil : ∀ here condition body, (Block.offsets body ++ [condition.offset]).head? = some here →
    motive body → motive [⟨here, .doUntil condition body⟩]
  forLoop : ∀ start condition step body back, start.item.isControl = false →
    step.item.isControl = false → Rule.sharesOneOperand start.item step.item = true → motive body →
    motive [⟨start.offset, .forLoop (some start) (some condition) (some step) body back⟩]
  forEach : ∀ here iterator body next last, motive body →
    motive [⟨here, .forEach iterator body (some next) last⟩]

section

variable {motive : List (Placed Stmt) → Prop} (hmotive : Block.Hereditary motive)

include hmotive

mutual

theorem Stmt.Structured.induction :
    ∀ (here : UInt32) (s : Stmt), (s.offsets here).head? = some here → s.Structured →
      motive [⟨here, s⟩]
  | here, .plain token, _, h => hmotive.plain here token h
  | here, .branch condition body none, _, h =>
    hmotive.plainIf here condition body (Block.Structured.induction body h)
  | here, .branch condition body (some ⟨jump, other⟩), _, h =>
    hmotive.ifElse here condition body jump other h.2.1 (Block.Structured.induction body h.1)
      (Block.Structured.induction other h.2.2)
  | here, .whileLoop condition body back, _, h =>
    hmotive.whileLoop here condition body back (Block.Structured.induction body h)
  | here, .doUntil condition body, hfirst, h =>
    hmotive.doUntil here condition body hfirst (Block.Structured.induction body h.2)
  | here, .forLoop (some start) (some condition) (some step) body back, hfirst, h => by
    obtain rfl : start.offset = here := by simpa [Stmt.offsets] using hfirst
    exact hmotive.forLoop start condition step body back h.1 h.2.1 h.2.2.1
      (Block.Structured.induction body h.2.2.2)
  | here, .forEach iterator body (some next) last, _, h =>
    hmotive.forEach here iterator body next last (Block.Structured.induction body h)
  | _, .leave, _, h => h.elim
  | _, .switch _ _, _, h => h.elim
  | _, .forLoop none _ _ _ _, _, h => h.elim
  | _, .forLoop (some _) none _ _ _, _, h => h.elim
  | _, .forLoop (some _) (some _) none _ _, _, h => h.elim
  | _, .forEach _ _ none _, _, h => h.elim

@[elab_as_elim] theorem Block.Structured.induction :
    ∀ block : List (Placed Stmt), Block.Structured block → motive block
  | [], _ => hmotive.nil
  | ⟨here, s⟩ :: rest, h =>
    hmotive.cons ⟨here, s⟩ rest (Stmt.Structured.induction here s h.1 h.2.1)
      (Block.Structured.induction rest h.2.2)

end

end

/-! Entries, and the single statement as a block. -/

namespace Block

@[simp] theorem offsets_singleton (here : UInt32) (s : Stmt) : offsets [⟨here, s⟩] = s.offsets here := by
  simp [offsets]

theorem offsets_cons (e : Placed Stmt) (rest : Block) :
    offsets (e :: rest) = offsets [e] ++ offsets rest :=
  offsets_append [e] rest

theorem entry_append (exit : UInt32) (a b : Block) : entry exit (a ++ b) = entry (entry exit b) a := by
  unfold entry
  rw [offsets_append]
  cases offsets a <;> rfl

theorem entry_mem {block : Block} (hne : block ≠ []) (h : Structured block) (exit : UInt32) :
    entry exit block ∈ offsets block := by
  obtain ⟨⟨here, s⟩, rest, rfl⟩ := List.exists_cons_of_ne_nil hne
  obtain ⟨more, hmore⟩ := List.head?_eq_some_iff.mp h.1
  simp [entry, offsets, hmore]

theorem entry_singleton {here exit : UInt32} {s : Stmt} (h : s.Lowerable here exit) :
    entry exit [⟨here, s⟩] = here := by
  simp [entry, h.first]

theorem structured_append {a b : Block} : Structured (a ++ b) ↔ Structured a ∧ Structured b := by
  induction a with
  | nil => simp [Structured]
  | cons e rest ih => simp [Structured, ih, and_assoc]

theorem lowerable_singleton {exit here : UInt32} {s : Stmt} :
    Lowerable exit [⟨here, s⟩] ↔ s.Lowerable here exit := by
  constructor
  · intro h
    exact h.head
  · intro h
    exact ⟨⟨h.first, h.structured, trivial⟩, by simpa using h.ascending, by simpa using h.below⟩

/-- The first statement of a block is followed by the entry of the others. -/
theorem Lowerable.first {exit : UInt32} {e : Placed Stmt} {block : Block}
    (h : Lowerable exit (e :: block)) : Lowerable (entry exit block) [e] :=
  lowerable_singleton.mpr h.head

theorem Uncounted.weaken {operands : List Token} {block : Block} (h : Uncounted operands block) :
    Uncounted [] block := by
  cases block with
  | nil => trivial
  | cons e rest =>
    refine ⟨?_, h.2⟩
    have hs := h.1
    unfold Stmt.Uncounted at hs ⊢
    split <;> simp_all [Rule.countsWith]

theorem uncounted_append_plain (operands : List Token) (block : Block) (k : UInt32) (token : Token) :
    Uncounted operands (block ++ [⟨k, .plain token⟩]) ↔ Uncounted operands block := by
  induction block generalizing operands with
  | nil => simp [Uncounted, Stmt.Uncounted]
  | cons e rest ih => simp [Uncounted, ih]

end Block

/-! The lowered code is in order. -/

namespace Block

/-- The instructions of a lowered tree are at the offsets of the tree. -/
theorem lower_offsets {block : Block} (h : Structured block) :
    ∀ exit, (Block.lower exit block).map (·.offset) = offsets block := by
  refine Structured.induction ⟨?nil, ?cons, ?plain, ?plainIf, ?ifElse, ?whileLoop, ?doUntil,
    ?forLoop, ?forEach⟩ block h
  case cons =>
    intro e rest he hrest exit
    have he := he (entry exit rest)
    simp_all [Block.lower, entry, offsets]
  all_goals simp_all [Block.lower, Stmt.lower, Stmt.offsets, entry, offsets]

theorem insert_last {offset : UInt32} {s : Stmt} {block : Block} (h : ∀ e ∈ block, e.offset < offset) :
    insert offset s block = block ++ [⟨offset, s⟩] := by
  induction block with
  | nil => rfl
  | cons e rest ih =>
    obtain ⟨he, hrest⟩ := List.forall_mem_cons.mp h
    have hle : ¬ offset < e.offset := by grind
    have hne : ¬ offset = e.offset := by grind
    rw [insert, if_neg hle, if_neg hne, ih hrest]
    rfl

/-- Instructions in order are a block as they stand. -/
theorem ofInstructions_of_ascending {code : List Instruction}
    (h : (code.map (·.offset)).Pairwise (· < ·)) :
    ofInstructions code = code.map fun i => ⟨i.offset, .plain i.item⟩ := by
  induction code using List.reverseRecOn with
  | nil => rfl
  | append_singleton code i ih =>
    simp only [List.map_append, List.map_cons, List.map_nil, List.pairwise_append] at h
    have hcode := ih h.1
    unfold ofInstructions at hcode ⊢
    rw [List.foldl_append, hcode]
    simp only [List.foldl_cons, List.foldl_nil]
    rw [insert_last]
    · simp
    · simpa using h.2.2

end Block

end ScriptLift
