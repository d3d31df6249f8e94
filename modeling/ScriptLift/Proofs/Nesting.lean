import ScriptLift.Proofs.Collapse

/- The blocks of a tree: the block itself and the bodies of its statements, at any
   depth.

   `Block.Every P` says that `P` holds of each of them. `Block.parts` lists them,
   each with the offsets that come after it in the whole tree, so that
   `offsets_part` finds every block again in the offsets of the tree, and
   `exists_part_owns` the block of the statement that an offset of the tree is
   one of. `Block.tokens` lists the tokens of a tree. -/
namespace ScriptLift

mutual

/-- Whether `P` holds of every block inside a statement. -/
def Stmt.Every (P : Block → Prop) : Stmt → Prop
  | .plain _ => True
  | .leave => True
  | .branch _ body none => P body ∧ Block.EveryIn P body
  | .branch _ body (some ⟨_, other⟩) =>
    (P body ∧ Block.EveryIn P body) ∧ P other ∧ Block.EveryIn P other
  | .whileLoop _ body _ => P body ∧ Block.EveryIn P body
  | .doUntil _ body => P body ∧ Block.EveryIn P body
  | .forLoop _ _ _ body _ => P body ∧ Block.EveryIn P body
  | .forEach _ body _ _ => P body ∧ Block.EveryIn P body
  | .switch _ arms => Arms.Every P arms

/-- Whether `P` holds of every block inside the statements of a block. -/
def Block.EveryIn (P : Block → Prop) : List (Placed Stmt) → Prop
  | [] => True
  | ⟨_, s⟩ :: rest => s.Every P ∧ Block.EveryIn P rest

def Arms.Every (P : Block → Prop) : List (Placed (Arm (List (Placed Stmt)))) → Prop
  | [] => True
  | ⟨_, ⟨_, body⟩⟩ :: rest => (P body ∧ Block.EveryIn P body) ∧ Arms.Every P rest

end

/-- A block of a tree, and the offsets that come after it in the tree. -/
structure Part where
  block : Block
  beyond : List UInt32

mutual

/-- The blocks inside a statement, when `beyond` comes after it. -/
def Stmt.parts (beyond : List UInt32) : Stmt → List Part
  | .plain _ => []
  | .leave => []
  | .branch _ body none => ⟨body, beyond⟩ :: Block.partsIn beyond body
  | .branch _ body (some ⟨jump, other⟩) =>
    ⟨body, jump :: Block.offsets other ++ beyond⟩ ::
      Block.partsIn (jump :: Block.offsets other ++ beyond) body ++
      ⟨other, beyond⟩ :: Block.partsIn beyond other
  | .whileLoop _ body back => ⟨body, back :: beyond⟩ :: Block.partsIn (back :: beyond) body
  | .doUntil condition body =>
    ⟨body, condition.offset :: beyond⟩ :: Block.partsIn (condition.offset :: beyond) body
  | .forLoop _ _ step body back =>
    ⟨body, step.toList.map (·.offset) ++ back :: beyond⟩ ::
      Block.partsIn (step.toList.map (·.offset) ++ back :: beyond) body
  | .forEach _ body next last =>
    ⟨body, next.toList ++ last :: beyond⟩ :: Block.partsIn (next.toList ++ last :: beyond) body
  | .switch _ arms => Arms.parts beyond arms

/-- The blocks inside the statements of a block. -/
def Block.partsIn (beyond : List UInt32) : List (Placed Stmt) → List Part
  | [] => []
  | ⟨_, s⟩ :: rest => s.parts (Block.offsets rest ++ beyond) ++ Block.partsIn beyond rest

def Arms.parts (beyond : List UInt32) : List (Placed (Arm (List (Placed Stmt)))) → List Part
  | [] => []
  | ⟨_, ⟨_, body⟩⟩ :: rest =>
    ⟨body, Arms.offsets rest ++ beyond⟩ :: Block.partsIn (Arms.offsets rest ++ beyond) body ++
      Arms.parts beyond rest

end

namespace Block

/-- Whether `P` holds of a block and of every block inside it. -/
def Every (P : Block → Prop) (block : Block) : Prop := P block ∧ EveryIn P block

/-- The blocks of a tree. -/
def parts (tree : Block) : List Part := ⟨tree, []⟩ :: partsIn [] tree

theorem everyIn_iff {P : Block → Prop} {block : Block} :
    EveryIn P block ↔ ∀ e ∈ block, e.item.Every P := by
  induction block with
  | nil => simp [EveryIn]
  | cons e rest ih => simp [EveryIn, ih]

end Block

theorem Arms.every_iff {P : Block → Prop} {arms : Arms} :
    Arms.Every P arms ↔ ∀ arm ∈ arms, Block.Every P arm.item.body := by
  induction arms with
  | nil => simp [Arms.Every]
  | cons arm rest ih => simp [Arms.Every, Block.Every, ih]

section Statements
variable {P : Block → Prop}

@[simp] theorem Stmt.every_plain (token : Token) : (Stmt.plain token).Every P ↔ True := .rfl

@[simp] theorem Stmt.every_leave : Stmt.leave.Every P ↔ True := .rfl

@[simp] theorem Stmt.every_branch (condition : Token) (body : Block)
    (otherwise : Option (Placed Block)) : (Stmt.branch condition body otherwise).Every P ↔
      Block.Every P body ∧ ∀ o ∈ otherwise, Block.Every P o.item := by
  cases otherwise <;> simp [Stmt.Every, Block.Every]

@[simp] theorem Stmt.every_whileLoop (condition : Token) (body : Block) (back : UInt32) :
    (Stmt.whileLoop condition body back).Every P ↔ Block.Every P body := .rfl

@[simp] theorem Stmt.every_doUntil (condition : Placed Token) (body : Block) :
    (Stmt.doUntil condition body).Every P ↔ Block.Every P body := .rfl

@[simp] theorem Stmt.every_forLoop (start condition step : Option (Placed Token)) (body : Block)
    (back : UInt32) :
    (Stmt.forLoop start condition step body back).Every P ↔ Block.Every P body := .rfl

@[simp] theorem Stmt.every_forEach (iterator : Token) (body : Block) (next : Option UInt32)
    (last : UInt32) : (Stmt.forEach iterator body next last).Every P ↔ Block.Every P body := .rfl

@[simp] theorem Stmt.every_switch (subject : Token) (arms : Arms) :
    (Stmt.switch subject arms).Every P ↔ ∀ arm ∈ arms, Block.Every P arm.item.body := by
  rw [Stmt.Every, Arms.every_iff]

end Statements

/-- Induction over statements: what holds of a statement when it holds of all statements
in its blocks holds of every statement. -/
@[elab_as_elim]
theorem Stmt.induction {P : Stmt → Prop} (plain : ∀ token, P (.plain token)) (leave : P .leave)
    (branch : ∀ condition body otherwise, (∀ e ∈ body, P e.item) →
      (∀ o ∈ otherwise, ∀ e ∈ o.item, P e.item) → P (.branch condition body otherwise))
    (whileLoop : ∀ condition body back, (∀ e ∈ body, P e.item) → P (.whileLoop condition body back))
    (doUntil : ∀ condition body, (∀ e ∈ body, P e.item) → P (.doUntil condition body))
    (forLoop : ∀ start condition step body back, (∀ e ∈ body, P e.item) →
      P (.forLoop start condition step body back))
    (forEach : ∀ iterator body next last, (∀ e ∈ body, P e.item) →
      P (.forEach iterator body next last))
    (switch : ∀ subject arms, (∀ arm ∈ arms, ∀ e ∈ arm.item.body, P e.item) →
      P (.switch subject arms)) (s : Stmt) : P s :=
  -- The motives for the lists, pairs and options that statements are nested in.
  @Stmt.rec P (fun b => ∀ e ∈ b, P e.item) (fun o => ∀ q ∈ o, ∀ e ∈ q.item, P e.item)
    (fun arms => ∀ arm ∈ arms, ∀ e ∈ arm.item.body, P e.item) (fun e => P e.item)
    (fun q => ∀ e ∈ q.item, P e.item) (fun arm => ∀ e ∈ arm.item.body, P e.item)
    (fun arm => ∀ e ∈ arm.body, P e.item) plain leave branch whileLoop doUntil forLoop forEach switch
    (by simp) (fun _ _ hhead htail => List.forall_mem_cons.mpr ⟨hhead, htail⟩)
    (by simp) (fun _ h => by simpa using h)
    (by simp) (fun _ _ hhead htail => List.forall_mem_cons.mpr ⟨hhead, htail⟩)
    (fun _ _ h => h) (fun _ _ h => h) (fun _ _ h => h) (fun _ _ h => h) s

/-- What holds of every block in a statement holds of every block in those blocks. -/
theorem Stmt.Every.every {P : Block → Prop} {s : Stmt} (h : s.Every P) : s.Every (Block.Every P) := by
  have hbody : ∀ b : Block, (∀ e ∈ b, e.item.Every P → e.item.Every (Block.Every P)) →
      Block.Every P b → Block.Every (Block.Every P) b :=
    fun b ih hb => ⟨hb, Block.everyIn_iff.mpr fun e he => ih e he (Block.everyIn_iff.mp hb.2 e he)⟩
  induction s using Stmt.induction with
  | plain => simp
  | leave => simp
  | branch condition body otherwise ih ihother =>
    obtain ⟨hfirst, hother⟩ := (Stmt.every_branch ..).mp h
    exact (Stmt.every_branch ..).mpr ⟨hbody body ih hfirst,
      fun o ho => hbody o.item (ihother o ho) (hother o ho)⟩
  | whileLoop condition body back ih =>
    exact (Stmt.every_whileLoop ..).mpr (hbody body ih ((Stmt.every_whileLoop ..).mp h))
  | doUntil condition body ih =>
    exact (Stmt.every_doUntil ..).mpr (hbody body ih ((Stmt.every_doUntil ..).mp h))
  | forLoop start condition step body back ih =>
    exact (Stmt.every_forLoop ..).mpr (hbody body ih ((Stmt.every_forLoop ..).mp h))
  | forEach iterator body next last ih =>
    exact (Stmt.every_forEach ..).mpr (hbody body ih ((Stmt.every_forEach ..).mp h))
  | switch subject arms ih =>
    have harms := (Stmt.every_switch ..).mp h
    exact (Stmt.every_switch ..).mpr fun arm harm => hbody _ (ih arm harm) (harms arm harm)

theorem Block.Every.every {P : Block → Prop} {b : Block} (h : Every P b) : Every (Every P) b :=
  ⟨h, everyIn_iff.mpr fun e he => (everyIn_iff.mp h.2 e he).every⟩

/-! What holds of every block holds of every part. -/

mutual

theorem Stmt.every_parts {P : Block → Prop} (beyond : List UInt32) :
    ∀ s : Stmt, s.Every P → ∀ p ∈ s.parts beyond, P p.block
  | .plain _, _ => by simp [Stmt.parts]
  | .leave, _ => by simp [Stmt.parts]
  | .branch _ body none, h => by
    have hbody := Block.everyIn_parts beyond body h.2
    simpa [Stmt.parts] using ⟨h.1, hbody⟩
  | .branch _ body (some ⟨jump, other⟩), h => by
    have hbody := Block.everyIn_parts (jump :: Block.offsets other ++ beyond) body h.1.2
    have hother := Block.everyIn_parts beyond other h.2.2
    simpa [Stmt.parts, or_imp, forall_and] using ⟨h.1.1, hbody, h.2.1, hother⟩
  | .whileLoop _ body back, h => by
    have hbody := Block.everyIn_parts (back :: beyond) body h.2
    simpa [Stmt.parts] using ⟨h.1, hbody⟩
  | .doUntil condition body, h => by
    have hbody := Block.everyIn_parts (condition.offset :: beyond) body h.2
    simpa [Stmt.parts] using ⟨h.1, hbody⟩
  | .forLoop _ _ step body back, h => by
    have hbody := Block.everyIn_parts (step.toList.map (·.offset) ++ back :: beyond) body h.2
    simpa [Stmt.parts] using ⟨h.1, hbody⟩
  | .forEach _ body next last, h => by
    have hbody := Block.everyIn_parts (next.toList ++ last :: beyond) body h.2
    simpa [Stmt.parts] using ⟨h.1, hbody⟩
  | .switch _ arms, h => Arms.every_parts beyond arms h

theorem Block.everyIn_parts {P : Block → Prop} (beyond : List UInt32) :
    ∀ block : List (Placed Stmt), Block.EveryIn P block →
      ∀ p ∈ Block.partsIn beyond block, P p.block
  | [], _ => by simp [Block.partsIn]
  | ⟨_, s⟩ :: rest, h => by
    have hs := s.every_parts (Block.offsets rest ++ beyond) h.1
    have hrest := Block.everyIn_parts beyond rest h.2
    exact List.forall_mem_append.mpr ⟨hs, hrest⟩

theorem Arms.every_parts {P : Block → Prop} (beyond : List UInt32) :
    ∀ arms : List (Placed (Arm (List (Placed Stmt)))), Arms.Every P arms →
      ∀ p ∈ Arms.parts beyond arms, P p.block
  | [], _ => by simp [Arms.parts]
  | ⟨_, ⟨_, body⟩⟩ :: rest, h => by
    have hbody := Block.everyIn_parts (Arms.offsets rest ++ beyond) body h.1.2
    have hrest := Arms.every_parts beyond rest h.2
    simpa [Arms.parts, or_imp, forall_and] using ⟨h.1.1, hbody, hrest⟩

end

/-! Every part is a stretch of the offsets of the tree. -/

/-- The offsets end in those of a part and what lies beyond it. -/
def Part.EndsIn (p : Part) (offsets : List UInt32) : Prop :=
  ∃ front, offsets = front ++ Block.offsets p.block ++ p.beyond

theorem Part.EndsIn.append {p : Part} {offsets : List UInt32} (h : p.EndsIn offsets)
    (front : List UInt32) : p.EndsIn (front ++ offsets) := by
  obtain ⟨more, rfl⟩ := h
  exact ⟨front ++ more, by simp⟩

mutual

theorem Stmt.offsets_part (here : UInt32) (beyond : List UInt32) :
    ∀ s : Stmt, ∀ p ∈ s.parts beyond, p.EndsIn (s.offsets here ++ beyond)
  | .plain _ => by simp [Stmt.parts]
  | .leave => by simp [Stmt.parts]
  | .branch _ body none => by
    intro p hp
    have h := Block.offsets_part beyond body p hp
    simpa [Stmt.offsets] using h.append [here]
  | .branch _ body (some ⟨jump, other⟩) => by
    intro p hp
    rcases List.mem_append.mp hp with hp | hp
    · have h := Block.offsets_part _ body p hp
      simpa [Stmt.offsets] using h.append [here]
    · have h := Block.offsets_part beyond other p hp
      simpa [Stmt.offsets] using h.append (here :: Block.offsets body ++ [jump])
  | .whileLoop _ body back => by
    intro p hp
    have h := Block.offsets_part (back :: beyond) body p hp
    simpa [Stmt.offsets] using h.append [here]
  | .doUntil condition body => by
    intro p hp
    have h := Block.offsets_part (condition.offset :: beyond) body p hp
    simpa [Stmt.offsets] using h
  | .forLoop start condition step body back => by
    intro p hp
    have h := Block.offsets_part _ body p hp
    simpa [Stmt.offsets] using
      h.append (start.toList.map (·.offset) ++ condition.toList.map (·.offset))
  | .forEach _ body next last => by
    intro p hp
    have h := Block.offsets_part _ body p hp
    simpa [Stmt.offsets] using h.append [here]
  | .switch _ arms => by
    intro p hp
    have h := Arms.offsets_part beyond arms p hp
    simpa [Stmt.offsets] using h.append [here]

/-- Every block of a tree is a stretch of the offsets of the tree. -/
theorem Block.offsets_part (beyond : List UInt32) :
    ∀ block : List (Placed Stmt), ∀ p ∈ (⟨block, beyond⟩ :: Block.partsIn beyond block : List Part),
      p.EndsIn (Block.offsets block ++ beyond)
  | [] => by
    intro p hp
    obtain rfl : p = ⟨[], beyond⟩ := by simpa [Block.partsIn] using hp
    exact ⟨[], by simp⟩
  | ⟨here, s⟩ :: rest => by
    intro p hp
    rcases List.mem_cons.mp hp with rfl | hp
    · exact ⟨[], by simp⟩
    · rcases List.mem_append.mp hp with hp | hp
      · have h := s.offsets_part here (Block.offsets rest ++ beyond) p hp
        simpa [Block.offsets] using h
      · have h := Block.offsets_part beyond rest p (List.mem_cons_of_mem _ hp)
        simpa [Block.offsets] using h.append (s.offsets here)

theorem Arms.offsets_part (beyond : List UInt32) :
    ∀ arms : List (Placed (Arm (List (Placed Stmt)))), ∀ p ∈ Arms.parts beyond arms,
      p.EndsIn (Arms.offsets arms ++ beyond)
  | [] => by simp [Arms.parts]
  | ⟨here, ⟨_, body⟩⟩ :: rest => by
    intro p hp
    rcases List.mem_append.mp hp with hp | hp
    · have h := Block.offsets_part (Arms.offsets rest ++ beyond) body p hp
      simpa [Arms.offsets] using h.append [here]
    · have h := Arms.offsets_part beyond rest p hp
      simpa [Arms.offsets] using h.append (here :: Block.offsets body)

end

/-! The tokens of a tree. -/

mutual

/-- The tokens in a statement, at any depth, in the order in which they are written. -/
def Stmt.tokens : Stmt → List Token
  | .plain token => [token]
  | .leave => []
  | .branch condition body none => condition :: Block.tokens body
  | .branch condition body (some ⟨_, other⟩) =>
    condition :: (Block.tokens body ++ Block.tokens other)
  | .whileLoop condition body _ => condition :: Block.tokens body
  | .doUntil condition body => Block.tokens body ++ [condition.item]
  | .forLoop start condition step body _ =>
    start.toList.map (·.item) ++ condition.toList.map (·.item) ++ step.toList.map (·.item) ++
      Block.tokens body
  | .forEach iterator body _ _ => iterator :: Block.tokens body
  | .switch subject arms => subject :: Arms.tokens arms

/-- The tokens in the statements of a block. -/
def Block.tokens : List (Placed Stmt) → List Token
  | [] => []
  | ⟨_, s⟩ :: rest => s.tokens ++ Block.tokens rest

def Arms.tokens : List (Placed (Arm (List (Placed Stmt)))) → List Token
  | [] => []
  | ⟨_, ⟨label, body⟩⟩ :: rest => label.toList ++ Block.tokens body ++ Arms.tokens rest

end

theorem Stmt.forall_tokens_branch {P : Token → Prop} {condition : Token} {body : Block}
    {otherwise : Option (Placed Block)} : (∀ t ∈ (Stmt.branch condition body otherwise).tokens, P t) ↔
      P condition ∧ (∀ t ∈ Block.tokens body, P t) ∧ ∀ o ∈ otherwise, ∀ t ∈ Block.tokens o.item, P t := by
  cases otherwise with
  | none => simp [Stmt.tokens]
  | some o => simp [Stmt.tokens, or_imp, forall_and]

theorem Block.mem_tokens {block : Block} {t : Token} :
    t ∈ Block.tokens block ↔ ∃ e ∈ block, t ∈ e.item.tokens := by
  induction block with
  | nil => simp [Block.tokens]
  | cons e rest ih => simp [Block.tokens, ih]

theorem Arms.mem_tokens {arms : Arms} {t : Token} : t ∈ Arms.tokens arms ↔
    ∃ arm ∈ arms, arm.item.label = some t ∨ t ∈ Block.tokens arm.item.body := by
  induction arms with
  | nil => simp [Arms.tokens]
  | cons arm rest ih => simp [Arms.tokens, ih, eq_comm, or_assoc]

/-! Every offset of a tree is one of a statement itself, in one of the blocks. -/

/-- The offsets of a statement at `here` that are not those of its blocks. -/
def Stmt.own (here : UInt32) : Stmt → List UInt32
  | .plain _ => [here]
  | .leave => [here]
  | .branch _ _ otherwise => here :: otherwise.toList.map (·.offset)
  | .whileLoop _ _ back => [here, back]
  | .doUntil condition _ => [condition.offset]
  | .forLoop start condition step _ back =>
    start.toList.map (·.offset) ++ condition.toList.map (·.offset) ++
      step.toList.map (·.offset) ++ [back]
  | .forEach _ _ next last => here :: next.toList ++ [last]
  | .switch _ arms => here :: arms.map (·.offset)

/-- One of the statements of the block has `k` as an offset of its own. -/
def Part.Owns (k : UInt32) (p : Part) : Prop := ∃ e ∈ p.block, k ∈ e.item.own e.offset

mutual

theorem Stmt.owned {k : UInt32} (here : UInt32) (beyond : List UInt32) :
    ∀ s : Stmt, k ∈ s.offsets here → k ∈ s.own here ∨ ∃ p ∈ s.parts beyond, p.Owns k
  | .plain _, h => .inl h
  | .leave, h => .inl h
  | .branch _ body none, h => by
    have hbody := Block.owned (k := k) beyond body
    simp only [Stmt.offsets, Stmt.own, Stmt.parts, List.mem_cons] at *
    grind
  | .branch _ body (some ⟨jump, other⟩), h => by
    have hbody := Block.owned (k := k) (jump :: Block.offsets other ++ beyond) body
    have hother := Block.owned (k := k) beyond other
    simp only [Stmt.offsets, Stmt.own, Stmt.parts, List.mem_cons, List.mem_append] at *
    grind
  | .whileLoop _ body back, h => by
    have hbody := Block.owned (k := k) (back :: beyond) body
    simp only [Stmt.offsets, Stmt.own, Stmt.parts, List.mem_cons, List.mem_append] at *
    grind
  | .doUntil condition body, h => by
    have hbody := Block.owned (k := k) (condition.offset :: beyond) body
    simp only [Stmt.offsets, Stmt.own, Stmt.parts, List.mem_cons, List.mem_append] at *
    grind
  | .forLoop start condition step body back, h => by
    have hbody := Block.owned (k := k) (step.toList.map (·.offset) ++ back :: beyond) body
    simp only [Stmt.offsets, Stmt.own, Stmt.parts, List.mem_cons, List.mem_append] at *
    grind
  | .forEach _ body next last, h => by
    have hbody := Block.owned (k := k) (next.toList ++ last :: beyond) body
    simp only [Stmt.offsets, Stmt.own, Stmt.parts, List.mem_cons, List.mem_append] at *
    grind
  | .switch _ arms, h => by
    have harms := Arms.owned (k := k) beyond arms
    simp only [Stmt.offsets, Stmt.own, Stmt.parts, List.mem_cons] at *
    grind

theorem Block.owned {k : UInt32} (beyond : List UInt32) :
    ∀ block : List (Placed Stmt), k ∈ Block.offsets block →
      ∃ p ∈ (⟨block, beyond⟩ :: Block.partsIn beyond block : List Part), p.Owns k
  | [], h => by simp [Block.offsets] at h
  | ⟨here, s⟩ :: rest, h => by
    rcases List.mem_append.mp h with h | h
    · rcases Stmt.owned here (Block.offsets rest ++ beyond) s h with hown | ⟨p, hp, howns⟩
      · exact ⟨_, List.mem_cons_self, ⟨here, s⟩, by simp, hown⟩
      · exact ⟨p, List.mem_cons_of_mem _ (List.mem_append_left _ hp), howns⟩
    · obtain ⟨p, hp, howns⟩ := Block.owned beyond rest h
      rcases List.mem_cons.mp hp with rfl | hp
      · obtain ⟨e, he, hk⟩ := howns
        exact ⟨_, List.mem_cons_self, e, List.mem_cons_of_mem _ he, hk⟩
      · exact ⟨p, List.mem_cons_of_mem _ (List.mem_append_right _ hp), howns⟩

theorem Arms.owned {k : UInt32} (beyond : List UInt32) :
    ∀ arms : List (Placed (Arm (List (Placed Stmt)))), k ∈ Arms.offsets arms →
      k ∈ arms.map (·.offset) ∨ ∃ p ∈ Arms.parts beyond arms, p.Owns k
  | [], h => by simp [Arms.offsets] at h
  | ⟨here, ⟨_, body⟩⟩ :: rest, h => by
    have hbody := Block.owned (k := k) (Arms.offsets rest ++ beyond) body
    have hrest := Arms.owned (k := k) beyond rest
    simp only [Arms.offsets, Arms.parts, List.map_cons, List.mem_cons, List.mem_append] at *
    grind

end

namespace Block

theorem Every.of_mem_parts {P : Block → Prop} {tree : Block} (h : Every P tree) {p : Part}
    (hp : p ∈ parts tree) : P p.block := by
  rcases List.mem_cons.mp hp with rfl | hp
  · exact h.1
  · exact everyIn_parts [] tree h.2 p hp

theorem exists_part_owns {tree : Block} {k : UInt32} (h : k ∈ offsets tree) :
    ∃ p ∈ parts tree, p.Owns k :=
  owned [] tree h

theorem endsIn_of_mem_parts {tree : Block} {p : Part} (hp : p ∈ parts tree) :
    p.EndsIn (offsets tree) := by
  simpa using offsets_part [] tree p hp

end Block

end ScriptLift
