import ScriptLift.Proofs.Rows
import ScriptLift.Recovery

/- Reading statements back from their text.

   The header of a statement starts with a keyword that tells what kind of statement it
   is, or with an expression, and no expression starts with a keyword
   (`Stmt.keyword_eq`). A body is indented deeper than what follows it, and what follows
   an if goes on with it exactly when it starts with an else at the indentation of the
   if. So the rows of two trees that print alike are cut alike (`Stmt.determined`), and the
   trees are the same but for the offsets in them (`Block.forget_eq_of_text_eq`). -/
namespace ScriptLift

/-! Trees without offsets. -/

/-- A part of a counted loop's header without its offset. -/
def Placed.forget {α : Type} (part : Placed α) : Placed α := ⟨0, part.item⟩

mutual

/-- A statement without the offsets in it. -/
def Stmt.forget : Stmt → Stmt
  | .plain token => .plain token
  | .leave => .leave
  | .branch condition body none => .branch condition (Block.forget body) none
  | .branch condition body (some ⟨_, other⟩) =>
    .branch condition (Block.forget body) (some ⟨0, Block.forget other⟩)
  | .whileLoop condition body _ => .whileLoop condition (Block.forget body) 0
  | .doUntil condition body => .doUntil condition.forget (Block.forget body)
  | .forLoop start condition step body _ =>
    .forLoop (start.map (·.forget)) (condition.map (·.forget)) (step.map (·.forget))
      (Block.forget body) 0
  | .forEach iterator body _ _ => .forEach iterator (Block.forget body) none 0
  | .switch subject arms => .switch subject (Arms.forget arms)

/-- A block without the offsets in it. -/
def Block.forget : List (Placed Stmt) → List (Placed Stmt)
  | [] => []
  | ⟨_, s⟩ :: rest => ⟨0, s.forget⟩ :: Block.forget rest

def Arms.forget : List (Placed (Arm (List (Placed Stmt)))) → List (Placed (Arm (List (Placed Stmt))))
  | [] => []
  | ⟨_, ⟨label, body⟩⟩ :: rest => ⟨0, ⟨label, Block.forget body⟩⟩ :: Arms.forget rest

end

/-! Headers. -/

namespace Stmt

/-- The keyword that a statement starts with, none for an expression. -/
def keyword : Stmt → Option String
  | .plain _ => none
  | .leave => some "break"
  | .branch _ _ _ => some "if"
  | .whileLoop _ _ _ => some "while"
  | .doUntil _ _ => some "do"
  | .forLoop _ _ _ _ _ => some "for"
  | .forEach _ _ _ _ => some "ForEach"
  | .switch _ _ => some "switch"

theorem keyword_mem {s : Stmt} {word : String} (h : s.keyword = some word) :
    word ∈ keywords ∧ word ≠ "else" := by
  cases s <;> simp only [keyword, Option.some.injEq, reduceCtorEq] at h <;> subst h <;> decide

theorem leadingWord_header {s : Stmt} {word : String} (h : s.keyword = some word) :
    leadingWord s.header = word.toList := by
  cases s <;> simp only [keyword, Option.some.injEq, reduceCtorEq] at h <;> subst h <;> rfl

/-- An expression as a statement does not start with a keyword. -/
theorem leadingWord_header_ne {s : Stmt} (hs : ∀ t ∈ s.tokens, t.Simple) (h : s.keyword = none)
    {word : String} (hword : word ∈ keywords) : leadingWord s.header ≠ word.toList := by
  cases s with
  | plain token =>
    exact (hs token List.mem_cons_self).leadingWord_ne (Token.stops_cons (by decide) []) hword
  | _ => simp [keyword] at h

theorem leadingWord_header_ne_else {s : Stmt} (hs : ∀ t ∈ s.tokens, t.Simple) :
    leadingWord s.header ≠ ['e', 'l', 's', 'e'] := by
  cases h : s.keyword with
  | none =>
    have helse : "else" ∈ keywords := by decide
    exact leadingWord_header_ne hs h helse
  | some word =>
    rw [leadingWord_header h]
    exact fun heq => (keyword_mem h).2 (String.toList_inj.mp heq)

/-- Statements with the same header are of one kind. -/
theorem keyword_eq {s s' : Stmt} (hs : ∀ t ∈ s.tokens, t.Simple) (hs' : ∀ t ∈ s'.tokens, t.Simple)
    (h : s.header = s'.header) : s.keyword = s'.keyword := by
  cases hk : s.keyword with
  | none =>
    cases hk' : s'.keyword with
    | none => rfl
    | some word =>
      exact absurd (h ▸ leadingWord_header hk') (leadingWord_header_ne hs hk (keyword_mem hk').1)
  | some word =>
    cases hk' : s'.keyword with
    | none =>
      exact absurd (h ▸ leadingWord_header hk) (leadingWord_header_ne hs' hk' (keyword_mem hk).1)
    | some word' =>
      have heq : word.toList = word'.toList := by rw [← leadingWord_header hk, ← leadingWord_header hk', h]
      rw [String.toList_inj.mp heq]

/-- A blank ends an expression when no operator stands behind it. -/
theorem ends_blank {c : Char} (h : isOperatorChar c = false) (rest : List Char) :
    Token.Ends (' ' :: c :: rest) := by
  refine ⟨Token.stops_cons (by decide) _, ?_⟩
  rintro x more ⟨⟩
  exact h

theorem condition_inj {condition condition' : Token} (h : condition.Simple) (h' : condition'.Simple)
    {rest rest' : List Char}
    (heq : condition.spelling ++ ' ' :: ')' :: rest = condition'.spelling ++ ' ' :: ')' :: rest') :
    condition = condition' :=
  (h.spelling_inj h' (ends_blank rfl _) (ends_blank rfl _) heq).1

theorem labelChars_inj {label label' : Option Token} (h : ∀ t ∈ label, t.Simple)
    (h' : ∀ t ∈ label', t.Simple) (heq : labelChars label = labelChars label') : label = label' := by
  cases label with
  | none =>
    cases label' with
    | none => rfl
    | some value' => simp [labelChars] at heq
  | some value =>
    cases label' with
    | none => simp [labelChars] at heq
    | some value' =>
      have hends : Token.Ends [':'] := Token.ends_cons (by decide) (by decide) []
      rw [((h value rfl).spelling_inj (h' value' rfl) hends hends (List.append_cancel_left heq)).1]

/-- A part of a counted loop's header is read back, when what follows it starts with the
character that ends the part. -/
theorem partChars_inj {part part' : Option (Placed Token)} (h : ∀ t ∈ part.toList.map (·.item), t.Simple)
    (h' : ∀ t ∈ part'.toList.map (·.item), t.Simple) {c : Char} (hop : isOperatorChar c = false)
    (hopen : Token.Opening.of c = none) {rest rest' : List Char}
    (heq : partChars part ++ c :: rest = partChars part' ++ c :: rest') :
    part.map (·.forget) = part'.map (·.forget) ∧ rest = rest' := by
  have hnone : ∀ {part : Placed Token} (x y : List Char), part.item.Simple →
      c :: x ≠ partChars (some part) ++ y := by
    intro part x y hpart hcons
    obtain ⟨d, more, hd, hne⟩ := hpart.spelling_cons
    obtain ⟨rfl, -⟩ : c = d ∧ x = more ++ ' ' :: y := by simpa [partChars, hd] using hcons
    exact hne hopen
  cases part with
  | none =>
    cases part' with
    | none => exact ⟨rfl, by simpa [partChars] using heq⟩
    | some part' => exact absurd heq (hnone _ _ (h' _ (by simp)))
  | some part =>
    cases part' with
    | none => exact absurd heq.symm (hnone _ _ (h _ (by simp)))
    | some part' =>
      simp only [partChars, List.append_assoc, List.cons_append, List.nil_append] at heq
      obtain ⟨hitem, hrest⟩ := (h part.item (by simp)).spelling_inj (h' part'.item (by simp))
        (ends_blank hop _) (ends_blank hop _) heq
      exact ⟨by simp [Placed.forget, hitem], by simpa using hrest⟩

end Stmt

/-! Cutting rows. -/

/-- The rows do not go on with an else at the indentation `n`. -/
def NoElse (n : Nat) (rows : List Row) : Prop :=
  ∀ row ∈ rows.head?, row.indent = n → leadingWord row.chars ≠ ['e', 'l', 's', 'e']

/-- The rows do not go on at the indentation `n` or deeper. -/
def Below (n : Nat) (rows : List Row) : Prop := ∀ row ∈ rows.head?, row.indent < n

theorem Below.noElse {n : Nat} {rows : List Row} (h : Below n rows) : NoElse n rows :=
  fun row hrow hindent => absurd (h row hrow) (by omega)

theorem below_cons {n : Nat} {row : Row} (h : row.indent < n) (rows : List Row) : Below n (row :: rows) := by
  intro r hr
  obtain rfl : row = r := by simpa using hr
  exact h

theorem Below.ne_cons {n : Nat} {rest more : List Row} {chars : List Char} (h : Below n rest) :
    rest ≠ ⟨n, chars⟩ :: more := by
  rintro rfl
  exact Nat.lt_irrefl n (h _ rfl)

/-- Two lists of rows that start with the header of `s` and its later rows, or with those of
a statement that looks like it, start with the same statement. -/
def Stmt.Determined (s : Stmt) : Prop :=
  (∀ t ∈ s.tokens, t.Simple) → ∀ s' : Stmt, (∀ t ∈ s'.tokens, t.Simple) →
    ∀ {n : Nat} {rest rest' : List Row}, NoElse n rest → NoElse n rest' → s.header = s'.header →
      s.laterRows n ++ rest = s'.laterRows n ++ rest' → s.forget = s'.forget ∧ rest = rest'

theorem Block.noElse_rows {block : Block} (h : ∀ t ∈ Block.tokens block, t.Simple) {n : Nat}
    {rest : List Row} (hrest : Below n rest) : NoElse n (Block.rows n block ++ rest) := by
  cases block with
  | nil => exact hrest.noElse
  | cons e block =>
    intro row hrow _
    obtain rfl : ⟨n, e.item.header⟩ = row := by simpa [Block.rows] using hrow
    exact Stmt.leadingWord_header_ne_else (List.forall_mem_append.mp h).1

/-- The rows of a block are read back, when what follows them is further out. -/
theorem Block.determined {b b' : Block} (hdet : ∀ e ∈ b, e.item.Determined)
    (hb : ∀ t ∈ Block.tokens b, t.Simple) (hb' : ∀ t ∈ Block.tokens b', t.Simple) {n : Nat}
    {rest rest' : List Row} (hrest : Below n rest) (hrest' : Below n rest')
    (heq : Block.rows n b ++ rest = Block.rows n b' ++ rest') :
    Block.forget b = Block.forget b' ∧ rest = rest' := by
  induction b generalizing b' with
  | nil =>
    cases b' with
    | nil => exact ⟨rfl, heq⟩
    | cons e' b' => exact absurd heq hrest.ne_cons
  | cons e b ih =>
    cases b' with
    | nil => exact absurd heq.symm hrest'.ne_cons
    | cons e' b' =>
      obtain ⟨he, hmore⟩ := List.forall_mem_append.mp hb
      obtain ⟨he', hmore'⟩ := List.forall_mem_append.mp hb'
      simp only [Block.rows, List.cons_append, List.append_assoc, List.cons.injEq, Row.mk.injEq,
        true_and] at heq
      -- The next statement of the block is no else either.
      obtain ⟨hfirst, hlater⟩ := hdet e (by simp) he e'.item he' (Block.noElse_rows hmore hrest)
        (Block.noElse_rows hmore' hrest') heq.1 heq.2
      obtain ⟨hforget, hend⟩ := ih (fun x hx => hdet x (by simp [hx])) hmore hmore' hlater
      exact ⟨by simp [Block.forget, hfirst, hforget], hend⟩

theorem Row.braced_append_inj {n : Nat} {rows rows' rest rest' : List Row}
    (h : Row.braced n rows ++ rest = Row.braced n rows' ++ rest') :
    rows ++ (⟨n, ['\x7d']⟩ :: rest) = rows' ++ (⟨n, ['\x7d']⟩ :: rest') := by
  simpa [Row.braced] using h

/-- A block between braces is read back. -/
theorem Block.determined_braced {b b' : Block} (hdet : ∀ e ∈ b, e.item.Determined)
    (hb : ∀ t ∈ Block.tokens b, t.Simple) (hb' : ∀ t ∈ Block.tokens b', t.Simple) {n : Nat}
    {rest rest' : List Row}
    (heq : Row.braced n (Block.rows (n + 1) b) ++ rest = Row.braced n (Block.rows (n + 1) b') ++ rest') :
    Block.forget b = Block.forget b' ∧ rest = rest' := by
  obtain ⟨hforget, hrest⟩ := Block.determined hdet hb hb' (below_cons (Nat.lt_succ_self n) _)
    (below_cons (Nat.lt_succ_self n) _) (Row.braced_append_inj heq)
  exact ⟨hforget, (List.cons.inj hrest).2⟩

theorem Arms.below_rows (arms : Arms) {n : Nat} {rest : List Row} (hrest : Below n rest) :
    Below (n + 1) (Arms.rows n arms ++ rest) := by
  cases arms with
  | nil => exact fun row hrow => Nat.lt_succ_of_lt (hrest row hrow)
  | cons arm arms => exact below_cons (Nat.lt_succ_self n) _

theorem Arms.determined {arms arms' : Arms} (hdet : ∀ arm ∈ arms, ∀ e ∈ arm.item.body, e.item.Determined)
    (harms : ∀ t ∈ Arms.tokens arms, t.Simple) (harms' : ∀ t ∈ Arms.tokens arms', t.Simple) {n : Nat}
    {rest rest' : List Row} (hrest : Below n rest) (hrest' : Below n rest')
    (heq : Arms.rows n arms ++ rest = Arms.rows n arms' ++ rest') :
    Arms.forget arms = Arms.forget arms' ∧ rest = rest' := by
  induction arms generalizing arms' with
  | nil =>
    cases arms' with
    | nil => exact ⟨rfl, heq⟩
    | cons arm' arms' => exact absurd heq hrest.ne_cons
  | cons arm arms ih =>
    cases arms' with
    | nil => exact absurd heq.symm hrest'.ne_cons
    | cons arm' arms' =>
      obtain ⟨hfirst, hmore⟩ := List.forall_mem_append.mp harms
      obtain ⟨hfirst', hmore'⟩ := List.forall_mem_append.mp harms'
      obtain ⟨hlabel, hbody⟩ := List.forall_mem_append.mp hfirst
      obtain ⟨hlabel', hbody'⟩ := List.forall_mem_append.mp hfirst'
      simp only [Arms.rows, List.cons_append, List.append_assoc, List.cons.injEq, Row.mk.injEq,
        true_and] at heq
      have hsame := Stmt.labelChars_inj (by simpa using hlabel) (by simpa using hlabel') heq.1
      -- The body of a case ends at the next label, which is one less deep.
      obtain ⟨hforget, hlater⟩ := Block.determined (hdet arm (by simp)) hbody hbody'
        (Arms.below_rows arms hrest) (Arms.below_rows arms' hrest') heq.2
      obtain ⟨hothers, hend⟩ := ih (fun x hx => hdet x (by simp [hx])) hmore hmore' hlater
      exact ⟨by simp [Arms.forget, hsame, hforget, hothers], hend⟩

/-! The second part of an if. -/

/-- The rows of a second part, none when there is none. -/
def Stmt.otherRows (n : Nat) (otherwise : Option (Placed Block)) : List Row :=
  otherwise.elim [] fun o => Block.elseRows n o.item

theorem Stmt.laterRows_branch (n : Nat) (condition : Token) (body : Block) (otherwise : Option (Placed Block)) :
    (Stmt.branch condition body otherwise).laterRows n =
      Row.braced n (Block.rows (n + 1) body) ++ otherRows n otherwise := by
  cases otherwise with
  | none => simp [Stmt.laterRows, otherRows]
  | some o => exact Stmt.laterRows_otherwise n condition body o.item o.offset

theorem Stmt.forget_branch (condition : Token) (body : Block) (otherwise : Option (Placed Block)) :
    (Stmt.branch condition body otherwise).forget =
      .branch condition (Block.forget body) (otherwise.map fun o => ⟨0, Block.forget o.item⟩) := by
  cases otherwise <;> rfl

/-- A second part is a single if behind the else, or a block between braces. -/
theorem Block.elseRows_cases (n : Nat) (others : Block) :
    (∃ there condition body otherwise, others = [⟨there, .branch condition body otherwise⟩] ∧
      Block.elseRows n others = ⟨n, ['e', 'l', 's', 'e', ' '] ++ (Stmt.branch condition body otherwise).header⟩ ::
        (Stmt.branch condition body otherwise).laterRows n) ∨
    Block.elseRows n others = ⟨n, ['e', 'l', 's', 'e']⟩ :: Row.braced n (Block.rows (n + 1) others) := by
  unfold Block.elseRows
  split
  · exact .inl ⟨_, _, _, _, rfl, rfl⟩
  · exact .inr rfl

theorem Block.not_noElse_elseRows (n : Nat) (others : Block) (rest : List Row) :
    ¬ NoElse n (Block.elseRows n others ++ rest) := by
  rcases Block.elseRows_cases n others with ⟨there, condition, body, otherwise, -, hrows⟩ | hrows
  · rw [hrows]
    exact fun h => h _ rfl rfl rfl
  · rw [hrows]
    exact fun h => h _ rfl rfl rfl

theorem Block.determined_else {others others' : Block} (hdet : ∀ e ∈ others, e.item.Determined)
    (hothers : ∀ t ∈ Block.tokens others, t.Simple) (hothers' : ∀ t ∈ Block.tokens others', t.Simple)
    {n : Nat} {rest rest' : List Row} (hrest : NoElse n rest) (hrest' : NoElse n rest')
    (heq : Block.elseRows n others ++ rest = Block.elseRows n others' ++ rest') :
    Block.forget others = Block.forget others' ∧ rest = rest' := by
  rcases Block.elseRows_cases n others with ⟨there, c, b, o, rfl, hrows⟩ | hrows
  · rcases Block.elseRows_cases n others' with ⟨there', c', b', o', rfl, hrows'⟩ | hrows'
    · rw [hrows, hrows'] at heq
      obtain ⟨hfirst, hlater⟩ := List.cons.inj heq
      have hs : ∀ t ∈ (Stmt.branch c b o).tokens, t.Simple := by simpa [Block.tokens] using hothers
      have hs' : ∀ t ∈ (Stmt.branch c' b' o').tokens, t.Simple := by simpa [Block.tokens] using hothers'
      obtain ⟨hforget, hend⟩ := hdet ⟨there, .branch c b o⟩ (by simp) hs _ hs' hrest hrest'
        (List.append_cancel_left (Row.mk.inj hfirst).2) hlater
      exact ⟨by simp [Block.forget, hforget], hend⟩
    · -- An if goes on in the line of the else, a brace does not.
      simp [hrows, hrows'] at heq
  · rcases Block.elseRows_cases n others' with ⟨there', c', b', o', rfl, hrows'⟩ | hrows'
    · simp [hrows, hrows'] at heq
    · rw [hrows, hrows'] at heq
      exact Block.determined_braced hdet hothers hothers' (List.cons.inj heq).2

theorem Stmt.determined_otherwise {otherwise otherwise' : Option (Placed Block)}
    (hdet : ∀ o ∈ otherwise, ∀ e ∈ o.item, e.item.Determined)
    (h : ∀ o ∈ otherwise, ∀ t ∈ Block.tokens o.item, t.Simple)
    (h' : ∀ o ∈ otherwise', ∀ t ∈ Block.tokens o.item, t.Simple) {n : Nat} {rest rest' : List Row}
    (hrest : NoElse n rest) (hrest' : NoElse n rest')
    (heq : otherRows n otherwise ++ rest = otherRows n otherwise' ++ rest') :
    (otherwise.map fun o => (⟨0, Block.forget o.item⟩ : Placed Block)) =
      (otherwise'.map fun o => ⟨0, Block.forget o.item⟩) ∧ rest = rest' := by
  cases otherwise with
  | none =>
    cases otherwise' with
    | none => exact ⟨rfl, heq⟩
    | some o' =>
      -- What follows would be an else of its own.
      obtain rfl : rest = Block.elseRows n o'.item ++ rest' := heq
      exact absurd hrest (Block.not_noElse_elseRows n _ _)
  | some o =>
    cases otherwise' with
    | none =>
      obtain rfl : Block.elseRows n o.item ++ rest = rest' := heq
      exact absurd hrest' (Block.not_noElse_elseRows n _ _)
    | some o' =>
      obtain ⟨hforget, hend⟩ := Block.determined_else (hdet o rfl) (h o rfl) (h' o' rfl) hrest hrest' heq
      exact ⟨by simp [hforget], hend⟩

/-! Reading back, one kind of statement at a time. The headers agree, so the keyword leaves one
kind for the other statement. -/

namespace Stmt

theorem determined_plain (token : Token) : (plain token).Determined := by
  intro hs s' hs' n rest rest' hrest hrest' hheader heq
  have hkind := keyword_eq hs hs' hheader
  cases s' with
  | plain token' =>
    have hends : Token.Ends [';'] := Token.ends_cons (by decide) (by decide) []
    obtain ⟨rfl, -⟩ := (hs token (by simp [tokens])).spelling_inj (hs' token' (by simp [tokens])) hends hends
      hheader
    exact ⟨rfl, heq⟩
  | _ => simp [keyword] at hkind

theorem determined_leave : leave.Determined := by
  intro hs s' hs' n rest rest' hrest hrest' hheader heq
  have hkind := keyword_eq hs hs' hheader
  cases s' with
  | leave => exact ⟨rfl, heq⟩
  | _ => simp [keyword] at hkind

section Body
variable {body : Block} (ih : ∀ e ∈ body, e.item.Determined)

include ih

theorem determined_branch {condition : Token} {otherwise : Option (Placed Block)}
    (ihother : ∀ o ∈ otherwise, ∀ e ∈ o.item, e.item.Determined) :
    (branch condition body otherwise).Determined := by
  intro hs s' hs' n rest rest' hrest hrest' hheader heq
  have hkind := keyword_eq hs hs' hheader
  cases s' with
  | branch condition' body' otherwise' =>
    obtain ⟨hcondition, hbody, hother⟩ := Stmt.forall_tokens_branch.mp hs
    obtain ⟨hcondition', hbody', hother'⟩ := Stmt.forall_tokens_branch.mp hs'
    obtain rfl := condition_inj hcondition hcondition' (List.append_cancel_left hheader)
    rw [laterRows_branch, laterRows_branch, List.append_assoc, List.append_assoc] at heq
    obtain ⟨hfirst, hlater⟩ := Block.determined_braced ih hbody hbody' heq
    obtain ⟨hsecond, hend⟩ := determined_otherwise ihother hother hother' hrest hrest' hlater
    exact ⟨by rw [forget_branch, forget_branch, hfirst, hsecond], hend⟩
  | _ => simp [keyword] at hkind

theorem determined_whileLoop {condition : Token} {back : UInt32} : (whileLoop condition body back).Determined := by
  intro hs s' hs' n rest rest' hrest hrest' hheader heq
  have hkind := keyword_eq hs hs' hheader
  cases s' with
  | whileLoop condition' body' back' =>
    obtain ⟨hcondition, hbody⟩ := List.forall_mem_cons.mp hs
    obtain ⟨hcondition', hbody'⟩ := List.forall_mem_cons.mp hs'
    obtain rfl := condition_inj hcondition hcondition' (List.append_cancel_left hheader)
    obtain ⟨hforget, hend⟩ := Block.determined_braced ih hbody hbody' heq
    exact ⟨by simp [forget, hforget], hend⟩
  | _ => simp [keyword] at hkind

theorem determined_doUntil {condition : Placed Token} : (doUntil condition body).Determined := by
  intro hs s' hs' n rest rest' hrest hrest' hheader heq
  have hkind := keyword_eq hs hs' hheader
  cases s' with
  | doUntil condition' body' =>
    obtain ⟨hbody, hcondition⟩ := List.forall_mem_append.mp hs
    obtain ⟨hbody', hcondition'⟩ := List.forall_mem_append.mp hs'
    rw [laterRows, laterRows, List.append_assoc, List.append_assoc] at heq
    obtain ⟨hforget, hlater⟩ := Block.determined_braced ih hbody hbody' heq
    obtain ⟨huntil, hend⟩ := List.cons.inj hlater
    have hitem := condition_inj (hcondition _ (by simp)) (hcondition' _ (by simp))
      (List.append_cancel_left (Row.mk.inj huntil).2)
    exact ⟨by simp [forget, Placed.forget, hforget, hitem], hend⟩
  | _ => simp [keyword] at hkind

theorem determined_forLoop {start condition step : Option (Placed Token)} {back : UInt32} :
    (forLoop start condition step body back).Determined := by
  intro hs s' hs' n rest rest' hrest hrest' hheader heq
  have hkind := keyword_eq hs hs' hheader
  cases s' with
  | forLoop start' condition' step' body' back' =>
    obtain ⟨hparts, hbody⟩ := List.forall_mem_append.mp hs
    obtain ⟨hfirst, hstep⟩ := List.forall_mem_append.mp hparts
    obtain ⟨hstart, hcondition⟩ := List.forall_mem_append.mp hfirst
    obtain ⟨hparts', hbody'⟩ := List.forall_mem_append.mp hs'
    obtain ⟨hfirst', hstep'⟩ := List.forall_mem_append.mp hparts'
    obtain ⟨hstart', hcondition'⟩ := List.forall_mem_append.mp hfirst'
    obtain ⟨hinit, hmore⟩ := partChars_inj hstart hstart' rfl rfl (List.append_cancel_left hheader)
    obtain ⟨htest, hmore⟩ := partChars_inj hcondition hcondition' rfl rfl (List.cons.inj hmore).2
    obtain ⟨hupdate, -⟩ := partChars_inj hstep hstep' rfl rfl (List.cons.inj hmore).2
    obtain ⟨hforget, hend⟩ := Block.determined_braced ih hbody hbody' heq
    exact ⟨by simp [forget, hinit, htest, hupdate, hforget], hend⟩
  | _ => simp [keyword] at hkind

theorem determined_forEach {iterator : Token} {next : Option UInt32} {last : UInt32} :
    (forEach iterator body next last).Determined := by
  intro hs s' hs' n rest rest' hrest hrest' hheader heq
  have hkind := keyword_eq hs hs' hheader
  cases s' with
  | forEach iterator' body' next' last' =>
    obtain ⟨hiterator, hbody⟩ := List.forall_mem_cons.mp hs
    obtain ⟨hiterator', hbody'⟩ := List.forall_mem_cons.mp hs'
    have hspelling : iterator.spelling ++ [] = iterator'.spelling ++ [] := by
      simpa using List.append_cancel_left hheader
    obtain ⟨rfl, -⟩ := hiterator.spelling_inj hiterator' Token.ends_nil Token.ends_nil hspelling
    obtain ⟨hforget, hend⟩ := Block.determined_braced ih hbody hbody' heq
    exact ⟨by simp [forget, hforget], hend⟩
  | _ => simp [keyword] at hkind

end Body

theorem determined_switch {subject : Token} {arms : Arms}
    (ih : ∀ arm ∈ arms, ∀ e ∈ arm.item.body, e.item.Determined) : (switch subject arms).Determined := by
  intro hs s' hs' n rest rest' hrest hrest' hheader heq
  have hkind := keyword_eq hs hs' hheader
  cases s' with
  | switch subject' arms' =>
    obtain ⟨hsubject, harms⟩ := List.forall_mem_cons.mp hs
    obtain ⟨hsubject', harms'⟩ := List.forall_mem_cons.mp hs'
    obtain rfl := condition_inj hsubject hsubject' (List.append_cancel_left hheader)
    obtain ⟨hforget, hend⟩ := Arms.determined ih harms harms' (below_cons (Nat.lt_succ_self n) _)
      (below_cons (Nat.lt_succ_self n) _) (Row.braced_append_inj heq)
    exact ⟨by simp [forget, hforget], (List.cons.inj hend).2⟩
  | _ => simp [keyword] at hkind

/-- The rows of a statement are read back. -/
theorem determined (s : Stmt) : s.Determined := by
  induction s using Stmt.induction with
  | plain token => exact determined_plain token
  | leave => exact determined_leave
  | branch condition body otherwise ih ihother => exact determined_branch ih ihother
  | whileLoop condition body back ih => exact determined_whileLoop ih
  | doUntil condition body ih => exact determined_doUntil ih
  | forLoop start condition step body back ih => exact determined_forLoop ih
  | forEach iterator body next last ih => exact determined_forEach ih
  | switch subject arms ih => exact determined_switch ih

end Stmt

/-- The text determines the tree. Two blocks of such expressions are written, and when their
texts are the same, the blocks are the same but for the offsets in them. -/
theorem Block.forget_eq_of_text_eq (c : Context) (ending : LineEnding) (indent : Nat) {b b' : Block}
    (hb : ∀ t ∈ Block.tokens b, t.Simple) (hb' : ∀ t ∈ Block.tokens b', t.Simple) :
    ∃ text text', Block.text c.tokenText indent b = .ok text ∧ Block.text c.tokenText indent b' = .ok text' ∧
      (text.render ending = text'.render ending → Block.forget b = Block.forget b') := by
  have hspells : Spells c.tokenText := fun t ht => ht.render_eq c.link
  obtain ⟨text, htext, hchars⟩ := Block.text_rows ending hspells indent b hb
  obtain ⟨text', htext', hchars'⟩ := Block.text_rows ending hspells indent b' hb'
  refine ⟨text, text', htext, htext', fun hsame => ?_⟩
  have hencoded : Row.encodeAll ending (Block.rows indent b) = Row.encodeAll ending (Block.rows indent b') := by
    rw [← hchars, ← hchars', Text.chars, Text.chars, hsame]
  have hrows := Row.encodeAll_inj (Block.clean_rows hb indent) (Block.clean_rows hb' indent) hencoded
  have hend : Below indent [] := by simp [Below]
  exact (Block.determined (fun e _ => e.item.determined) hb hb' hend hend (by rw [hrows])).1

/-- An if in an if, and an else of the outer one. -/
def Block.outerElse : Block :=
  [⟨0, .branch (.localVariable "x") [⟨2, .branch (.localVariable "y") [] none⟩] (some ⟨4, [⟨6, .leave⟩]⟩)⟩]

/-- An if in an if, and an else of the inner one. -/
def Block.innerElse : Block :=
  [⟨0, .branch (.localVariable "x") [⟨2, .branch (.localVariable "y") [] (some ⟨4, [⟨6, .leave⟩]⟩)⟩] none⟩]

/-- Both are written, and the texts tell whose the else is. -/
theorem Block.forget_eq_of_text_danglingElse : ∃ text text',
    Block.text (Context.ofOptions (Package.named "Maps") .standard).tokenText 1 outerElse = .ok text ∧
    Block.text (Context.ofOptions (Package.named "Maps") .standard).tokenText 1 innerElse = .ok text' ∧
    text.render .lf ≠ text'.render .lf := by
  have hx : (Token.localVariable "x").Simple := .localVariable (by decide)
  have hy : (Token.localVariable "y").Simple := .localVariable (by decide)
  have houter : ∀ t ∈ Block.tokens outerElse, t.Simple := by
    simp [outerElse, Block.tokens, Stmt.tokens, hx, hy]
  have hinner : ∀ t ∈ Block.tokens innerElse, t.Simple := by
    simp [innerElse, Block.tokens, Stmt.tokens, hx, hy]
  obtain ⟨text, text', htext, htext', hsame⟩ := forget_eq_of_text_eq
    (Context.ofOptions (Package.named "Maps") .standard) .lf 1 houter hinner
  refine ⟨text, text', htext, htext', fun heq => ?_⟩
  have hforget := hsame heq
  simp [outerElse, innerElse, Block.forget, Stmt.forget] at hforget

end ScriptLift
