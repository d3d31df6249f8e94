import ScriptLift.Proofs.ExpressionText
import ScriptLift.Proofs.Nesting
import ScriptLift.Script.Layout

/- The text of statements as a list of lines.

   Each statement has a header, the first line it is written in, and the rows behind it.
   The characters of a text are those of its rows (`Block.text_rows`), and since no row holds
   a line break or starts with a tab, the characters determine the rows
   (`Row.encodeAll_inj`). -/
namespace ScriptLift

/-- A line: how far it is indented, and what stands there. -/
structure Row where
  indent : Nat
  chars : List Char

namespace Row

/-- The characters of a line, with the line break in front of it. -/
def encode (ending : LineEnding) (row : Row) : List Char :=
  ending.text.toList ++ (List.replicate row.indent '\t' ++ row.chars)

def encodeAll (ending : LineEnding) (rows : List Row) : List Char := rows.flatMap (encode ending)

@[simp] theorem encodeAll_nil (ending : LineEnding) : encodeAll ending [] = [] := rfl

@[simp] theorem encodeAll_cons (ending : LineEnding) (row : Row) (rows : List Row) :
    encodeAll ending (row :: rows) = row.encode ending ++ encodeAll ending rows := rfl

@[simp] theorem encodeAll_append (ending : LineEnding) (rows more : List Row) :
    encodeAll ending (rows ++ more) = encodeAll ending rows ++ encodeAll ending more :=
  List.flatMap_append

/-- Something stands in the line, and it neither breaks it nor starts with a tab. -/
structure Clean (row : Row) : Prop where
  line : row.chars.all isLineChar = true
  start : ∃ c rest, row.chars = c :: rest ∧ c ≠ '\t'

theorem ending_cons (ending : LineEnding) :
    ∃ c rest, ending.text.toList = c :: rest ∧ isLineChar c = false := by
  cases ending <;> exact ⟨_, _, rfl, rfl⟩

theorem head_encodeAll (ending : LineEnding) (rows : List Row) :
    ∀ c ∈ (encodeAll ending rows).head?, isLineChar c = false := by
  cases rows with
  | nil => simp
  | cons row rows =>
    obtain ⟨c, rest, hcons, hc⟩ := ending_cons ending
    simp [encode, hcons, hc]

/-- The characters determine the rows. -/
theorem encodeAll_inj {ending : LineEnding} {rows rows' : List Row} (h : ∀ row ∈ rows, row.Clean)
    (h' : ∀ row ∈ rows', row.Clean) (heq : encodeAll ending rows = encodeAll ending rows') :
    rows = rows' := by
  obtain ⟨c, rest, hending, -⟩ := ending_cons ending
  induction rows generalizing rows' with
  | nil =>
    cases rows' with
    | nil => rfl
    | cons row' rows' => simp [encode, hending] at heq
  | cons row rows ih =>
    cases rows' with
    | nil => simp [encode, hending] at heq
    | cons row' rows' =>
      obtain ⟨hrow, hrows⟩ := List.forall_mem_cons.mp h
      obtain ⟨hrow', hrows'⟩ := List.forall_mem_cons.mp h'
      simp only [encodeAll_cons, encode, List.append_assoc] at heq
      have htabs : ∀ n, ∀ c ∈ List.replicate n '\t', (c == '\t') = true := by simp
      have hstart : ∀ {r : Row} (x : List Char), r.Clean → ∀ c ∈ (r.chars ++ x).head?, (c == '\t') = false := by
        intro r x hr
        obtain ⟨c, more, hcons, hc⟩ := hr.start
        simpa [hcons] using hc
      -- The tabs end where the row does, and the row at the next line break.
      obtain ⟨hindent, hmore⟩ := append_cut_inj (htabs _) (htabs _) (hstart _ hrow) (hstart _ hrow')
        (List.append_cancel_left heq)
      obtain ⟨hchars, hlater⟩ := append_cut_inj (List.all_eq_true.mp hrow.line)
        (List.all_eq_true.mp hrow'.line) (head_encodeAll ending rows) (head_encodeAll ending rows') hmore
      have hlength : row.indent = row'.indent := by simpa using congrArg List.length hindent
      rw [ih hrows hrows' hlater]
      cases row
      cases row'
      simp_all

end Row

/-! The rows of a statement. -/

namespace Stmt

/-- A part of a counted loop's header. -/
def partChars : Option (Placed Token) → List Char
  | none => []
  | some part => part.item.spelling ++ [' ']

/-- The label of a case. -/
def labelChars : Option Token → List Char
  | none => ['d', 'e', 'f', 'a', 'u', 'l', 't', ':']
  | some value => ['c', 'a', 's', 'e', ' '] ++ (value.spelling ++ [':'])

/-- The first line of a statement. -/
def header : Stmt → List Char
  | .plain token => token.spelling ++ [';']
  | .leave => ['b', 'r', 'e', 'a', 'k', ';']
  | .branch condition _ _ => ['i', 'f', ' ', '(', ' '] ++ (condition.spelling ++ [' ', ')'])
  | .whileLoop condition _ _ => ['w', 'h', 'i', 'l', 'e', ' ', '(', ' '] ++ (condition.spelling ++ [' ', ')'])
  | .doUntil _ _ => ['d', 'o']
  | .forLoop start condition step _ _ =>
    ['f', 'o', 'r', ' ', '(', ' '] ++ (partChars start ++ ([';', ' '] ++ (partChars condition ++
      ([';', ' '] ++ (partChars step ++ [')'])))))
  | .forEach iterator _ _ _ => ['F', 'o', 'r', 'E', 'a', 'c', 'h', ' '] ++ iterator.spelling
  | .switch subject _ => ['s', 'w', 'i', 't', 'c', 'h', ' ', '(', ' '] ++ (subject.spelling ++ [' ', ')'])

end Stmt

/-- Rows between braces. -/
def Row.braced (indent : Nat) (rows : List Row) : List Row :=
  ⟨indent, ['\x7b']⟩ :: (rows ++ [⟨indent, ['\x7d']⟩])

mutual

/-- The rows of a statement behind its header. -/
def Stmt.laterRows (indent : Nat) : Stmt → List Row
  | .plain _ => []
  | .leave => []
  | .branch _ body none => Row.braced indent (Block.rows (indent + 1) body)
  | .branch _ body (some ⟨_, [⟨_, other⟩]⟩) =>
    Row.braced indent (Block.rows (indent + 1) body) ++
      if other.isBranch then ⟨indent, ['e', 'l', 's', 'e', ' '] ++ other.header⟩ :: other.laterRows indent
      else ⟨indent, ['e', 'l', 's', 'e']⟩ ::
        Row.braced indent (⟨indent + 1, other.header⟩ :: other.laterRows (indent + 1))
  | .branch _ body (some ⟨_, others⟩) =>
    Row.braced indent (Block.rows (indent + 1) body) ++
      ⟨indent, ['e', 'l', 's', 'e']⟩ :: Row.braced indent (Block.rows (indent + 1) others)
  | .whileLoop _ body _ => Row.braced indent (Block.rows (indent + 1) body)
  | .doUntil condition body =>
    Row.braced indent (Block.rows (indent + 1) body) ++
      [⟨indent, ['u', 'n', 't', 'i', 'l', ' ', '(', ' '] ++ (condition.item.spelling ++ [' ', ')', ';'])⟩]
  | .forLoop _ _ _ body _ => Row.braced indent (Block.rows (indent + 1) body)
  | .forEach _ body _ _ => Row.braced indent (Block.rows (indent + 1) body)
  | .switch _ arms => Row.braced indent (Arms.rows (indent + 1) arms)

/-- The rows of a block. -/
def Block.rows (indent : Nat) : List (Placed Stmt) → List Row
  | [] => []
  | ⟨_, s⟩ :: rest => ⟨indent, s.header⟩ :: (s.laterRows indent ++ Block.rows indent rest)

def Arms.rows (indent : Nat) : List (Placed (Arm (List (Placed Stmt)))) → List Row
  | [] => []
  | ⟨_, ⟨label, body⟩⟩ :: rest =>
    ⟨indent, Stmt.labelChars label⟩ :: (Block.rows (indent + 1) body ++ Arms.rows indent rest)

end

/-- The rows of a second part: an if on its own goes on in the line of the else. -/
def Block.elseRows (indent : Nat) (others : Block) : List Row :=
  match others with
  | [⟨_, .branch condition body otherwise⟩] =>
    ⟨indent, ['e', 'l', 's', 'e', ' '] ++ (Stmt.branch condition body otherwise).header⟩ ::
      (Stmt.branch condition body otherwise).laterRows indent
  | others => ⟨indent, ['e', 'l', 's', 'e']⟩ :: Row.braced indent (Block.rows (indent + 1) others)

theorem Stmt.laterRows_otherwise (indent : Nat) (condition : Token) (body others : Block) (jump : UInt32) :
    (Stmt.branch condition body (some ⟨jump, others⟩)).laterRows indent =
      Row.braced indent (Block.rows (indent + 1) body) ++ Block.elseRows indent others := by
  match others with
  | [] => simp [Stmt.laterRows, Block.elseRows]
  | [⟨_, other⟩] => cases other <;> simp [Stmt.laterRows, Block.elseRows, Stmt.isBranch, Block.rows]
  | e :: e' :: rest => simp [Stmt.laterRows, Block.elseRows]

/-! The characters of a text. -/

namespace Text

variable {ending : LineEnding}

/-- The characters of a text. -/
def chars (ending : LineEnding) (text : Text) : List Char := (text.render ending).toList

@[simp] theorem chars_append (a b : Text) : (a ++ b).chars ending = a.chars ending ++ b.chars ending := by
  simp [chars]

@[simp] theorem chars_nil : chars ending [] = [] := rfl

@[simp] theorem chars_lit (s : String) : (lit s).chars ending = s.toList := by
  simp [chars, lit, render, Piece.render]

@[simp] theorem chars_line (indent : Nat) :
    (line indent).chars ending = ending.text.toList ++ List.replicate indent '\t' := by
  simp [chars, line, render, Piece.render, tabs]

@[simp] theorem chars_lineOf (indent : Nat) (s : String) :
    (lineOf indent s).chars ending = Row.encode ending ⟨indent, s.toList⟩ := by
  simp [chars, lineOf, render, Piece.render, tabs, Row.encode]

@[simp] theorem chars_braces {body : Text} {rows : List Row} (indent : Nat)
    (h : body.chars ending = Row.encodeAll ending rows) :
    (Stmt.braces indent body).chars ending = Row.encodeAll ending (Row.braced indent rows) := by
  simp [Stmt.braces, Row.braced, h]

end Text

/-- Expressions are written as they are spelled. -/
def Spells (render : Token → Except Error String) : Prop :=
  ∀ t, t.Simple → render t = .ok (String.ofList t.spelling)

section Writing
variable {render : Token → Except Error String} {ending : LineEnding}

theorem Stmt.headerPart_eq (hrender : Spells render) {part : Option (Placed Token)}
    (h : ∀ t ∈ part.toList.map (·.item), t.Simple) :
    headerPart render part = .ok (String.ofList (partChars part)) := by
  cases part with
  | none => rfl
  | some part =>
    have hpart : headerPart render (some part) = .ok (String.ofList part.item.spelling ++ " ") := by
      rw [headerPart, hrender _ (h part.item (by simp))]
      rfl
    rw [hpart, partChars, String.ofList_append]

theorem Stmt.labelText_eq (hrender : Spells render) {label : Option Token}
    (h : ∀ t ∈ label, t.Simple) : labelText render label = .ok (String.ofList (labelChars label)) := by
  cases label with
  | none => rfl
  | some value =>
    have hlabel : labelText render (some value) = .ok ("case " ++ String.ofList value.spelling ++ ":") := by
      rw [labelText, hrender _ (h value rfl)]
      rfl
    rw [hlabel, labelChars, String.ofList_append, String.ofList_append, String.append_assoc]

/-- A second part that is no statement on its own is written between braces. -/
theorem Stmt.otherwise_rows {condition : Token} {body others : Block} {jump : UInt32} {indent : Nat}
    (hcondition : render condition = .ok (String.ofList condition.spelling)) (hothers : ∀ e, others ≠ [e])
    (hbody : ∃ text, Block.text render (indent + 1) body = .ok text ∧
      text.chars ending = Row.encodeAll ending (Block.rows (indent + 1) body))
    (hmore : ∃ text, Block.text render (indent + 1) others = .ok text ∧
      text.chars ending = Row.encodeAll ending (Block.rows (indent + 1) others)) :
    ∃ text, (Stmt.branch condition body (some ⟨jump, others⟩)).text render indent = .ok text ∧
      text.chars ending = (Stmt.branch condition body (some ⟨jump, others⟩)).header ++
        Row.encodeAll ending ((Stmt.branch condition body (some ⟨jump, others⟩)).laterRows indent) := by
  obtain ⟨text, htext, hrows⟩ := hbody
  obtain ⟨more, hmore, hmoreRows⟩ := hmore
  have hsingle : ∀ there other, others = [⟨there, other⟩] → False := fun there other => hothers ⟨there, other⟩
  refine ⟨_, by rw [Stmt.text, hcondition, htext, hmore]; rfl; exact hsingle, ?_⟩
  rw [Stmt.laterRows]
  · simp [Stmt.header, Text.chars_braces indent hrows, Text.chars_braces indent hmoreRows]
  · exact hsingle

variable (ending)

mutual

theorem Stmt.text_rows (hrender : Spells render) (indent : Nat) : ∀ s : Stmt, (∀ t ∈ s.tokens, t.Simple) →
    ∃ text, s.text render indent = .ok text ∧
      text.chars ending = s.header ++ Row.encodeAll ending (s.laterRows indent)
  | .plain token, h => by
    have htoken := h token (by simp [Stmt.tokens])
    refine ⟨_, by rw [Stmt.text, hrender token htoken]; rfl, ?_⟩
    cases htoken <;> simp [Stmt.header, Stmt.laterRows, Token.statement]
  | .leave, _ => by
    refine ⟨_, by rw [Stmt.text]; rfl, ?_⟩
    simp [Stmt.header, Stmt.laterRows]
  | .branch condition body none, h => by
    obtain ⟨hcondition, hbody⟩ := List.forall_mem_cons.mp h
    obtain ⟨text, htext, hrows⟩ := Block.text_rows hrender (indent + 1) body hbody
    refine ⟨_, by rw [Stmt.text, hrender condition hcondition, htext]; rfl, ?_⟩
    simp [Stmt.header, Stmt.laterRows, Text.chars_braces indent hrows]
  | .branch condition body (some ⟨_, [⟨there, other⟩]⟩), h => by
    obtain ⟨hcondition, hrest⟩ := List.forall_mem_cons.mp h
    obtain ⟨hbody, hother⟩ := List.forall_mem_append.mp hrest
    obtain ⟨text, htext, hrows⟩ := Block.text_rows hrender (indent + 1) body hbody
    replace hother : ∀ t ∈ other.tokens, t.Simple := by simpa [Block.tokens] using hother
    by_cases hbranch : other.isBranch = true
    · obtain ⟨more, hmore, hmoreRows⟩ := Stmt.text_rows hrender indent other hother
      refine ⟨Text.lit ("if ( " ++ String.ofList condition.spelling ++ " )") ++ Stmt.braces indent text ++
        Text.lineOf indent "else " ++ more, ?_, ?_⟩
      · simp only [Stmt.text, hrender condition hcondition, htext, hbranch, hmore, if_true]
        rfl
      · simp [Stmt.header, Stmt.laterRows, Text.chars_braces indent hrows, hbranch, hmoreRows, Row.encode]
    · obtain ⟨more, hmore, hmoreRows⟩ := Stmt.text_rows hrender (indent + 1) other hother
      have hinner : (Text.line (indent + 1) ++ more).chars ending =
          Row.encodeAll ending (⟨indent + 1, other.header⟩ :: other.laterRows (indent + 1)) := by
        simp [hmoreRows, Row.encode]
      refine ⟨Text.lit ("if ( " ++ String.ofList condition.spelling ++ " )") ++ Stmt.braces indent text ++
        Text.lineOf indent "else" ++ Stmt.braces indent (Text.line (indent + 1) ++ more), ?_, ?_⟩
      · simp only [Stmt.text, hrender condition hcondition, htext, hbranch, hmore, Bool.false_eq_true, if_false]
        rfl
      · simp [Stmt.header, Stmt.laterRows, Text.chars_braces indent hrows, hbranch,
          Text.chars_braces indent hinner]
  | .branch condition body (some ⟨_, []⟩), h => by
    obtain ⟨hcondition, hrest⟩ := List.forall_mem_cons.mp h
    obtain ⟨hbody, hother⟩ := List.forall_mem_append.mp hrest
    exact Stmt.otherwise_rows (hrender condition hcondition) (by simp)
      (Block.text_rows hrender (indent + 1) body hbody) (Block.text_rows hrender (indent + 1) [] hother)
  | .branch condition body (some ⟨_, e :: e' :: others⟩), h => by
    obtain ⟨hcondition, hrest⟩ := List.forall_mem_cons.mp h
    obtain ⟨hbody, hother⟩ := List.forall_mem_append.mp hrest
    exact Stmt.otherwise_rows (hrender condition hcondition) (by simp)
      (Block.text_rows hrender (indent + 1) body hbody)
      (Block.text_rows hrender (indent + 1) (e :: e' :: others) hother)
  | .whileLoop condition body _, h => by
    obtain ⟨hcondition, hbody⟩ := List.forall_mem_cons.mp h
    obtain ⟨text, htext, hrows⟩ := Block.text_rows hrender (indent + 1) body hbody
    refine ⟨_, by rw [Stmt.text, hrender condition hcondition, htext]; rfl, ?_⟩
    simp [Stmt.header, Stmt.laterRows, Text.chars_braces indent hrows]
  | .doUntil condition body, h => by
    obtain ⟨hbody, hcondition⟩ := List.forall_mem_append.mp h
    obtain ⟨text, htext, hrows⟩ := Block.text_rows hrender (indent + 1) body hbody
    refine ⟨_, by rw [Stmt.text, htext, hrender _ (hcondition _ List.mem_cons_self)]; rfl, ?_⟩
    simp [Stmt.header, Stmt.laterRows, Text.chars_braces indent hrows, Row.encode]
  | .forLoop start condition step body _, h => by
    obtain ⟨hparts, hbody⟩ := List.forall_mem_append.mp h
    obtain ⟨hfirst, hstep⟩ := List.forall_mem_append.mp hparts
    obtain ⟨hstart, hcondition⟩ := List.forall_mem_append.mp hfirst
    obtain ⟨text, htext, hrows⟩ := Block.text_rows hrender (indent + 1) body hbody
    refine ⟨_, by rw [Stmt.text, Stmt.headerPart_eq hrender hstart, Stmt.headerPart_eq hrender hcondition,
      Stmt.headerPart_eq hrender hstep, htext]; rfl, ?_⟩
    simp [Stmt.header, Stmt.laterRows, Text.chars_braces indent hrows]
  | .forEach iterator body _ _, h => by
    obtain ⟨hiterator, hbody⟩ := List.forall_mem_cons.mp h
    obtain ⟨text, htext, hrows⟩ := Block.text_rows hrender (indent + 1) body hbody
    refine ⟨_, by rw [Stmt.text, hrender iterator hiterator, htext]; rfl, ?_⟩
    simp [Stmt.header, Stmt.laterRows, Text.chars_braces indent hrows]
  | .switch subject arms, h => by
    obtain ⟨hsubject, harms⟩ := List.forall_mem_cons.mp h
    obtain ⟨text, htext, hrows⟩ := Arms.text_rows hrender (indent + 1) arms harms
    refine ⟨_, by rw [Stmt.text, hrender subject hsubject, htext]; rfl, ?_⟩
    simp [Stmt.header, Stmt.laterRows, Text.chars_braces indent hrows]

/-- A block is written, and in its rows. -/
theorem Block.text_rows (hrender : Spells render) (indent : Nat) : ∀ block : List (Placed Stmt),
    (∀ t ∈ Block.tokens block, t.Simple) → ∃ text, Block.text render indent block = .ok text ∧
      text.chars ending = Row.encodeAll ending (Block.rows indent block)
  | [], _ => ⟨[], rfl, rfl⟩
  | ⟨_, s⟩ :: rest, h => by
    obtain ⟨hs, hrest⟩ := List.forall_mem_append.mp h
    obtain ⟨first, hfirst, hrows⟩ := Stmt.text_rows hrender indent s hs
    obtain ⟨more, hmore, hmoreRows⟩ := Block.text_rows hrender indent rest hrest
    refine ⟨_, by rw [Block.text, hfirst, hmore]; rfl, ?_⟩
    simp [Block.rows, hrows, hmoreRows, Row.encode]

theorem Arms.text_rows (hrender : Spells render) (indent : Nat) :
    ∀ arms : List (Placed (Arm (List (Placed Stmt)))), (∀ t ∈ Arms.tokens arms, t.Simple) →
      ∃ text, Arms.text render indent arms = .ok text ∧
        text.chars ending = Row.encodeAll ending (Arms.rows indent arms)
  | [], _ => ⟨[], rfl, rfl⟩
  | ⟨_, ⟨label, body⟩⟩ :: rest, h => by
    obtain ⟨hfirst, hrest⟩ := List.forall_mem_append.mp h
    obtain ⟨hlabel, hbody⟩ := List.forall_mem_append.mp hfirst
    obtain ⟨text, htext, hrows⟩ := Block.text_rows hrender (indent + 1) body hbody
    obtain ⟨more, hmore, hmoreRows⟩ := Arms.text_rows hrender indent rest hrest
    refine ⟨_, by rw [Arms.text, Stmt.labelText_eq hrender (by simpa using hlabel), htext, hmore]; rfl, ?_⟩
    simp [Arms.rows, hrows, hmoreRows]

end

end Writing

/-! Clean rows. -/

theorem Row.Clean.of_spelling {t : Token} (h : t.Simple) {rest : List Char} (hrest : rest.all isLineChar = true)
    (indent : Nat) : (⟨indent, t.spelling ++ rest⟩ : Row).Clean := by
  obtain ⟨c, more, hcons, hc⟩ := h.spelling_cons
  refine ⟨by rw [List.all_append, h.spelling_line, hrest]; rfl, c, more ++ rest, by simp [hcons], ?_⟩
  rintro rfl
  exact hc rfl

theorem Row.Clean.append {lead rest : List Char} {indent : Nat} (h : (⟨indent, lead⟩ : Row).Clean)
    (hrest : rest.all isLineChar = true) : (⟨indent, lead ++ rest⟩ : Row).Clean := by
  obtain ⟨c, more, hcons, hc⟩ := h.start
  refine ⟨by rw [List.all_append, h.line, hrest]; rfl, c, more ++ rest, ?_, hc⟩
  simp only at hcons
  rw [hcons, List.cons_append]

theorem Row.clean_braced {rows : List Row} (indent : Nat) (h : ∀ row ∈ rows, row.Clean) :
    ∀ row ∈ Row.braced indent rows, row.Clean := by
  have hbrace : ∀ c, isLineChar c = true → c ≠ '\t' → (⟨indent, [c]⟩ : Row).Clean :=
    fun c hline htab => ⟨by simp [hline], c, [], rfl, htab⟩
  refine List.forall_mem_cons.mpr ⟨hbrace _ rfl (by decide), List.forall_mem_append.mpr ⟨h, ?_⟩⟩
  exact List.forall_mem_singleton.mpr (hbrace _ rfl (by decide))

theorem Stmt.partChars_line {part : Option (Placed Token)} (h : ∀ t ∈ part.toList.map (·.item), t.Simple) :
    (partChars part).all isLineChar = true := by
  cases part with
  | none => rfl
  | some part =>
    rw [partChars, List.all_append, (h part.item (by simp)).spelling_line]
    rfl

theorem Stmt.header_clean {s : Stmt} (h : ∀ t ∈ s.tokens, t.Simple) (indent : Nat) :
    (⟨indent, s.header⟩ : Row).Clean := by
  have hclosed : ∀ {t : Token}, t.Simple → (t.spelling ++ [' ', ')']).all isLineChar = true := by
    intro t ht
    rw [List.all_append, ht.spelling_line]
    rfl
  cases s with
  | plain token => exact Row.Clean.of_spelling (h token List.mem_cons_self) rfl indent
  | leave => exact ⟨rfl, _, _, rfl, by decide⟩
  | branch condition body otherwise =>
    exact Row.Clean.append ⟨rfl, _, _, rfl, by decide⟩ (hclosed (Stmt.forall_tokens_branch.mp h).1)
  | whileLoop condition =>
    exact Row.Clean.append ⟨rfl, _, _, rfl, by decide⟩ (hclosed (h condition List.mem_cons_self))
  | doUntil => exact ⟨rfl, _, _, rfl, by decide⟩
  | forLoop start condition step =>
    obtain ⟨hparts, -⟩ := List.forall_mem_append.mp h
    obtain ⟨hfirst, hstep⟩ := List.forall_mem_append.mp hparts
    obtain ⟨hstart, hcondition⟩ := List.forall_mem_append.mp hfirst
    refine Row.Clean.append ⟨rfl, _, _, rfl, by decide⟩ ?_
    rw [List.all_append, List.all_append, List.all_append, List.all_append, List.all_append,
      partChars_line hstart, partChars_line hcondition, partChars_line hstep]
    rfl
  | forEach iterator =>
    exact Row.Clean.append ⟨rfl, _, _, rfl, by decide⟩ (h iterator List.mem_cons_self).spelling_line
  | switch subject =>
    exact Row.Clean.append ⟨rfl, _, _, rfl, by decide⟩ (hclosed (h subject List.mem_cons_self))

theorem Stmt.labelChars_clean {label : Option Token} (h : ∀ t ∈ label, t.Simple) (indent : Nat) :
    (⟨indent, labelChars label⟩ : Row).Clean := by
  cases label with
  | none => exact ⟨rfl, _, _, rfl, by decide⟩
  | some value =>
    refine Row.Clean.append ⟨rfl, _, _, rfl, by decide⟩ ?_
    rw [List.all_append, (h value rfl).spelling_line]
    rfl

/-- The rows of a block are clean, when those of its statements are. -/
theorem Block.clean_rows_of {block : Block} (h : ∀ t ∈ Block.tokens block, t.Simple) {indent : Nat}
    (hrows : ∀ e ∈ block, (∀ t ∈ e.item.tokens, t.Simple) → ∀ row ∈ e.item.laterRows indent, row.Clean) :
    ∀ row ∈ Block.rows indent block, row.Clean := by
  induction block with
  | nil => simp [Block.rows]
  | cons e rest ih =>
    obtain ⟨he, hrest⟩ := List.forall_mem_append.mp h
    obtain ⟨hfirst, hmore⟩ := List.forall_mem_cons.mp hrows
    exact List.forall_mem_cons.mpr ⟨Stmt.header_clean he indent,
      List.forall_mem_append.mpr ⟨hfirst he, ih hrest hmore⟩⟩

theorem Arms.clean_rows_of {arms : Arms} (h : ∀ t ∈ Arms.tokens arms, t.Simple) {indent : Nat}
    (hrows : ∀ arm ∈ arms, ∀ e ∈ arm.item.body, (∀ t ∈ e.item.tokens, t.Simple) →
      ∀ row ∈ e.item.laterRows (indent + 1), row.Clean) :
    ∀ row ∈ Arms.rows indent arms, row.Clean := by
  induction arms with
  | nil => simp [Arms.rows]
  | cons arm rest ih =>
    obtain ⟨harm, hrest⟩ := List.forall_mem_append.mp h
    obtain ⟨hlabel, hbody⟩ := List.forall_mem_append.mp harm
    obtain ⟨hfirst, hmore⟩ := List.forall_mem_cons.mp hrows
    refine List.forall_mem_cons.mpr ⟨Stmt.labelChars_clean (by simpa using hlabel) indent, ?_⟩
    exact List.forall_mem_append.mpr ⟨Block.clean_rows_of hbody hfirst, ih hrest hmore⟩

theorem Stmt.clean_laterRows (s : Stmt) : (∀ t ∈ s.tokens, t.Simple) →
    ∀ indent, ∀ row ∈ s.laterRows indent, row.Clean := by
  have hbody : ∀ b : Block, (∀ e ∈ b, (∀ t ∈ e.item.tokens, t.Simple) → ∀ indent,
      ∀ row ∈ e.item.laterRows indent, row.Clean) → (∀ t ∈ Block.tokens b, t.Simple) → ∀ indent,
      ∀ row ∈ Row.braced indent (Block.rows (indent + 1) b), row.Clean :=
    fun b ih hb indent =>
      Row.clean_braced indent (Block.clean_rows_of hb fun e he htokens => ih e he htokens _)
  induction s using Stmt.induction with
  | plain token => simp [Stmt.laterRows]
  | leave => simp [Stmt.laterRows]
  | branch condition body otherwise ih ihother =>
    intro h indent
    obtain ⟨-, hfirst, hother⟩ := Stmt.forall_tokens_branch.mp h
    cases otherwise with
    | none => exact hbody body ih hfirst indent
    | some o =>
      obtain ⟨jump, others⟩ := o
      rw [Stmt.laterRows_otherwise]
      refine List.forall_mem_append.mpr ⟨hbody body ih hfirst indent, ?_⟩
      have hothers := hother _ rfl
      have ihothers := ihother _ rfl
      unfold Block.elseRows
      split
      · next there c b o =>
        have hbranch : ∀ t ∈ (Stmt.branch c b o).tokens, t.Simple := by simpa [Block.tokens] using hothers
        refine List.forall_mem_cons.mpr ⟨?_, ihothers ⟨there, .branch c b o⟩ (by simp) hbranch indent⟩
        exact Row.Clean.append ⟨rfl, _, _, rfl, by decide⟩ (Stmt.header_clean hbranch indent).line
      · exact List.forall_mem_cons.mpr ⟨⟨rfl, _, _, rfl, by decide⟩, hbody others ihothers hothers indent⟩
  | whileLoop condition body back ih =>
    exact fun h indent => hbody body ih (List.forall_mem_cons.mp h).2 indent
  | doUntil condition body ih =>
    intro h indent
    obtain ⟨hfirst, hcondition⟩ := List.forall_mem_append.mp h
    refine List.forall_mem_append.mpr ⟨hbody body ih hfirst indent, List.forall_mem_singleton.mpr ?_⟩
    refine Row.Clean.append ⟨rfl, _, _, rfl, by decide⟩ ?_
    rw [List.all_append, (hcondition _ List.mem_cons_self).spelling_line]
    rfl
  | forLoop start condition step body back ih =>
    exact fun h indent => hbody body ih (List.forall_mem_append.mp h).2 indent
  | forEach iterator body next last ih =>
    exact fun h indent => hbody body ih (List.forall_mem_cons.mp h).2 indent
  | switch subject arms ih =>
    intro h indent
    refine Row.clean_braced indent (Arms.clean_rows_of (List.forall_mem_cons.mp h).2 ?_)
    exact fun arm harm e he htokens => ih arm harm e he htokens _

theorem Block.clean_rows {block : Block} (h : ∀ t ∈ Block.tokens block, t.Simple) (indent : Nat) :
    ∀ row ∈ Block.rows indent block, row.Clean :=
  Block.clean_rows_of h fun e _ htokens => e.item.clean_laterRows htokens indent

end ScriptLift
