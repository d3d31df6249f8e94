import Mathlib
import ScriptLift.Script.Expression

/- Reading an expression back from its text.

   The expressions here are those made of local variables, calls, integers and binary
   operations (`Token.Simple`). Their text is cut without looking ahead: the first
   character tells an operand in parentheses from a number and from a name, a name and a
   number go as far as their characters go, and only a blank with an operator behind it
   continues an expression. So a text starts with at most one expression, when what
   follows it ends one (`Token.Simple.spelling_inj`). -/
namespace ScriptLift

/-! Cutting a text. -/

theorem takeWhile_append_cut {p : Char → Bool} {a b : List Char} (ha : ∀ c ∈ a, p c = true)
    (hb : ∀ c ∈ b.head?, p c = false) : (a ++ b).takeWhile p = a := by
  rw [List.takeWhile_append_of_pos ha]
  cases b with
  | nil => simp
  | cons c b => simp [hb c (by simp)]

/-- A text is cut in one way into characters of a kind and a rest that does not start with
one of them. -/
theorem append_cut_inj {p : Char → Bool} {a a' b b' : List Char} (ha : ∀ c ∈ a, p c = true)
    (ha' : ∀ c ∈ a', p c = true) (hb : ∀ c ∈ b.head?, p c = false) (hb' : ∀ c ∈ b'.head?, p c = false)
    (h : a ++ b = a' ++ b') : a = a' ∧ b = b' := by
  have hfront : a = a' := by rw [← takeWhile_append_cut ha hb, ← takeWhile_append_cut ha' hb', h]
  subst hfront
  exact ⟨rfl, List.append_cancel_left h⟩

/-! Names, operators and numbers. -/

/-- The words that statements start with or are divided by. -/
def keywords : List String :=
  ["if", "else", "while", "do", "until", "for", "ForEach", "switch", "case", "default", "break"]

def isWordStart (c : Char) : Bool := c.isAlpha || c == '_'

def isWordChar (c : Char) : Bool := c.isAlphanum || c == '_'

/-- A word that is no keyword. -/
def isIdentifier (name : String) : Bool :=
  (match name.toList with
    | [] => false
    | c :: rest => isWordStart c && rest.all isWordChar) && !keywords.contains name

/-- Operators are written between blanks, so they have none, and nothing that divides or ends
an expression. -/
def isOperatorChar (c : Char) : Bool := c ∉ [' ', '\t', '\r', '\n', '(', ')', ',', ';']

def isOperator (op : String) : Bool := !op.toList.isEmpty && op.toList.all isOperatorChar

def isNumberChar (c : Char) : Bool := c.isDigit || c == '-'

/-- The characters that stand in one line. -/
def isLineChar (c : Char) : Bool := c != '\r' && c != '\n'

/-- The word at the start of a text. -/
def leadingWord (text : List Char) : List Char := text.takeWhile isWordChar

/-- The expressions made of local variables, calls, integers and binary operations. -/
inductive Token.Simple : Token → Prop where
  | localVariable {name : String} (h : isIdentifier name = true) : Simple (.localVariable name)
  | intConst (value : Int32) : Simple (.intConst value)
  | call {name : String} {params : List Token} (h : isIdentifier name = true)
      (hparams : ∀ t ∈ params, Simple t) : Simple (.call name params)
  | binary {op : String} {lhs rhs : Token} (h : isOperator op = true) (hlhs : Simple lhs)
      (hrhs : Simple rhs) : Simple (.binary op lhs rhs)

theorem isWordChar_of_isWordStart {c : Char} (h : isWordStart c = true) : isWordChar c = true := by
  unfold isWordStart isWordChar at *
  simp only [Char.isAlphanum, Bool.or_eq_true] at *
  tauto

section Identifiers
variable {name : String} (h : isIdentifier name = true)

include h

theorem isIdentifier_cons : ∃ c rest, name.toList = c :: rest ∧ isWordStart c = true := by
  unfold isIdentifier at h
  split at h
  · simp at h
  · next c rest heq =>
    simp only [Bool.and_eq_true] at h
    exact ⟨c, rest, heq, h.1.1⟩

theorem isIdentifier_word : ∀ c ∈ name.toList, isWordChar c = true := by
  unfold isIdentifier at h
  split at h
  · simp at h
  · next c rest heq =>
    simp only [Bool.and_eq_true, List.all_eq_true] at h
    rw [heq]
    exact List.forall_mem_cons.mpr ⟨isWordChar_of_isWordStart h.1.1, h.1.2⟩

theorem isIdentifier_not_keyword : name ∉ keywords := by
  unfold isIdentifier at h
  simpa using (Bool.and_eq_true_iff.mp h).2

end Identifiers

theorem isOperator_cons {op : String} (h : isOperator op = true) :
    ∃ c rest, op.toList = c :: rest ∧ isOperatorChar c = true := by
  unfold isOperator at h
  cases hop : op.toList with
  | nil => simp [hop] at h
  | cons c rest =>
    simp only [hop, List.all_cons, Bool.and_eq_true] at h
    exact ⟨c, rest, rfl, h.2.1⟩

theorem isOperator_all {op : String} (h : isOperator op = true) :
    ∀ c ∈ op.toList, isOperatorChar c = true :=
  List.all_eq_true.mp (Bool.and_eq_true_iff.mp h).2

theorem isNumberChar_repr (n : Int) : ∀ c ∈ n.repr.toList, isNumberChar c = true := by
  have hdigits : ∀ m : Nat, ∀ c ∈ m.repr.toList, isNumberChar c = true := by
    intro m c hc
    rw [Nat.repr_eq_ofList_toDigits, String.toList_ofList] at hc
    simp [isNumberChar, Nat.isDigit_of_mem_toDigits (by decide) (by decide) hc]
  cases n with
  | ofNat m => exact hdigits m
  | negSucc m =>
    have hrepr : (Int.negSucc m).repr.toList = '-' :: (m + 1).repr.toList := by
      simp [Int.repr]
    rw [hrepr]
    exact List.forall_mem_cons.mpr ⟨rfl, hdigits (m + 1)⟩

theorem repr_ne_nil (n : Int) : n.repr.toList ≠ [] := by
  cases n with
  | ofNat m => simp [Int.repr, Nat.repr_eq_ofList_toDigits, Nat.toDigits_ne_nil]
  | negSucc m => simp [Int.repr]

/-! The text of an expression. -/

namespace Token

/-- A binary operation as an operand is put in parentheses. -/
def enclosed : Token → List Char → List Char
  | .binary _ _ _, text => '(' :: (text ++ [')'])
  | _, text => text

mutual

/-- The characters of an expression. -/
def spelling : Token → List Char
  | .localVariable name => name.toList
  | .intConst value => value.toInt.repr.toList
  | .call name params => name.toList ++ '(' :: (argumentSpelling params ++ [')'])
  | .binary op lhs rhs =>
    enclosed lhs (spelling lhs) ++ ' ' :: (op.toList ++ ' ' :: enclosed rhs (spelling rhs))
  | _ => []

def argumentSpelling : List Token → List Char
  | [] => []
  | t :: ts => spelling t ++ laterSpelling ts

/-- The arguments behind the first. -/
def laterSpelling : List Token → List Char
  | [] => []
  | t :: ts => ',' :: ' ' :: (spelling t ++ laterSpelling ts)

end

/-- The characters of an operand. -/
def operand (t : Token) : List Char := enclosed t (spelling t)

theorem toList_parenthesized (t : Token) (text : String) :
    (parenthesized t text).toList = enclosed t text.toList := by
  unfold parenthesized enclosed
  split <;> simp

theorem intercalate_spelling (params : List Token) :
    [',', ' '].intercalate (params.map spelling) = argumentSpelling params := by
  have hlater : ∀ t ts, [',', ' '].intercalate ((t :: ts).map spelling) = spelling t ++ laterSpelling ts := by
    intro t ts
    induction ts generalizing t with
    | nil => simp [laterSpelling]
    | cons u ts ih =>
      have hrest := ih u
      simp only [List.map_cons] at hrest ⊢
      rw [List.intercalate_cons_cons, hrest]
      simp [laterSpelling]
  cases params with
  | nil => rfl
  | cons t ts => exact hlater t ts

/-- An expression is written as it is spelled. -/
theorem Simple.render_eq {t : Token} (h : t.Simple) (link : Reference → Except Error String) :
    t.render link = .ok (String.ofList t.spelling) := by
  induction h with
  | localVariable => simp [render, spelling]; rfl
  | intConst => simp [render, spelling]; rfl
  | @call name params hname hparams ih =>
    have hlist : renderList link params = .ok (params.map fun t => String.ofList t.spelling) := by
      clear hparams
      induction params with
      | nil => rfl
      | cons t ts ihts =>
        rw [renderList, ih t (by simp), ihts fun u hu => ih u (by simp [hu])]
        rfl
    rw [render, hlist]
    refine congrArg Except.ok (String.toList_inj.mp ?_)
    simp [spelling, ← intercalate_spelling, String.toList_intercalate, Function.comp_def]
  | @binary op lhs rhs hop hlhs hrhs ihl ihr =>
    rw [render, ihl, ihr]
    refine congrArg Except.ok (String.toList_inj.mp ?_)
    simp [spelling, toList_parenthesized]

/-! The first character of an expression. -/

/-- What an operand starts with: a parenthesis, a name or a number. -/
inductive Opening where
  | parenthesis
  | word
  | number
deriving DecidableEq

def Opening.of (c : Char) : Option Opening :=
  if c = '(' then some .parenthesis
  else if isWordStart c then some .word
  else if isNumberChar c then some .number
  else none

def opening : Token → Opening
  | .binary _ _ _ => .parenthesis
  | .intConst _ => .number
  | _ => .word

theorem Opening.of_isWordStart {c : Char} (h : isWordStart c = true) : Opening.of c = some .word := by
  have hne : c ≠ '(' := by rintro rfl; exact absurd h (by decide)
  rw [Opening.of, if_neg hne, if_pos h]

theorem Opening.of_isNumberChar {c : Char} (h : isNumberChar c = true) :
    Opening.of c = some .number := by
  have hne : c ≠ '(' := by rintro rfl; exact absurd h (by decide)
  have hword : ¬ isWordStart c = true := by
    intro hstart
    simp only [isNumberChar, isWordStart, Bool.or_eq_true, beq_iff_eq] at h hstart
    rcases h with h | rfl
    · rcases hstart with hstart | rfl
      · simp [Char.isDigit, Char.isAlpha, Char.isUpper, Char.isLower, UInt32.le_iff_toNat_le] at h hstart
        omega
      · exact absurd h (by decide)
    · exact absurd hstart (by decide)
  rw [Opening.of, if_neg hne, if_neg hword, if_pos h]

theorem Simple.operand_cons {t : Token} (h : t.Simple) :
    ∃ c rest, t.operand = c :: rest ∧ Opening.of c = some t.opening := by
  cases h with
  | localVariable hname =>
    obtain ⟨c, rest, heq, hc⟩ := isIdentifier_cons hname
    exact ⟨c, rest, heq, Opening.of_isWordStart hc⟩
  | intConst value =>
    obtain ⟨c, rest, heq⟩ := List.exists_cons_of_ne_nil (repr_ne_nil value.toInt)
    have hc := isNumberChar_repr value.toInt c (by simp [heq])
    exact ⟨c, rest, heq, Opening.of_isNumberChar hc⟩
  | @call name params hname hparams =>
    obtain ⟨c, rest, heq, hc⟩ := isIdentifier_cons hname
    exact ⟨c, rest ++ '(' :: (argumentSpelling params ++ [')']), by simp [operand, enclosed, spelling, heq],
      Opening.of_isWordStart hc⟩
  | binary => exact ⟨'(', _, rfl, rfl⟩

theorem operand_call_append (name : String) (params : List Token) (rest : List Char) :
    (Token.call name params).operand ++ rest =
      name.toList ++ '(' :: (argumentSpelling params ++ ')' :: rest) := by
  simp [operand, enclosed, spelling]

theorem operand_binary_append (op : String) (lhs rhs : Token) (rest : List Char) :
    (Token.binary op lhs rhs).operand ++ rest =
      '(' :: ((Token.binary op lhs rhs).spelling ++ ')' :: rest) := by
  simp [operand, enclosed]

theorem spelling_binary_append (op : String) (lhs rhs : Token) (rest : List Char) :
    (Token.binary op lhs rhs).spelling ++ rest =
      lhs.operand ++ ' ' :: (op.toList ++ ' ' :: (rhs.operand ++ rest)) := by
  simp [spelling, operand]

theorem operand_eq_spelling {t : Token} (h : ∀ op lhs rhs, t ≠ .binary op lhs rhs) :
    t.operand = t.spelling := by
  unfold operand enclosed
  split
  · exact absurd rfl (h _ _ _)
  · rfl

/-! Reading back. -/

/-- The characters that end an operand. -/
def stopChars : List Char := [' ', ',', ')', ':', ';']

/-- What may follow an operand: nothing, or a character that ends it. -/
def Stops (rest : List Char) : Prop := ∀ c ∈ rest.head?, c ∈ stopChars

/-- What may follow an expression: the same, but no operator. -/
structure Ends (rest : List Char) : Prop where
  stops : Stops rest
  noOperator : ∀ c more, rest = ' ' :: c :: more → isOperatorChar c = false

theorem stops_nil : Stops [] := by simp [Stops]

theorem stops_cons {c : Char} (h : c ∈ stopChars) (rest : List Char) : Stops (c :: rest) := by
  intro x hx
  obtain rfl : c = x := by simpa using hx
  exact h

theorem Stops.not_word {rest : List Char} (h : Stops rest) : ∀ c ∈ rest.head?, isWordChar c = false := by
  have hchars : ∀ c ∈ stopChars, isWordChar c = false := by simp [stopChars]; decide
  exact fun c hc => hchars c (h c hc)

theorem Stops.not_number {rest : List Char} (h : Stops rest) :
    ∀ c ∈ rest.head?, isNumberChar c = false := by
  have hchars : ∀ c ∈ stopChars, isNumberChar c = false := by simp [stopChars]; decide
  exact fun c hc => hchars c (h c hc)

theorem head_cons_false {p : Char → Bool} {c : Char} (h : p c = false) (rest : List Char) :
    ∀ x ∈ (c :: rest).head?, p x = false := by
  intro x hx
  obtain rfl : c = x := by simpa using hx
  exact h

theorem ends_nil : Ends [] := ⟨stops_nil, by simp⟩

theorem ends_cons {c : Char} (h : c ∈ stopChars) (hblank : c ≠ ' ') (rest : List Char) :
    Ends (c :: rest) := by
  refine ⟨stops_cons h rest, ?_⟩
  rintro x more ⟨⟩
  exact absurd rfl hblank

/-- An expression starts with an operand that ends there. -/
theorem Simple.exists_operand {t : Token} (h : t.Simple) {rest : List Char} (hrest : Stops rest) :
    ∃ (first : Token) (more : List Char), first.Simple ∧ Stops more ∧
      t.spelling ++ rest = first.operand ++ more := by
  by_cases hbinary : ∃ op lhs rhs, t = .binary op lhs rhs
  · obtain ⟨op, lhs, rhs, rfl⟩ := hbinary
    cases h with
    | binary hop hlhs hrhs => exact ⟨lhs, _, hlhs, stops_cons (by decide) _, spelling_binary_append ..⟩
  · exact ⟨t, rest, h, hrest,
      by rw [operand_eq_spelling fun op lhs rhs heq => hbinary ⟨op, lhs, rhs, heq⟩]⟩

theorem Simple.spelling_cons {t : Token} (h : t.Simple) :
    ∃ c rest, t.spelling = c :: rest ∧ Opening.of c ≠ none := by
  obtain ⟨first, more, hfirst, -, heq⟩ := h.exists_operand stops_nil
  obtain ⟨c, rest, hcons, hc⟩ := hfirst.operand_cons
  exact ⟨c, rest ++ more, by simpa [hcons] using heq, by simp [hc]⟩

/-- Two texts that start with an operand, `t` in the one, start with the same. -/
def ReadsOperand (t : Token) : Prop :=
  ∀ t' : Token, t'.Simple → ∀ {rest rest' : List Char}, Stops rest → Stops rest' →
    t.operand ++ rest = t'.operand ++ rest' → t = t' ∧ rest = rest'

/-- Two texts that start with an expression, `t` in the one, start with the same. -/
def Reads (t : Token) : Prop :=
  ∀ t' : Token, t'.Simple → ∀ {rest rest' : List Char}, Ends rest → Ends rest' →
    t.spelling ++ rest = t'.spelling ++ rest' → t = t' ∧ rest = rest'

/-- An operation goes on where an expression would end. -/
theorem not_ends_operator {op : String} (h : isOperator op = true) (rest : List Char) :
    ¬ Ends (' ' :: (op.toList ++ rest)) := by
  obtain ⟨c, more, hop, hc⟩ := isOperator_cons h
  intro hends
  have hnone := hends.noOperator c (more ++ rest) (by simp [hop])
  simp [hc] at hnone

theorem ends_laterSpelling (ts : List Token) (rest : List Char) : Ends (laterSpelling ts ++ ')' :: rest) := by
  cases ts with
  | nil => exact ends_cons (by decide) (by decide) rest
  | cons t ts => exact ends_cons (by decide) (by decide) _

section Arguments
variable {params params' : List Token} {rest rest' : List Char}

theorem reads_laterSpelling (hreads : ∀ t ∈ params, Reads t) (hparams' : ∀ t ∈ params', Simple t)
    (h : laterSpelling params ++ ')' :: rest = laterSpelling params' ++ ')' :: rest') :
    params = params' ∧ rest = rest' := by
  induction params generalizing params' with
  | nil =>
    cases params' with
    | nil => simpa [laterSpelling] using h
    | cons t' ts' => simp [laterSpelling] at h
  | cons t ts ih =>
    cases params' with
    | nil => simp [laterSpelling] at h
    | cons t' ts' =>
      simp only [laterSpelling, List.cons_append, List.append_assoc, List.cons.injEq, true_and] at h
      obtain ⟨rfl, hlater⟩ := hreads t (by simp) t' (hparams' t' (by simp)) (ends_laterSpelling ts rest)
        (ends_laterSpelling ts' rest') h
      obtain ⟨rfl, hrest⟩ := ih (fun u hu => hreads u (by simp [hu])) (fun u hu => hparams' u (by simp [hu]))
        hlater
      exact ⟨rfl, hrest⟩

/-- The arguments of a call are read back, when each of them is. -/
theorem reads_argumentSpelling (hparams : ∀ t ∈ params, Simple t) (hreads : ∀ t ∈ params, Reads t)
    (hparams' : ∀ t ∈ params', Simple t)
    (h : argumentSpelling params ++ ')' :: rest = argumentSpelling params' ++ ')' :: rest') :
    params = params' ∧ rest = rest' := by
  have hopen : ∀ {t : Token} (x y : List Char), t.Simple → ')' :: x ≠ t.spelling ++ y := by
    intro t x y ht heq
    obtain ⟨c, more, hcons, hc⟩ := ht.spelling_cons
    obtain ⟨rfl, -⟩ : ')' = c ∧ x = more ++ y := by simpa [hcons] using heq
    exact hc rfl
  cases params with
  | nil =>
    cases params' with
    | nil => simpa [argumentSpelling] using h
    | cons t' ts' =>
      rw [argumentSpelling, argumentSpelling, List.append_assoc] at h
      exact absurd h (hopen _ _ (hparams' t' (by simp)))
  | cons t ts =>
    cases params' with
    | nil =>
      rw [argumentSpelling, argumentSpelling, List.append_assoc] at h
      exact absurd h.symm (hopen _ _ (hparams t (by simp)))
    | cons t' ts' =>
      rw [argumentSpelling, argumentSpelling, List.append_assoc, List.append_assoc] at h
      obtain ⟨rfl, hlater⟩ := hreads t (by simp) t' (hparams' t' (by simp)) (ends_laterSpelling ts rest)
        (ends_laterSpelling ts' rest') h
      obtain ⟨rfl, hrest⟩ := reads_laterSpelling (fun u hu => hreads u (by simp [hu]))
        (fun u hu => hparams' u (by simp [hu])) hlater
      exact ⟨rfl, hrest⟩

end Arguments

/-- Operands that start alike are of one kind. -/
theorem opening_eq {t t' : Token} (ht : t.Simple) (ht' : t'.Simple) {rest rest' : List Char}
    (h : t.operand ++ rest = t'.operand ++ rest') : t.opening = t'.opening := by
  obtain ⟨c, more, hcons, hc⟩ := ht.operand_cons
  obtain ⟨c', more', hcons', hc'⟩ := ht'.operand_cons
  obtain ⟨rfl, -⟩ : c = c' ∧ more ++ rest = more' ++ rest' := by simpa [hcons, hcons'] using h
  exact Option.some.inj (hc.symm.trans hc')

/-- A name is read back from what stands behind it on both sides. -/
theorem name_inj {name name' : String} {rest rest' : List Char} (h : isIdentifier name = true)
    (h' : isIdentifier name' = true) (hrest : ∀ c ∈ rest.head?, isWordChar c = false)
    (hrest' : ∀ c ∈ rest'.head?, isWordChar c = false)
    (heq : name.toList ++ rest = name'.toList ++ rest') : name = name' ∧ rest = rest' := by
  obtain ⟨hname, hmore⟩ := append_cut_inj (isIdentifier_word h) (isIdentifier_word h') hrest hrest' heq
  exact ⟨String.toList_inj.mp hname, hmore⟩

section Operands
variable {t : Token}

/-- What is read back as an operand is read back as an expression, when it is no operation. -/
theorem ReadsOperand.reads (h : ReadsOperand t) (ht : ∀ op lhs rhs, t ≠ .binary op lhs rhs) : Reads t := by
  intro t' ht' rest rest' hrest hrest' heq
  rw [← operand_eq_spelling ht] at heq
  by_cases hbinary : ∃ op lhs rhs, t' = .binary op lhs rhs
  · obtain ⟨op, lhs, rhs, rfl⟩ := hbinary
    cases ht' with
    | binary hop hlhs hrhs =>
      rw [spelling_binary_append] at heq
      obtain ⟨-, rfl⟩ := h _ hlhs hrest.stops (stops_cons (by decide) _) heq
      exact absurd hrest (not_ends_operator hop _)
  · rw [← operand_eq_spelling fun op lhs rhs heq => hbinary ⟨op, lhs, rhs, heq⟩] at heq
    exact h _ ht' hrest.stops hrest'.stops heq

theorem readsOperand_localVariable {name : String} (h : isIdentifier name = true) :
    ReadsOperand (.localVariable name) := by
  intro t' ht' rest rest' hrest hrest' heq
  have hopening := opening_eq (.localVariable h) ht' heq
  cases ht' with
  | localVariable h' =>
    obtain ⟨rfl, hmore⟩ := name_inj h h' hrest.not_word hrest'.not_word heq
    exact ⟨rfl, hmore⟩
  | @call name' params h' =>
    -- A parenthesis behind the name makes it a call.
    rw [operand_call_append] at heq
    obtain ⟨-, rfl⟩ := name_inj h h' hrest.not_word (head_cons_false rfl _) heq
    exact absurd (hrest '(' rfl) (by decide)
  | intConst | binary => simp [opening] at hopening

theorem readsOperand_intConst (value : Int32) : ReadsOperand (.intConst value) := by
  intro t' ht' rest rest' hrest hrest' heq
  have hopening := opening_eq (.intConst value) ht' heq
  cases ht' with
  | intConst value' =>
    obtain ⟨hvalue, hmore⟩ := append_cut_inj (isNumberChar_repr value.toInt)
      (isNumberChar_repr value'.toInt) hrest.not_number hrest'.not_number heq
    exact ⟨by rw [Int32.toInt_inj.mp (Int.repr_injective (String.toList_inj.mp hvalue))], hmore⟩
  | localVariable | call | binary => simp [opening] at hopening

theorem readsOperand_call {name : String} {params : List Token} (h : isIdentifier name = true)
    (hparams : ∀ t ∈ params, Simple t) (hreads : ∀ t ∈ params, Reads t) :
    ReadsOperand (.call name params) := by
  intro t' ht' rest rest' hrest hrest' heq
  have hopening := opening_eq (.call h hparams) ht' heq
  rw [operand_call_append] at heq
  cases ht' with
  | localVariable h' =>
    obtain ⟨-, rfl⟩ := name_inj h h' (head_cons_false rfl _) hrest'.not_word heq
    have hparenthesis := hrest' '(' rfl
    exact absurd hparenthesis (by decide)
  | call h' hparams' =>
    rw [operand_call_append] at heq
    obtain ⟨rfl, hmore⟩ := name_inj h h' (head_cons_false rfl _) (head_cons_false rfl _) heq
    obtain ⟨rfl, hrest⟩ := reads_argumentSpelling hparams hreads hparams' (List.cons.inj hmore).2
    exact ⟨rfl, hrest⟩
  | intConst | binary => simp [opening] at hopening

theorem reads_binary {op : String} {lhs rhs : Token} (hop : isOperator op = true)
    (hlhs : ReadsOperand lhs) (hrhs : ReadsOperand rhs) : Reads (.binary op lhs rhs) := by
  intro t' ht' rest rest' hrest hrest' heq
  rw [spelling_binary_append] at heq
  by_cases hbinary : ∃ op lhs rhs, t' = .binary op lhs rhs
  · obtain ⟨op', lhs', rhs', rfl⟩ := hbinary
    cases ht' with
    | binary hop' hlhs' hrhs' =>
      rw [spelling_binary_append] at heq
      obtain ⟨rfl, hmore⟩ := hlhs _ hlhs' (stops_cons (by decide) _) (stops_cons (by decide) _) heq
      obtain ⟨hops, hright⟩ := append_cut_inj (isOperator_all hop) (isOperator_all hop')
        (head_cons_false rfl _) (head_cons_false rfl _) (List.cons.inj hmore).2
      obtain ⟨rfl, hend⟩ := hrhs _ hrhs' hrest.stops hrest'.stops (List.cons.inj hright).2
      exact ⟨by rw [String.toList_inj.mp hops], hend⟩
  · -- The other text goes on with an operator where its expression should end.
    rw [← operand_eq_spelling fun op lhs rhs heq => hbinary ⟨op, lhs, rhs, heq⟩] at heq
    obtain ⟨-, rfl⟩ := hlhs _ ht' (stops_cons (by decide) _) hrest'.stops heq
    exact absurd hrest' (not_ends_operator hop _)

theorem Reads.operand_binary {op : String} {lhs rhs : Token} (ht : Simple (.binary op lhs rhs))
    (h : Reads (.binary op lhs rhs)) : ReadsOperand (.binary op lhs rhs) := by
  intro t' ht' rest rest' hrest hrest' heq
  have hopening := opening_eq ht ht' heq
  have hends : ∀ x, Ends (')' :: x) := ends_cons (by decide) (by decide)
  cases ht' with
  | binary hop' hlhs' hrhs' =>
    rw [operand_binary_append, operand_binary_append] at heq
    obtain ⟨heqt, hmore⟩ := h _ (.binary hop' hlhs' hrhs') (hends rest) (hends rest') (List.cons.inj heq).2
    exact ⟨heqt, (List.cons.inj hmore).2⟩
  | localVariable | intConst | call => simp [opening] at hopening

end Operands

theorem Simple.reads_and_operand {t : Token} (h : t.Simple) : ReadsOperand t ∧ Reads t := by
  -- An operation is read as an expression first, every other token as an operand first.
  induction h with
  | localVariable h =>
    have hoperand := readsOperand_localVariable h
    exact ⟨hoperand, hoperand.reads (by simp)⟩
  | intConst value =>
    have hoperand := readsOperand_intConst value
    exact ⟨hoperand, hoperand.reads (by simp)⟩
  | call h hparams ih =>
    have hoperand := readsOperand_call h hparams fun t ht => (ih t ht).2
    exact ⟨hoperand, hoperand.reads (by simp)⟩
  | binary hop hlhs hrhs ihl ihr =>
    have hreads := reads_binary hop ihl.1 ihr.1
    exact ⟨hreads.operand_binary (.binary hop hlhs hrhs), hreads⟩

/-- A text starts with at most one expression that ends there. -/
theorem Simple.spelling_inj {t t' : Token} (h : t.Simple) (h' : t'.Simple) {rest rest' : List Char}
    (hrest : Ends rest) (hrest' : Ends rest') (heq : t.spelling ++ rest = t'.spelling ++ rest') :
    t = t' ∧ rest = rest' :=
  h.reads_and_operand.2 t' h' hrest hrest' heq

/-! The first word of an expression. -/

theorem keyword_cons {keyword : String} (h : keyword ∈ keywords) :
    ∃ c rest, keyword.toList = c :: rest ∧ isWordStart c = true := by
  simp only [keywords, List.mem_cons, List.not_mem_nil, or_false] at h
  rcases h with rfl | rfl | rfl | rfl | rfl | rfl | rfl | rfl | rfl | rfl | rfl <;>
    exact ⟨_, _, rfl, by decide⟩

/-- No expression starts with a keyword. -/
theorem Simple.leadingWord_ne {t : Token} (h : t.Simple) {rest : List Char} (hrest : Stops rest)
    {keyword : String} (hkeyword : keyword ∈ keywords) :
    leadingWord (t.spelling ++ rest) ≠ keyword.toList := by
  obtain ⟨first, more, hfirst, hmore, heq⟩ := h.exists_operand hrest
  obtain ⟨c, others, hcons, hc⟩ := hfirst.operand_cons
  have hname : ∀ {name : String} {x : List Char}, isIdentifier name = true →
      (∀ c ∈ x.head?, isWordChar c = false) → leadingWord (name.toList ++ x) ≠ keyword.toList := by
    intro name x hname hx hword
    rw [leadingWord, takeWhile_append_cut (isIdentifier_word hname) hx] at hword
    exact isIdentifier_not_keyword hname (String.toList_inj.mp hword ▸ hkeyword)
  -- A keyword starts with a letter, but neither a number nor a parenthesis does.
  have hstart : first.opening ≠ .word → leadingWord (first.operand ++ more) ≠ keyword.toList := by
    intro hne hword
    obtain ⟨k, ks, hk, hletter⟩ := keyword_cons hkeyword
    rw [hcons, hk, leadingWord, List.cons_append, List.takeWhile_cons] at hword
    split at hword
    · obtain ⟨rfl, -⟩ := List.cons.inj hword
      rw [Opening.of_isWordStart hletter] at hc
      exact hne (Option.some.inj hc).symm
    · simp at hword
  rw [heq]
  cases hfirst with
  | localVariable hident => exact hname hident hmore.not_word
  | call hident =>
    rw [operand_call_append]
    exact hname hident (head_cons_false rfl _)
  | intConst | binary => exact hstart (by simp [opening])

/-! Lines. -/

theorem all_isLineChar {p : Char → Bool} (hcr : p '\r' = false) (hlf : p '\n' = false) {text : List Char}
    (h : ∀ c ∈ text, p c = true) : text.all isLineChar = true := by
  refine List.all_eq_true.mpr fun c hc => ?_
  have hne : ∀ d, p d = false → c ≠ d := by
    rintro d hd rfl
    exact absurd (h c hc) (by simp [hd])
  simp [isLineChar, hne _ hcr, hne _ hlf]

theorem laterSpelling_line {ts : List Token} (h : ∀ t ∈ ts, t.spelling.all isLineChar = true) :
    (laterSpelling ts).all isLineChar = true := by
  induction ts with
  | nil => rfl
  | cons t ts ih =>
    have hblank : isLineChar ',' = true ∧ isLineChar ' ' = true := ⟨rfl, rfl⟩
    simp [laterSpelling, hblank, h t (by simp), ih fun u hu => h u (by simp [hu])]

theorem argumentSpelling_line {ts : List Token} (h : ∀ t ∈ ts, t.spelling.all isLineChar = true) :
    (argumentSpelling ts).all isLineChar = true := by
  cases ts with
  | nil => rfl
  | cons t ts =>
    rw [argumentSpelling, List.all_append, h t (by simp), laterSpelling_line fun u hu => h u (by simp [hu])]
    rfl

theorem enclosed_line (t : Token) {text : List Char} (h : text.all isLineChar = true) :
    (enclosed t text).all isLineChar = true := by
  unfold enclosed
  split
  · rw [List.all_cons, List.all_append, h]
    rfl
  · exact h

/-- An expression is written in one line. -/
theorem Simple.spelling_line {t : Token} (h : t.Simple) : t.spelling.all isLineChar = true := by
  induction h with
  | localVariable h => exact all_isLineChar rfl rfl (isIdentifier_word h)
  | intConst value => exact all_isLineChar rfl rfl (isNumberChar_repr _)
  | @call name params h hparams ih =>
    rw [spelling, List.all_append, List.all_cons, List.all_append, argumentSpelling_line ih,
      all_isLineChar rfl rfl (isIdentifier_word h)]
    rfl
  | @binary op lhs rhs hop hlhs hrhs ihl ihr =>
    rw [spelling, List.all_append, List.all_cons, List.all_append, List.all_cons, enclosed_line lhs ihl,
      enclosed_line rhs ihr, all_isLineChar rfl rfl (isOperator_all hop)]
    rfl

end Token

end ScriptLift
