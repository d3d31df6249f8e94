import ScriptLift.Command.Listing
import ScriptLift.Command.Summary
import ScriptLift.Proofs.BranchExit

/- When a function has no source text.

   The text of a token fails with the first of its references that fails
   (`Token.failure_render`), the text of a tree with the first of its tokens
   (`Block.failure_text`). Each token of a regrouped tree is an instruction or the one
   operand of an instruction (`Block.heldIn_ofBody`), so it holds the references of that
   instruction. A function therefore has no text only where one of its instructions has
   none, for the same reason. -/
namespace ScriptLift

/-! Failures. -/

/-- The error of a computation that fails. -/
def failure {α : Type} : Except Error α → Option Error
  | .ok _ => none
  | .error e => some e

section Failures
variable {α β γ : Type} {x : Except Error α} {e : Error}

theorem failure_eq_some : failure x = some e ↔ x = .error e := by cases x <;> simp [failure]

theorem failure_eq_none : failure x = none ↔ ∃ a, x = .ok a := by cases x <;> simp [failure]

@[simp] theorem failure_pure (a : α) : failure (pure a : Except Error α) = none := rfl

/-- A computation fails where its first step does, and else where the others do. -/
theorem failure_bind {f : α → Except Error β} {o : Option Error} (h : ∀ a, failure (f a) = o) :
    failure (x >>= f) = (failure x).or o := by
  cases x with
  | ok a => exact h a
  | error e => rfl

theorem failure_bind_pure (f : α → β) : failure (x >>= fun a => pure (f a)) = failure x := by
  rw [failure_bind fun a => failure_pure (f a), Option.or_none]

theorem failure_bind_bind_pure {y : Except Error β} (f : α → β → γ) :
    failure (x >>= fun a => y >>= fun b => pure (f a b)) = (failure x).or (failure y) :=
  failure_bind fun a => failure_bind_pure (f a)

/-- The first failure in a list of computations. -/
def firstFailure (f : α → Except Error β) (xs : List α) : Option Error :=
  xs.findSome? fun x => failure (f x)

variable {f : α → Except Error β}

@[simp] theorem firstFailure_nil : firstFailure f [] = none := rfl

@[simp] theorem firstFailure_cons (x : α) (xs : List α) :
    firstFailure f (x :: xs) = (failure (f x)).or (firstFailure f xs) := by
  unfold firstFailure
  rw [List.findSome?_cons]
  cases failure (f x) <;> rfl

@[simp] theorem firstFailure_append (xs ys : List α) :
    firstFailure f (xs ++ ys) = (firstFailure f xs).or (firstFailure f ys) :=
  List.findSome?_append

theorem exists_of_firstFailure {xs : List α} (h : firstFailure f xs = some e) :
    ∃ x ∈ xs, failure (f x) = some e :=
  List.exists_of_findSome?_eq_some h

theorem firstFailure_eq_none {xs : List α} :
    firstFailure f xs = none ↔ ∀ x ∈ xs, failure (f x) = none := List.findSome?_eq_none_iff

end Failures

/-! The references of a token. -/

namespace Token

mutual

/-- The references that the text of a token holds, in order: all but those in the value of
the label of a default. -/
def references : Token → List Reference
  | .objectConst r => [r]
  | .assign lhs rhs => lhs.references ++ rhs.references
  | .context object member => object.references ++ member.references
  | .element array index => array.references ++ index.references
  | .call _ params => listReferences params
  | .globalCall _ params => listReferences params
  | .binary _ lhs rhs => lhs.references ++ rhs.references
  | .prefixOp _ operand => operand.references
  | .postfixOp _ operand => operand.references
  | .dynamicCast _ value => value.references
  | .metaCast _ value => value.references
  | .ret value => value.references
  | .jumpIfNot _ condition => condition.references
  | .iterator expression _ => expression.references
  | .switch expression => expression.references
  | .case next (some value) => if next == defaultLink then [] else value.references
  | _ => []

def listReferences : List Token → List Reference
  | [] => []
  | t :: ts => t.references ++ listReferences ts

end

mutual

/-- The text of a token fails with the first of its references that fails. -/
theorem failure_render (link : Reference → Except Error String) : ∀ t : Token,
    failure (t.render link) = firstFailure link t.references
  | .objectConst r => by simp [render, references]
  | .assign lhs rhs | .context lhs rhs | .element lhs rhs | .binary _ lhs rhs => by
    rw [references, firstFailure_append, ← failure_render link lhs, ← failure_render link rhs, render]
    exact failure_bind_bind_pure _
  | .call _ params | .globalCall _ params => by
    rw [references, ← failure_renderList link params, render]
    exact failure_bind_pure _
  | .prefixOp _ operand | .postfixOp _ operand | .dynamicCast _ operand | .metaCast _ operand
  | .jumpIfNot _ operand | .iterator operand _ | .switch operand => by
    rw [references, ← failure_render link operand, render]
    exact failure_bind_pure _
  | .ret value => by
    by_cases hvalue : value = .nothing
    · subst hvalue
      rfl
    · rw [references, ← failure_render link value, render]
      · exact failure_bind_pure _
      · exact hvalue
  | .case next (some value) => by
    rw [references, render]
    split
    · rfl
    · rw [← failure_render link value]
      exact failure_bind_pure _
  | .case _ none | .localVariable _ | .instanceVariable _ | .defaultVariable _ | .selfObject | .noObject
  | .nothing | .intConst _ | .byteConst _ | .floatConst _ | .boolConst true | .boolConst false
  | .stringConst _ | .nameConst _ | .vectorConst _ | .rotatorConst _ _ _ | .stop | .jump _
  | .iteratorNext | .iteratorPop => rfl

theorem failure_renderList (link : Reference → Except Error String) : ∀ ts : List Token,
    failure (renderList link ts) = firstFailure link (listReferences ts)
  | [] => rfl
  | t :: ts => by
    rw [listReferences, firstFailure_append, ← failure_render link t, ← failure_renderList link ts,
      renderList]
    exact failure_bind_bind_pure _

end

end Token

/-! The text of a tree. -/

section Trees
variable (render : Token → Except Error String)

theorem Stmt.failure_headerPart (part : Option (Placed Token)) :
    failure (headerPart render part) = firstFailure render (part.toList.map (·.item)) := by
  cases part with
  | none => rfl
  | some part =>
    rw [headerPart, Option.toList_some, List.map_singleton, firstFailure_cons, firstFailure_nil,
      Option.or_none]
    exact failure_bind_pure _

theorem Stmt.failure_labelText (label : Option Token) :
    failure (labelText render label) = firstFailure render label.toList := by
  cases label with
  | none => rfl
  | some value =>
    rw [labelText, Option.toList_some, firstFailure_cons, firstFailure_nil, Option.or_none]
    exact failure_bind_pure _

/-- A second part that is no statement on its own fails where its block does. -/
theorem Stmt.failure_otherwise {condition : Token} {body others : Block} {jump : UInt32} {indent : Nat}
    (hothers : ∀ there other, others = [⟨there, other⟩] → False)
    (hbody : failure (Block.text render (indent + 1) body) = firstFailure render (Block.tokens body))
    (hmore : failure (Block.text render (indent + 1) others) = firstFailure render (Block.tokens others)) :
    failure ((Stmt.branch condition body (some ⟨jump, others⟩)).text render indent) =
      firstFailure render (Stmt.branch condition body (some ⟨jump, others⟩)).tokens := by
  rw [Stmt.tokens, Stmt.text, firstFailure_cons, firstFailure_append, ← hbody, ← hmore]
  · exact failure_bind fun _ => failure_bind_bind_pure _
  · exact hothers

mutual

theorem Stmt.failure_text (indent : Nat) : ∀ s : Stmt,
    failure (s.text render indent) = firstFailure render s.tokens
  | .plain token => by
    rw [Stmt.tokens, Stmt.text, firstFailure_cons, firstFailure_nil, Option.or_none]
    exact failure_bind_pure _
  | .leave => rfl
  | .branch condition body none => by
    rw [Stmt.tokens, Stmt.text, firstFailure_cons, ← Block.failure_text (indent + 1) body]
    exact failure_bind_bind_pure _
  | .branch condition body (some ⟨_, [⟨there, other⟩]⟩) => by
    have hother : Block.tokens [⟨there, other⟩] = other.tokens := by simp [Block.tokens]
    rw [Stmt.tokens, Stmt.text, firstFailure_cons, firstFailure_append, hother,
      ← Block.failure_text (indent + 1) body]
    refine failure_bind fun _ => failure_bind fun _ => ?_
    split
    · rw [← Stmt.failure_text indent other]
      exact failure_bind_pure _
    · rw [← Stmt.failure_text (indent + 1) other]
      exact failure_bind_pure _
  | .branch condition body (some ⟨_, []⟩) =>
    Stmt.failure_otherwise render (by simp) (Block.failure_text (indent + 1) body)
      (Block.failure_text (indent + 1) [])
  | .branch condition body (some ⟨_, e :: e' :: others⟩) =>
    Stmt.failure_otherwise render (by simp) (Block.failure_text (indent + 1) body)
      (Block.failure_text (indent + 1) (e :: e' :: others))
  | .whileLoop condition body _ | .forEach condition body _ _ => by
    rw [Stmt.tokens, Stmt.text, firstFailure_cons, ← Block.failure_text (indent + 1) body]
    exact failure_bind_bind_pure _
  | .doUntil condition body => by
    rw [Stmt.tokens, Stmt.text, firstFailure_append, firstFailure_cons, firstFailure_nil, Option.or_none,
      ← Block.failure_text (indent + 1) body]
    exact failure_bind_bind_pure _
  | .forLoop start condition step body _ => by
    rw [Stmt.tokens, Stmt.text]
    simp only [firstFailure_append, ← Stmt.failure_headerPart, ← Block.failure_text (indent + 1) body,
      Option.or_assoc]
    exact failure_bind fun _ => failure_bind fun _ => failure_bind_bind_pure _
  | .switch subject arms => by
    rw [Stmt.tokens, Stmt.text, firstFailure_cons, ← Arms.failure_text (indent + 1) arms]
    exact failure_bind_bind_pure _

/-- The text of a block fails with the first of its tokens that fails. -/
theorem Block.failure_text (indent : Nat) : ∀ block : List (Placed Stmt),
    failure (Block.text render indent block) = firstFailure render (Block.tokens block)
  | [] => rfl
  | ⟨_, s⟩ :: rest => by
    rw [Block.tokens, Block.text, firstFailure_append, ← Stmt.failure_text indent s,
      ← Block.failure_text indent rest]
    exact failure_bind_bind_pure _

theorem Arms.failure_text (indent : Nat) : ∀ arms : List (Placed (Arm (List (Placed Stmt)))),
    failure (Arms.text render indent arms) = firstFailure render (Arms.tokens arms)
  | [] => rfl
  | ⟨_, ⟨label, body⟩⟩ :: rest => by
    rw [Arms.tokens, Arms.text, firstFailure_append, firstFailure_append, Option.or_assoc,
      ← Stmt.failure_labelText, ← Block.failure_text (indent + 1) body, ← Arms.failure_text indent rest]
    exact failure_bind fun _ => failure_bind_bind_pure _

end

end Trees

/-! The tokens of a regrouped tree. -/

/-- The one operand of an instruction that is regrouped; the label of a default has none. -/
def Token.operand? : Token → Option Token
  | .jumpIfNot _ condition => some condition
  | .iterator expression _ => some expression
  | .switch expression => some expression
  | .case next value => if next == defaultLink then none else value
  | _ => none

theorem Token.operand?_eq_some {t token : Token} (h : token.operand? = some t) :
    (∃ target, token = .jumpIfNot target t) ∨ (∃ last, token = .iterator t last) ∨ token = .switch t ∨
      ∃ next, token = .case next (some t) ∧ (next == defaultLink) = false := by
  cases token with
  | jumpIfNot target condition => exact .inl ⟨target, by rw [Option.some.inj h]⟩
  | iterator expression last => exact .inr (.inl ⟨last, by rw [Option.some.inj h]⟩)
  | switch expression => exact .inr (.inr (.inl (by rw [Option.some.inj h])))
  | case next value =>
    by_cases hnext : (next == defaultLink) = true
    · simp [operand?, hnext] at h
    · simp only [operand?, hnext] at h
      exact .inr (.inr (.inr ⟨next, by rw [← h]; rfl, by simpa using hnext⟩))
  | _ => simp [operand?] at h

/-- An instruction and its operand have the same references. -/
theorem Token.references_operand? {t token : Token} (h : token.operand? = some t) :
    t.references = token.references := by
  obtain ⟨target, rfl⟩ | ⟨last, rfl⟩ | rfl | ⟨next, rfl, hnext⟩ := operand?_eq_some h
  · rw [references]
  · rw [references]
  · rw [references]
  · rw [references, hnext, if_neg Bool.false_ne_true]

/-- The token is an instruction of the code, or the operand of one. -/
def Token.HeldIn (code : UInt32 → Option Token) (t : Token) : Prop :=
  ∃ k token, code k = some token ∧ (t = token ∨ token.operand? = some t)

/-- The tokens of a statement that says what the code says are held in the code: each is an
instruction or the operand of one. -/
theorem Stmt.heldIn_of_sourced {code : UInt32 → Option Token} (s : Stmt) : ∀ {here : UInt32},
    s.Sourced code here → (s.Every fun c => ∀ e ∈ c, e.item.Sourced code e.offset) →
    ∀ t ∈ s.tokens, t.HeldIn code := by
  have hblock : ∀ b : Block, (∀ e ∈ b, ∀ {here : UInt32}, e.item.Sourced code here →
      (e.item.Every fun c => ∀ e ∈ c, e.item.Sourced code e.offset) → ∀ t ∈ e.item.tokens, t.HeldIn code) →
      Block.Sourced code b → ∀ t ∈ Block.tokens b, t.HeldIn code := by
    intro b ih hb t ht
    obtain ⟨e, he, ht⟩ := Block.mem_tokens.mp ht
    obtain ⟨hown, hin⟩ := Rule.sourced_iff.mp hb e he
    exact ih e he hown hin t ht
  induction s using Stmt.induction with
  | plain token =>
    intro here hsource _ t ht
    obtain rfl := List.mem_singleton.mp ht
    exact ⟨here, t, hsource, .inl rfl⟩
  | leave => simp [Stmt.tokens]
  | branch condition body otherwise ih ihother =>
    intro here hsource hin
    obtain ⟨target, hhere, -⟩ := hsource
    obtain ⟨hbody, hother⟩ := (Stmt.every_branch ..).mp hin
    exact Stmt.forall_tokens_branch.mpr ⟨⟨here, _, hhere, .inr rfl⟩, hblock body ih hbody,
      fun o ho => hblock o.item (ihother o ho) (hother o ho)⟩
  | whileLoop condition body back ih =>
    intro here hsource hin
    obtain ⟨⟨target, hhere⟩, -⟩ := hsource
    exact List.forall_mem_cons.mpr ⟨⟨here, _, hhere, .inr rfl⟩,
      hblock body ih ((Stmt.every_whileLoop ..).mp hin)⟩
  | doUntil condition body ih =>
    intro here hsource hin
    refine List.forall_mem_append.mpr ⟨hblock body ih ((Stmt.every_doUntil ..).mp hin), ?_⟩
    exact List.forall_mem_singleton.mpr ⟨_, _, hsource.1, .inr rfl⟩
  | forLoop start condition step body back ih =>
    intro here hsource hin
    obtain ⟨first, test, last, target, rfl, rfl, rfl, hfirst, htest, hlast, -⟩ := hsource
    have hbody := hblock body ih ((Stmt.every_forLoop ..).mp hin)
    simp only [Stmt.tokens, Option.toList_some, List.map_singleton, List.forall_mem_append,
      List.forall_mem_singleton]
    exact ⟨⟨⟨⟨_, _, hfirst, .inl rfl⟩, _, _, htest, .inr rfl⟩, _, _, hlast, .inl rfl⟩, hbody⟩
  | forEach iterator body next last ih =>
    intro here hsource hin
    exact List.forall_mem_cons.mpr ⟨⟨here, _, hsource.1, .inr rfl⟩,
      hblock body ih ((Stmt.every_forEach ..).mp hin)⟩
  | switch subject arms ih =>
    intro here hsource hin
    refine List.forall_mem_cons.mpr ⟨⟨here, _, hsource.1, .inr rfl⟩, fun t ht => ?_⟩
    obtain ⟨arm, harm, hlabel | ht⟩ := Arms.mem_tokens.mp ht
    · obtain ⟨next, value, hcode, heq⟩ := hsource.2 arm harm
      rw [hlabel] at heq
      split at heq
      · simp at heq
      · next hmore =>
        subst heq
        exact ⟨arm.offset, _, hcode, .inr (by simp [Token.operand?, hmore])⟩
    · exact hblock _ (ih arm harm) ((Stmt.every_switch ..).mp hin arm harm) t ht

/-- Each token of a function body is an instruction or the operand of one. -/
theorem Block.heldIn_ofBody {code : List Instruction} {t : Token}
    (ht : t ∈ Block.tokens (Block.ofBody code)) :
    ∃ i ∈ code, t = i.item ∨ i.item.operand? = some t := by
  have hdrop := dropReturn_subset (ofInstructions code)
  have hsourced : Sourced (tokenAt (ofInstructions code)) (ofBody code) :=
    Rule.sourced_regroupWithin _ (sourced_of_flat (ascending_ofInstructions code)
      (fun e he => flat_ofInstructions code e (hdrop he)) hdrop)
  obtain ⟨e, he, ht⟩ := mem_tokens.mp ht
  obtain ⟨hown, hin⟩ := Rule.sourced_iff.mp hsourced e he
  obtain ⟨k, token, htoken, hheld⟩ := e.item.heldIn_of_sourced hown hin t ht
  exact ⟨⟨k, token⟩, mem_code_of_tokenAt htoken, hheld⟩

/-! References in a package. -/

section Packages
variable {p : Package} {r : Reference}

theorem Package.failure_fullName {e : Entry} (h : p.entry r = .ok (some e)) :
    failure (p.fullName r) = failure (p.innerName r) := by
  rw [fullName, h]
  cases e with
  | imported => rfl
  | exported => exact failure_bind_pure _

/-- The path of an object fails alike with and without the name of the level in front. -/
theorem Context.failure_link {mapMode : Bool} {e : Entry} (h : p.entry r = .ok (some e)) :
    failure ((⟨p, mapMode⟩ : Context).link r) =
      (failure (p.className e)).or (failure (p.innerName r)) := by
  have hpath : failure ((⟨p, mapMode⟩ : Context).pathOf r e) = failure (p.innerName r) := by
    cases e with
    | imported => exact Package.failure_fullName h
    | exported =>
      rw [pathOf]
      split
      · exact failure_bind_pure _
      · exact Package.failure_fullName h
  rw [link, h, ← hpath]
  exact failure_bind_bind_pure _

/-- How objects are named does not decide whether they can be. -/
theorem Context.failure_link_eq (mapMode mapMode' : Bool) :
    failure ((⟨p, mapMode⟩ : Context).link r) = failure ((⟨p, mapMode'⟩ : Context).link r) := by
  cases h : p.entry r with
  | error e => rw [link, link, h]; rfl
  | ok entry =>
    cases entry with
    | none => rw [link, link, h]; rfl
    | some e => rw [failure_link h, failure_link h]

theorem Context.failure_tokenText (o o' : Options) (t : Token) :
    failure ((Context.ofOptions p o).tokenText t) =
      firstFailure (Context.ofOptions p o').link t.references := by
  have hlink : ∀ r, failure ((Context.ofOptions p o).link r) = failure ((Context.ofOptions p o').link r) :=
    fun r => failure_link_eq o.mapMode o'.mapMode
  unfold tokenText
  rw [Token.failure_render, firstFailure, firstFailure, funext hlink]

/-! Summaries. -/

/-- The reference points beyond the exports, or beyond the imports. -/
def Reference.OutOfRange (r : Reference) (p : Package) : Prop :=
  (p.exports.length : Int) < r.index.toInt ∨ (p.imports.length : Int) < -r.index.toInt

theorem Package.failure_summarizeEntries (rs : List Reference) :
    failure (p.summarizeEntries rs) = firstFailure p.summarizeEntry rs := by
  induction rs with
  | nil => rfl
  | cons r rs ih =>
    rw [summarizeEntries, firstFailure_cons, ← ih]
    exact failure_bind_bind_pure _

/-- In a package with a summary, every reference in the directory is summarized. -/
theorem Package.failure_summarizeEntry {summary : Summary} (h : p.summarize = .ok summary)
    (hr : r.index.toInt ≠ 0) (hrange : ¬ r.OutOfRange p) : failure (p.summarizeEntry r) = none := by
  have hlists : failure p.summarize = none := failure_eq_none.mpr ⟨summary, h⟩
  rw [summarize, failure_bind_bind_pure, Option.or_eq_none_iff, failure_summarizeEntries,
    failure_summarizeEntries, firstFailure_eq_none, firstFailure_eq_none] at hlists
  unfold Reference.OutOfRange at hrange
  rcases Int.lt_or_gt_of_ne hr with hneg | hpos
  · refine hlists.1 r (List.mem_map.mpr ⟨(-r.index.toInt).toNat - 1, List.mem_range.mpr (by omega), ?_⟩)
    have hindex : -(((-r.index.toInt).toNat - 1 : Nat) : Int) - 1 = r.index.toInt := by omega
    rw [Reference.ofImport, hindex, Int32.ofInt_toInt]
  · refine hlists.2 r (List.mem_map.mpr ⟨r.index.toInt.toNat - 1, List.mem_range.mpr (by omega), ?_⟩)
    have hindex : ((r.index.toInt.toNat - 1 : Nat) : Int) + 1 = r.index.toInt := by omega
    rw [Reference.ofExport, hindex, Int32.ofInt_toInt]

/-- A reference that is summarized can be written. -/
theorem Context.failure_link_of_summarizeEntry {c : Context}
    (h : failure (c.package.summarizeEntry r) = none) : failure (c.link r) = none := by
  cases hentry : c.package.entry r with
  | error e =>
    rw [Package.summarizeEntry, hentry] at h
    exact absurd (show some e = none from h) (by simp)
  | ok entry =>
    cases entry with
    | none =>
      rw [link, hentry]
      rfl
    | some e =>
      have hsummary : failure (c.package.summarizeEntry r) =
          (failure (c.package.fullName r)).or (failure (c.package.className e)) := by
        rw [Package.summarizeEntry, hentry]
        exact failure_bind_bind_pure _
      rw [hsummary, Option.or_eq_none_iff, Package.failure_fullName hentry] at h
      rw [failure_link hentry, h.1, h.2]
      rfl

theorem Package.entry_of_outOfRange (h : r.OutOfRange p) : p.entry r = .error (.unresolved r) := by
  unfold entry
  rcases h with h | h
  · have hnone : p.exports[r.index.toInt.toNat - 1]? = none := List.getElem?_eq_none (by omega)
    simp only [hnone]
    rw [if_neg (by omega), if_pos (by omega)]
  · have hnone : p.imports[(-r.index.toInt).toNat - 1]? = none := List.getElem?_eq_none (by omega)
    simp only [hnone]
    rw [if_neg (by omega), if_neg (by omega)]

/-- In a package with a summary, only a reference out of range cannot be written. -/
theorem Context.unresolved_of_failure_link {c : Context} {summary : Summary} {e : Error}
    (h : c.package.summarize = .ok summary) (hlink : failure (c.link r) = some e) :
    e = .unresolved r ∧ r.OutOfRange c.package := by
  have hrange : r.OutOfRange c.package := by
    by_contra hrange
    have hnone : failure (c.link r) = none := by
      by_cases hzero : r.index.toInt = 0
      · rw [link, Package.entry]
        simp [hzero]
        rfl
      · exact failure_link_of_summarizeEntry (Package.failure_summarizeEntry h hzero hrange)
    simp [hnone] at hlink
  refine ⟨?_, hrange⟩
  rw [link, Package.entry_of_outOfRange hrange] at hlink
  exact (Option.some.inj hlink).symm

end Packages

/-! Functions. -/

theorem Listing.failure_instructionLines (c : Context) (code : List Instruction) :
    failure (instructionLines c code) = firstFailure (fun i => c.tokenText i.item) code := by
  induction code with
  | nil => rfl
  | cons i rest ih =>
    have hline : failure (instructionLine c i) = failure (c.tokenText i.item) := failure_bind_pure _
    rw [instructionLines, firstFailure_cons, ← ih, ← hline]
    exact failure_bind_bind_pure _

theorem Listing.failure_functionText (c : Context) (path : String) (f : FunctionDecl) :
    failure (functionText c path f) = firstFailure (fun i => c.tokenText i.item) f.body := by
  rw [← failure_instructionLines, functionText]
  exact failure_bind_pure _

/-- A function has no text only where an instruction has none, for the same reason and
under all options. -/
theorem Package.exists_instruction_of_failure {p : Package} {o : Options} {f : FunctionDecl} {e : Error}
    (h : failure (p.functionSource o f) = some e) :
    ∃ i ∈ f.body, ∀ o', failure ((Context.ofOptions p o').tokenText i.item) = some e := by
  rw [functionSource, failure_bind_pure, FunctionDecl.text] at h
  split at h
  · simp at h
  · rw [failure_bind_pure, Block.failure_text] at h
    obtain ⟨t, ht, hfails⟩ := exists_of_firstFailure h
    obtain ⟨i, hi, hheld⟩ := Block.heldIn_ofBody ht
    have hreferences : t.references = i.item.references :=
      hheld.elim (congrArg Token.references) Token.references_operand?
    refine ⟨i, hi, fun o' => ?_⟩
    rw [Context.failure_tokenText o' o, ← hreferences, ← Context.failure_tokenText o o]
    exact hfails

/-- Regrouping introduces no errors. Where a function has no text, some instruction of it
has none, for the same reason and under all options; so a function has a text whenever it
can be listed. In a package with a summary, the only reason is a reference out of range in
one of the instructions. -/
theorem Package.functionSource_error (p : Package) (o : Options) (f : FunctionDecl) :
    (∀ e, p.functionSource o f = .error e →
      ∃ i ∈ f.body, ∀ o', (Context.ofOptions p o').tokenText i.item = .error e) ∧
    (∀ path listing, Listing.functionText (Context.ofOptions p .standard) path f = .ok listing →
      ∃ source, p.functionSource o f = .ok source) ∧
    ∀ summary e, p.summarize = .ok summary → p.functionSource o f = .error e →
      ∃ i ∈ f.body, ∃ r ∈ i.item.references, e = .unresolved r ∧ r.OutOfRange p := by
  refine ⟨fun e herror => ?_, fun path listing hlisting => ?_, fun summary e hsummary herror => ?_⟩
  · obtain ⟨i, hi, hfails⟩ := exists_instruction_of_failure (failure_eq_some.mpr herror)
    exact ⟨i, hi, fun o' => failure_eq_some.mp (hfails o')⟩
  · refine failure_eq_none.mp (Option.eq_none_iff_forall_ne_some.mpr fun e hfails => ?_)
    obtain ⟨i, hi, hinstruction⟩ := exists_instruction_of_failure hfails
    have hnone := failure_eq_none.mpr ⟨listing, hlisting⟩
    rw [Listing.failure_functionText, firstFailure_eq_none] at hnone
    exact absurd ((hinstruction .standard).symm.trans (hnone i hi)) (by simp)
  · obtain ⟨i, hi, hfails⟩ := exists_instruction_of_failure (failure_eq_some.mpr herror)
    have hinstruction := hfails o
    rw [Context.failure_tokenText o o] at hinstruction
    obtain ⟨r, hr, hlink⟩ := exists_of_firstFailure hinstruction
    exact ⟨i, hi, r, hr, Context.unresolved_of_failure_link hsummary hlink⟩

/-- A function whose branch tests an object that the package does not have. -/
def FunctionDecl.testsMissingObject : FunctionDecl :=
  ⟨"Tick", ⟨0⟩, 0, 0, [],
    [⟨0, .jumpIfNot 10 (.objectConst ⟨5⟩)⟩, ⟨4, .stop⟩, ⟨10, .ret .nothing⟩]⟩

/-- The condition of the if has no text, nor has the branch it comes from. -/
theorem Package.functionSource_testsMissingObject :
    (Package.named "Maps").functionSource .standard .testsMissingObject = .error (.unresolved ⟨5⟩) ∧
    (∃ i ∈ FunctionDecl.testsMissingObject.body, ∀ o,
      (Context.ofOptions (Package.named "Maps") o).tokenText i.item = .error (.unresolved ⟨5⟩)) ∧
    ∃ i ∈ FunctionDecl.testsMissingObject.body, ∃ r ∈ i.item.references, r.index = 5 ∧
      r.OutOfRange (Package.named "Maps") := by
  have herror : (Package.named "Maps").functionSource .standard .testsMissingObject =
      .error (.unresolved ⟨5⟩) := rfl
  obtain ⟨hinstruction, -, hsummary⟩ :=
    functionSource_error (Package.named "Maps") .standard .testsMissingObject
  refine ⟨herror, hinstruction _ herror, ?_⟩
  obtain ⟨i, hi, r, hr, heq, hrange⟩ := hsummary ⟨"Maps", [], [], []⟩ _ rfl herror
  exact ⟨i, hi, r, hr, by rw [← (Error.unresolved.inj heq)], hrange⟩

end ScriptLift
