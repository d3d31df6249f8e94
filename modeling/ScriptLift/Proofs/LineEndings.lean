import ScriptLift.Proofs.OneLine
import ScriptLift.Recovery

/- The line ending of the text.

   A text keeps its line breaks apart from its strings until it is rendered, so the two line
   endings give the same text but for the breaks, provided no string of it holds a line feed
   of its own (`Text.Unbroken`). Each emitter is shown to give such a text when the strings
   of the package and of what it writes are on one line: statements, declarations, settings
   with the blocks inside them, and classes. -/
namespace ScriptLift

/-- What stands for a line feed does not matter to characters without one. -/
theorem flatMap_lineFeed (feed : List Char) {cs : List Char} (h : '\n' ∉ cs) :
    cs.flatMap (fun c => if c = '\n' then feed else [c]) = cs := by
  induction cs with
  | nil => rfl
  | cons c cs ih =>
    rw [List.mem_cons, not_or] at h
    rw [List.flatMap_cons, ih h.2, if_neg (Ne.symm h.1), List.singleton_append]

theorem oneLine_tabs (indent : Nat) : OneLine (tabs indent) := by
  unfold tabs
  rw [oneLine_ofList]
  exact fun h => absurd (List.eq_of_mem_replicate h) (by decide)

namespace Text

/-- No string of the text has a line feed: all its lines are opened by breaks. -/
def Unbroken (t : Text) : Prop := ∀ s, .verbatim s ∈ t → OneLine s

section Pieces
variable {a b : Text} {s : String} {indent : Nat}

@[simp] theorem unbroken_nil : Unbroken [] := by simp [Unbroken]

@[simp] theorem unbroken_append : Unbroken (a ++ b) ↔ Unbroken a ∧ Unbroken b := by
  simp [Unbroken, or_imp, forall_and]

@[simp] theorem unbroken_lit : Unbroken (lit s) ↔ OneLine s := by simp [Unbroken, lit]

@[simp] theorem unbroken_line : Unbroken (line indent) := by simp [Unbroken, line]

@[simp] theorem unbroken_lineOf : Unbroken (lineOf indent s) ↔ OneLine s := by simp [Unbroken, lineOf]

theorem unbroken_flatMap {α : Type} {l : List α} {f : α → Text} (h : ∀ x ∈ l, Unbroken (f x)) :
    Unbroken (l.flatMap f) := by
  intro s hs
  obtain ⟨x, hx, hs⟩ := List.mem_flatMap.mp hs
  exact h x hx s hs

theorem unbroken_join {texts : List Text} (ha : Unbroken a) (h : ∀ t ∈ texts, Unbroken t) :
    Unbroken (join a texts) := by
  fun_induction join a texts with
  | case1 => exact unbroken_nil
  | case2 t => exact h t (by simp)
  | case3 t rest _ ih =>
    rw [unbroken_append, unbroken_append]
    exact ⟨⟨h t (by simp), ha⟩, ih fun u hu => h u (List.mem_cons_of_mem _ hu)⟩

@[simp] theorem unbroken_braces : Unbroken (Stmt.braces indent a) ↔ Unbroken a := by
  simp +decide [Stmt.braces]

end Pieces

end Text

/-! Statements. -/

theorem Token.oneLine_statement {text : String} (t : Token) (h : OneLine text) : OneLine (t.statement text) := by
  unfold statement
  split
  · exact h
  · simp +decide [h]

section Statements
variable {render : Token → Except Error String}

theorem Stmt.oneLine_headerPart {part : Option (Placed Token)}
    (h : ∀ t ∈ part.toList.map (·.item), Yields OneLine (render t)) : Yields OneLine (headerPart render part) := by
  cases part with
  | none => exact .pure (by decide)
  | some part =>
    exact (h part.item (by simp)).bind fun s hs => .pure (by simp +decide [hs])

theorem Stmt.oneLine_labelText {label : Option Token} (h : ∀ t ∈ label.toList, Yields OneLine (render t)) :
    Yields OneLine (labelText render label) := by
  cases label with
  | none => exact .pure (by decide)
  | some value => exact (h value (by simp)).bind fun s hs => .pure (by simp +decide [hs])

/-- A condition in parentheses behind a word, and a body in braces. -/
theorem Stmt.unbroken_headed {token : Token} {body : Except Error Text} {head : String → String} {indent : Nat}
    (htoken : Yields OneLine (render token)) (hhead : ∀ s, OneLine s → OneLine (head s))
    (hbody : Yields Text.Unbroken body) :
    Yields Text.Unbroken (do
      let head := Text.lit (head (← render token))
      return head ++ Stmt.braces indent (← body)) :=
  htoken.bind fun s hs => hbody.bind fun b hb => .pure (by simp [hhead s hs, hb])

/-- A second part that is no statement on its own is written as a block. -/
theorem Stmt.unbroken_otherwise {condition : Token} {body others : Block} {jump : UInt32} {indent : Nat}
    (hothers : ∀ there other, others = [⟨there, other⟩] → False)
    (htokens : ∀ t ∈ (Stmt.branch condition body (some ⟨jump, others⟩)).tokens, Yields OneLine (render t))
    (hbody : (∀ t ∈ Block.tokens body, Yields OneLine (render t)) →
      Yields Text.Unbroken (Block.text render (indent + 1) body))
    (hmore : (∀ t ∈ Block.tokens others, Yields OneLine (render t)) →
      Yields Text.Unbroken (Block.text render (indent + 1) others)) :
    Yields Text.Unbroken ((Stmt.branch condition body (some ⟨jump, others⟩)).text render indent) := by
  simp only [Stmt.tokens, List.forall_mem_cons, List.forall_mem_append] at htokens
  rw [Stmt.text]
  · exact htokens.1.bind fun s hs => (hbody htokens.2.1).bind fun b hb => (hmore htokens.2.2).bind fun o ho =>
      .pure (by simp +decide [hs, hb, ho])
  · exact hothers

mutual

theorem Stmt.unbroken_text (indent : Nat) : ∀ s : Stmt, (∀ t ∈ s.tokens, Yields OneLine (render t)) →
    Yields Text.Unbroken (s.text render indent)
  | .plain token => by
    intro h
    simp only [Stmt.tokens, List.mem_singleton, forall_eq] at h
    exact h.bind fun s hs => .pure (by simp [token.oneLine_statement hs])
  | .leave => fun _ => .pure (by simp +decide)
  | .branch condition body none => by
    intro h
    simp only [Stmt.tokens, List.forall_mem_cons] at h
    exact Stmt.unbroken_headed h.1 (fun s hs => by simp +decide [hs]) (Block.unbroken_text (indent + 1) body h.2)
  | .branch condition body (some ⟨jump, [⟨there, other⟩]⟩) => by
    intro h
    simp only [Stmt.tokens, Block.tokens, List.append_nil, List.forall_mem_cons, List.forall_mem_append] at h
    rw [Stmt.text]
    refine h.1.bind fun s hs => (Block.unbroken_text (indent + 1) body h.2.1).bind fun b hb => ?_
    split
    · exact (Stmt.unbroken_text indent other h.2.2).bind fun o ho => .pure (by simp +decide [hs, hb, ho])
    · exact (Stmt.unbroken_text (indent + 1) other h.2.2).bind fun o ho => .pure (by simp +decide [hs, hb, ho])
  | .branch condition body (some ⟨jump, []⟩) => fun h =>
    Stmt.unbroken_otherwise (by simp) h (Block.unbroken_text (indent + 1) body) (Block.unbroken_text (indent + 1) [])
  | .branch condition body (some ⟨jump, e :: e' :: others⟩) => fun h =>
    Stmt.unbroken_otherwise (by simp) h (Block.unbroken_text (indent + 1) body)
      (Block.unbroken_text (indent + 1) (e :: e' :: others))
  | .whileLoop condition body _ | .forEach condition body _ _ => by
    intro h
    simp only [Stmt.tokens, List.forall_mem_cons] at h
    exact Stmt.unbroken_headed h.1 (fun s hs => by simp +decide [hs]) (Block.unbroken_text (indent + 1) body h.2)
  | .doUntil condition body => by
    intro h
    simp only [Stmt.tokens, List.forall_mem_append, List.mem_singleton, forall_eq] at h
    exact (Block.unbroken_text (indent + 1) body h.1).bind fun b hb => h.2.bind fun s hs =>
      .pure (by simp +decide [hs, hb])
  | .forLoop start condition step body _ => by
    intro h
    simp only [Stmt.tokens, List.forall_mem_append] at h
    obtain ⟨⟨⟨hstart, hcondition⟩, hstep⟩, hbody⟩ := h
    exact (Stmt.oneLine_headerPart hstart).bind fun a ha => (Stmt.oneLine_headerPart hcondition).bind fun b hb =>
      (Stmt.oneLine_headerPart hstep).bind fun c hc => (Block.unbroken_text (indent + 1) body hbody).bind fun t ht =>
        .pure (by simp +decide [ha, hb, hc, ht])
  | .switch subject arms => by
    intro h
    simp only [Stmt.tokens, List.forall_mem_cons] at h
    exact Stmt.unbroken_headed h.1 (fun s hs => by simp +decide [hs]) (Arms.unbroken_text (indent + 1) arms h.2)

/-- The text of a block has no line feeds of its own where its tokens are on one line. -/
theorem Block.unbroken_text (indent : Nat) : ∀ block : List (Placed Stmt),
    (∀ t ∈ Block.tokens block, Yields OneLine (render t)) → Yields Text.Unbroken (Block.text render indent block)
  | [] => fun _ => .pure Text.unbroken_nil
  | ⟨_, s⟩ :: rest => by
    intro h
    simp only [Block.tokens, List.forall_mem_append] at h
    exact (Stmt.unbroken_text indent s h.1).bind fun a ha => (Block.unbroken_text indent rest h.2).bind fun b hb =>
      .pure (by simp [ha, hb])

theorem Arms.unbroken_text (indent : Nat) : ∀ arms : List (Placed (Arm (List (Placed Stmt)))),
    (∀ t ∈ Arms.tokens arms, Yields OneLine (render t)) → Yields Text.Unbroken (Arms.text render indent arms)
  | [] => fun _ => .pure Text.unbroken_nil
  | ⟨_, ⟨label, body⟩⟩ :: rest => by
    intro h
    simp only [Arms.tokens, List.forall_mem_append] at h
    exact (Stmt.oneLine_labelText h.1.1).bind fun s hs => (Block.unbroken_text (indent + 1) body h.1.2).bind fun b hb =>
      (Arms.unbroken_text indent rest h.2).bind fun r hr => .pure (by simp [hs, hb, hr])

end

end Statements

/-! Functions. -/

theorem Kind.oneLine_typeName : ∀ kind : Kind, Leaf.Unbroken kind.leaves → OneLine kind.typeName
  | .byte none | .int | .bool | .float | .name | .string => fun _ => by decide
  | .byte (some path) => by
    intro h
    simp only [Kind.leaves, Leaf.unbroken_ofName?, Option.mem_some_iff, forall_eq'] at h
    exact oneLine_shortName h
  | .object path | .struct path => by
    intro h
    simp only [Kind.leaves, Leaf.unbroken_string] at h
    exact oneLine_shortName h.1
  | .metaclass path | .delegate path => by
    intro h
    simp only [Kind.leaves, Leaf.unbroken_string] at h
    simp +decide [Kind.typeName, oneLine_shortName h.1]
  | .array ⟨_, element, _, _, _, _⟩ => by
    intro h
    simp only [Kind.leaves, Property.unbroken_leaves] at h
    simp +decide [Kind.typeName, element.oneLine_typeName h.2.1]

theorem Property.oneLine_typeName {p : Property} (h : Leaf.Unbroken p.leaves) : OneLine p.typeName :=
  p.kind.oneLine_typeName (Property.unbroken_leaves.mp h).2.1

theorem Token.leaves_operand? {t token : Token} (h : token.operand? = some t) : t.leaves = token.leaves := by
  obtain ⟨target, rfl⟩ | ⟨last, rfl⟩ | rfl | ⟨next, rfl, -⟩ := operand?_eq_some h
  all_goals rw [leaves]

namespace FunctionDecl

variable {f : FunctionDecl} (hf : Leaf.Unbroken f.leaves)

include hf

theorem unbroken_parts : OneLine f.name ∧ (∀ p ∈ f.properties, Leaf.Unbroken p.leaves) ∧
    ∀ i ∈ f.body, Leaf.Unbroken i.item.leaves := by
  simpa only [leaves, List.cons_append, Leaf.unbroken_string, Leaf.unbroken_append, Leaf.unbroken_flatMap] using hf

theorem oneLine_signature : OneLine f.signature := by
  obtain ⟨hname, hproperties, -⟩ := unbroken_parts hf
  have hnative : OneLine f.nativeWord := by
    unfold nativeWord
    split_ifs <;> simp +decide
  have hspecifiers : OneLine f.specifierWords := by
    refine oneLine_join fun s hs => ?_
    obtain ⟨word, hword, rfl⟩ := List.mem_map.mp hs
    have htable : ∀ word ∈ specifiers, OneLine word.1 := by decide
    simp +decide [htable word (List.mem_of_mem_filter hword)]
  have hdeclarator : OneLine f.declarator := by
    unfold declarator
    split_ifs <;> simp +decide
  have hreturned : OneLine f.returnWord := by
    unfold returnWord
    split
    · next p hp =>
      have htype := Property.oneLine_typeName (hproperties p (List.mem_of_find?_eq_some hp))
      simp +decide [htype]
    · decide
  have hparameters : ∀ s ∈ f.parameters.map parameterText, OneLine s := by
    intro s hs
    obtain ⟨p, hp, rfl⟩ := List.mem_map.mp hs
    have hunbroken := hproperties p (List.mem_of_mem_filter hp)
    unfold parameterText
    split_ifs <;>
      simp +decide [Property.oneLine_typeName hunbroken, (Property.unbroken_leaves.mp hunbroken).1]
  simp +decide [signature, hnative, hspecifiers, hdeclarator, hreturned, hname,
    oneLine_intercalate (a := ", ") (by decide) hparameters]

omit hf in
theorem oneLine_addLocal {type name : String} {groups : List (String × List String)} (htype : OneLine type)
    (hname : OneLine name) (h : ∀ g ∈ groups, OneLine g.1 ∧ ∀ s ∈ g.2, OneLine s) :
    ∀ g ∈ addLocal type name groups, OneLine g.1 ∧ ∀ s ∈ g.2, OneLine s := by
  induction groups with
  | nil => simp [addLocal, htype, hname]
  | cons g groups ih =>
    obtain ⟨hg, hgroups⟩ := List.forall_mem_cons.mp h
    unfold addLocal
    split
    · refine List.forall_mem_cons.mpr ⟨⟨hg.1, ?_⟩, hgroups⟩
      simpa [or_imp, forall_and] using ⟨hg.2, hname⟩
    · exact List.forall_mem_cons.mpr ⟨hg, ih hgroups⟩

theorem unbroken_localsText (indent : Nat) : Text.Unbroken (f.localsText indent) := by
  have hgroups : ∀ g ∈ localGroups f.locals, OneLine g.1 ∧ ∀ s ∈ g.2, OneLine s := by
    have hlocals : ∀ p ∈ f.locals, Leaf.Unbroken p.leaves :=
      fun p hp => (unbroken_parts hf).2.1 p (List.mem_of_mem_filter hp)
    refine List.foldlRecOn (motive := fun groups : List (String × List String) =>
      ∀ g ∈ groups, OneLine g.1 ∧ ∀ s ∈ g.2, OneLine s) f.locals _ (by simp) fun groups hgroups p hp => ?_
    exact oneLine_addLocal (Property.oneLine_typeName (hlocals p hp))
      (Property.unbroken_leaves.mp (hlocals p hp)).1 hgroups
  unfold localsText
  split
  · exact Text.unbroken_nil
  · refine Text.unbroken_append.mpr ⟨Text.unbroken_flatMap fun g hg => ?_, Text.unbroken_line⟩
    obtain ⟨htype, hnames⟩ := hgroups g hg
    simp +decide [localLine, htype, oneLine_intercalate (a := ", ") (by decide) hnames]

theorem unbroken_text {render : Token → Except Error String}
    (hrender : ∀ t, Leaf.Unbroken t.leaves → Yields OneLine (render t)) (indent : Nat) :
    Yields Text.Unbroken (f.text render indent) := by
  have htokens : ∀ t ∈ Block.tokens (Block.ofBody f.body), Yields OneLine (render t) := by
    intro t ht
    obtain ⟨i, hi, rfl | hoperand⟩ := Block.heldIn_ofBody ht
    · exact hrender _ ((unbroken_parts hf).2.2 i hi)
    · exact hrender _ (Token.leaves_operand? hoperand ▸ (unbroken_parts hf).2.2 i hi)
  unfold text
  split
  · exact .pure (by simp +decide [oneLine_signature hf])
  · exact (Block.unbroken_text (indent + 1) _ htokens).bind fun b hb =>
      .pure (by simp [oneLine_signature hf, unbroken_localsText hf, hb])

end FunctionDecl

/-! Declarations. -/

theorem EnumDecl.unbroken_text {e : EnumDecl} (he : Leaf.Unbroken e.leaves) (indent : Nat) :
    Text.Unbroken (e.text indent) := by
  simp only [EnumDecl.leaves, Leaf.unbroken_string, Leaf.unbroken_map_string] at he
  have hvalues : Text.Unbroken (Text.join (Text.lit "," ++ Text.line (indent + 1)) (e.values.map Text.lit)) := by
    refine Text.unbroken_join (by simp +decide) fun t ht => ?_
    obtain ⟨s, hs, rfl⟩ := List.mem_map.mp ht
    simpa using he.2 s hs
  simp +decide [EnumDecl.text, he.1, hvalues]

/-- The enum that a variable carries is declared beside it. -/
theorem Owner.unbroken_carriedEnum {o : Owner} (ho : ∀ m ∈ o.members, Leaf.Unbroken m.leaves) {p : Property}
    {e : EnumDecl} (h : o.carriedEnum p = some e) : Leaf.Unbroken e.leaves := by
  have hnested : ∀ name, o.nestedEnum name = some e → Leaf.Unbroken e.leaves := by
    intro name h
    unfold nestedEnum at h
    split at h
    · obtain ⟨m, hm, hfound⟩ := List.exists_of_findSome?_eq_some h
      cases m with
      | enum decl =>
        simp only [Option.ite_none_right_eq_some, Option.some.injEq] at hfound
        have hdecl := ho _ hm
        rw [Member.leaves, hfound.2] at hdecl
        exact hdecl
      | _ => simp at hfound
    · simp at h
  simp only [carriedEnum, Option.bind_eq_bind, Option.bind_eq_some_iff, Option.ite_none_right_eq_some] at h
  obtain ⟨name, -, first, -, -, hfound⟩ := h
  exact hnested name hfound

theorem Property.oneLine_modifiers (p : Property) : ∀ s ∈ p.modifiers, OneLine s := by
  have htable : ∀ m ∈ modifierTable, OneLine m.word := by decide
  intro s hs
  rcases List.mem_append.mp hs with hs | hs
  · split at hs
    · exact List.mem_singleton.mp hs ▸ by decide
    · simp at hs
  · obtain ⟨m, hm, rfl⟩ := List.mem_map.mp hs
    exact htable m (List.mem_of_mem_filter hm)

theorem Property.unbroken_text {o : Owner} (ho : ∀ m ∈ o.members, Leaf.Unbroken m.leaves) {p : Property}
    (hp : Leaf.Unbroken p.leaves) (indent : Nat) : Text.Unbroken (p.text o indent) := by
  obtain ⟨hname, -, hcategory⟩ := Property.unbroken_leaves.mp hp
  have hcategoryText : OneLine ((p.categoryText o.name).getD "") := by
    unfold categoryText
    split_ifs
    · cases hc : p.category with
      | none => simp +decide
      | some category =>
        simp only [Option.getD_some]
        split_ifs
        · decide
        · simp +decide [hcategory category hc]
    · decide
  have hmodifiers : OneLine (String.join (p.modifiers.map (· ++ " "))) := by
    refine oneLine_join fun s hs => ?_
    obtain ⟨word, hword, rfl⟩ := List.mem_map.mp hs
    simp +decide [p.oneLine_modifiers word hword]
  have hslots : OneLine (if p.isMultiSlot then "[" ++ toString p.arrayDim.toNat ++ "]" else "") := by
    split_ifs <;> simp +decide
  unfold Property.text
  simp only [Text.unbroken_append, Text.unbroken_lit, oneLine_append]
  refine ⟨⟨⟨⟨⟨by decide, hcategoryText⟩, by decide⟩, hmodifiers⟩, ?_⟩, ⟨by decide, hname⟩, hslots⟩
  -- the type is an enum written in place or the name of a type
  split
  · next e he => exact EnumDecl.unbroken_text (Owner.unbroken_carriedEnum ho he) indent
  · exact Text.unbroken_lit.mpr (Property.oneLine_typeName hp)

theorem oneLine_heading {word name : String} {parent : Option String} (hword : OneLine word) (hname : OneLine name)
    (hparent : ∀ s ∈ parent, OneLine s) : OneLine (heading word name parent) := by
  unfold heading
  cases parent with
  | none => simp +decide [hword, hname]
  | some s => simp +decide [hword, hname, hparent s rfl]

/-- Lines written one after another. -/
theorem Member.unbroken_concat {written : List Member.Written}
    (h : ∀ w ∈ written, ∀ line ∈ w.text, Yields Text.Unbroken line) :
    Yields Text.Unbroken (Member.concat written) := by
  induction written with
  | nil => exact .pure Text.unbroken_nil
  | cons w rest ih =>
    obtain ⟨hw, hrest⟩ := List.forall_mem_cons.mp h
    unfold Member.concat
    split
    · exact ih hrest
    · next line hline =>
      exact (hw line hline).bind fun a ha => (ih hrest).bind fun b hb => .pure (by simp [ha, hb])

theorem Member.mem_byRank {written : List Member.Written} {w : Member.Written} (h : w ∈ Member.byRank written) :
    w ∈ written := by
  obtain ⟨r, -, hw⟩ := List.mem_flatMap.mp h
  exact List.mem_of_mem_filter hw

theorem Member.oneLine_terminator (m : Member) : OneLine m.terminator := by
  unfold terminator
  split <;> decide

section Members
variable {render : Token → Except Error String}

mutual

theorem Member.unbroken_text (hrender : ∀ t, Leaf.Unbroken t.leaves → Yields OneLine (render t)) {o : Owner}
    (ho : ∀ m ∈ o.members, Leaf.Unbroken m.leaves) (indent : Nat) : ∀ m : Member, Leaf.Unbroken m.leaves →
    Yields Text.Unbroken (m.text render o indent)
  | .const c => by
    intro h
    simp only [Member.leaves, ConstDecl.leaves, Leaf.unbroken_string] at h
    simp only [Member.text]
    exact .pure (by simp +decide [ConstDecl.text, h.1, h.2.1])
  | .enum e => by
    intro h
    simp only [Member.leaves] at h
    simp only [Member.text]
    exact .pure (EnumDecl.unbroken_text h indent)
  | .struct s => by
    intro h
    simp only [Member.leaves] at h
    simp only [Member.text]
    exact Scope.unbroken_text hrender .struct indent s h
  | .property p => by
    intro h
    simp only [Member.leaves] at h
    simp only [Member.text]
    exact .pure (Property.unbroken_text ho h indent)
  | .function f => by
    intro h
    simp only [Member.leaves] at h
    simp only [Member.text]
    exact FunctionDecl.unbroken_text h hrender indent
  | .state s => by
    intro h
    simp only [Member.leaves] at h
    simp only [Member.text]
    exact Scope.unbroken_text hrender .state indent s h

theorem Scope.unbroken_text (hrender : ∀ t, Leaf.Unbroken t.leaves → Yields OneLine (render t)) (kind : OwnerKind)
    (indent : Nat) : ∀ s : Scope, Leaf.Unbroken s.leaves → Yields Text.Unbroken (s.text render kind indent)
  | ⟨name, parent, members⟩ => by
    intro h
    simp only [Scope.leaves, List.cons_append, Leaf.unbroken_string, Leaf.unbroken_append, Leaf.unbroken_ofName?] at h
    obtain ⟨hname, hparent, hmembers⟩ := h
    have ho : ∀ m ∈ (⟨kind, name, members⟩ : Owner).members, Leaf.Unbroken m.leaves := by
      rwa [Member.listLeaves_eq, Leaf.unbroken_flatMap] at hmembers
    have hwritten := Member.unbroken_written hrender ho (indent + 1) members hmembers
    simp only [Scope.text]
    refine (Member.unbroken_concat fun w hw => hwritten w (Member.mem_byRank hw)).bind fun body hbody => .pure ?_
    have hword : OneLine (if kind = .struct then "struct" else "state") := by split_ifs <;> decide
    simp [oneLine_heading hword hname hparent, hbody]

theorem Member.unbroken_written (hrender : ∀ t, Leaf.Unbroken t.leaves → Yields OneLine (render t)) {o : Owner}
    (ho : ∀ m ∈ o.members, Leaf.Unbroken m.leaves) (indent : Nat) : ∀ members : List Member,
    Leaf.Unbroken (Member.listLeaves members) →
    ∀ w ∈ Member.written render o indent members, ∀ line ∈ w.text, Yields Text.Unbroken line
  | [] => by simp [Member.written]
  | m :: rest => by
    intro h
    simp only [Member.listLeaves, Leaf.unbroken_append] at h
    rw [Member.written]
    refine List.forall_mem_cons.mpr ⟨fun line hline => ?_, Member.unbroken_written hrender ho indent rest h.2⟩
    simp only [Option.mem_def, Option.ite_none_left_eq_some, Option.some.injEq] at hline
    rw [← hline.2]
    exact (Member.unbroken_text hrender ho indent m h.1).map fun t ht =>
      by simp [ht, m.oneLine_terminator]

end

theorem Owner.unbroken_text (hrender : ∀ t, Leaf.Unbroken t.leaves → Yields OneLine (render t)) {o : Owner}
    (ho : Leaf.Unbroken (Member.listLeaves o.members)) (indent : Nat) :
    Yields Text.Unbroken (o.text render indent) := by
  have hmembers : ∀ m ∈ o.members, Leaf.Unbroken m.leaves := by
    rwa [Member.listLeaves_eq, Leaf.unbroken_flatMap] at ho
  have hwritten := Member.unbroken_written hrender hmembers indent o.members ho
  exact Member.unbroken_concat fun w hw => hwritten w (Member.mem_byRank hw)

end Members

/-! Settings and blocks. -/

theorem Setting.unbroken_leaves {s : Setting} (h : Leaf.Unbroken s.leaves) :
    Leaf.Unbroken s.template.leaves ∧ ∀ v, some v ∈ s.slots → Leaf.Unbroken v.leaves := by
  have hslots : ∀ slots : List (Option Value), Leaf.Unbroken (Value.slotLeaves slots) →
      ∀ v, some v ∈ slots → Leaf.Unbroken v.leaves := by
    intro slots hslots v hv
    induction slots with
    | nil => simp at hv
    | cons slot rest ih =>
      cases slot with
      | none =>
        simp only [Value.slotLeaves] at hslots
        exact ih hslots (by simpa using hv)
      | some w =>
        simp only [Value.slotLeaves, Leaf.unbroken_append] at hslots
        rcases List.mem_cons.mp hv with heq | hv
        · exact Option.some.inj heq ▸ hslots.1
        · exact ih hslots.2 hv
  cases s with
  | mk template slots =>
    simp only [Setting.leaves, Leaf.unbroken_append] at h
    exact ⟨h.1, hslots slots h.2⟩

section Settings
variable {c : Context} {block : Reference → Except Error Text}

theorem Value.unbroken_lines (hp : Leaf.Unbroken c.package.leaves) (hblock : ∀ r, Yields Text.Unbroken (block r))
    (template : Property) {name : String} (hname : OneLine name) {v : Value} (hv : Leaf.Unbroken v.leaves) :
    Yields (fun lines => ∀ t ∈ lines, Text.Unbroken t) (v.lines c block template name) := by
  have hexport : Yields (fun lines => ∀ t ∈ lines, Text.Unbroken t) (v.exportBlock c.package block template) := by
    cases v with
    | object r =>
      refine .step fun needed _ => ?_
      split
      · exact (hblock r).bind fun t ht => .pure (by simpa using ht)
      · exact .pure (by simp)
    | _ => exact .pure (by simp)
  refine hexport.bind fun lines hlines => (Value.oneLine_literal hp template v hv).bind fun s hs => .pure ?_
  refine List.forall_mem_append.mpr ⟨hlines, ?_⟩
  simp +decide [hname, hs]

theorem Value.unbroken_elementLines (hp : Leaf.Unbroken c.package.leaves)
    (hblock : ∀ r, Yields Text.Unbroken (block r)) (element : Property) {name : String} (hname : OneLine name)
    (i : Nat) {vs : List Value} (hvs : ∀ v ∈ vs, Leaf.Unbroken v.leaves) :
    Yields (fun lines => ∀ t ∈ lines, Text.Unbroken t) (Value.elementLines c block element name i vs) := by
  induction vs generalizing i with
  | nil => exact .pure (by simp)
  | cons v vs ih =>
    obtain ⟨hv, hvs⟩ := List.forall_mem_cons.mp hvs
    have hindexed : OneLine (name ++ "(" ++ toString i ++ ")") := by simp +decide [hname]
    exact (Value.unbroken_lines hp hblock element hindexed hv).bind fun a ha => (ih (i + 1) hvs).bind fun b hb =>
      .pure (List.forall_mem_append.mpr ⟨ha, hb⟩)

theorem Property.unbroken_slotLines (hp : Leaf.Unbroken c.package.leaves)
    (hblock : ∀ r, Yields Text.Unbroken (block r)) {p : Property} (hname : OneLine p.name) (i : Nat)
    {slot : Option Value} (hslot : ∀ v ∈ slot, Leaf.Unbroken v.leaves) :
    Yields (fun lines => ∀ t ∈ lines, Text.Unbroken t) (p.slotLines c block i slot) := by
  cases slot with
  | none =>
    refine (oneLine_unsetLiteral p).bind fun text htext => .pure ?_
    cases text with
    | none => simp
    | some s => simp +decide [oneLine_slotName hname i, htext s rfl]
  | some v =>
    have hv := hslot v rfl
    simp only [Property.slotLines]
    split
    · next elements element _ =>
      rw [Value.leaves, Value.listLeaves_eq, Leaf.unbroken_flatMap] at hv
      exact Value.unbroken_elementLines hp hblock element hname 0 hv
    · exact Value.unbroken_lines hp hblock p (oneLine_slotName hname i) hv

theorem Setting.unbroken_linesFrom (hp : Leaf.Unbroken c.package.leaves)
    (hblock : ∀ r, Yields Text.Unbroken (block r)) {s : Setting} (hs : Leaf.Unbroken s.leaves) (i count : Nat) :
    Yields (fun lines => ∀ t ∈ lines, Text.Unbroken t) (s.linesFrom c block i count) := by
  obtain ⟨htemplate, hslots⟩ := Setting.unbroken_leaves hs
  induction count generalizing i with
  | zero => exact .pure (by simp)
  | succ count ih =>
    have hslot : ∀ v ∈ s.slot i, Leaf.Unbroken v.leaves :=
      fun v hv => hslots v (List.mem_of_getElem? (Option.join_eq_some_iff.mp hv))
    exact (Property.unbroken_slotLines hp hblock (Property.unbroken_leaves.mp htemplate).1 i hslot).bind
      fun a ha => (ih (i + 1)).bind fun b hb => .pure (List.forall_mem_append.mpr ⟨ha, hb⟩)

theorem Setting.unbroken_lines (hp : Leaf.Unbroken c.package.leaves) (hblock : ∀ r, Yields Text.Unbroken (block r))
    {settings : List Setting} (h : Leaf.Unbroken (Setting.listLeaves settings)) :
    Yields (fun lines => ∀ t ∈ lines, Text.Unbroken t) (Setting.lines c block settings) := by
  induction settings with
  | nil => exact .pure (by simp)
  | cons s rest ih =>
    rw [Setting.listLeaves, Leaf.unbroken_append] at h
    exact (Setting.unbroken_linesFrom hp hblock h.1 0 _).bind fun a ha => (ih h.2).bind fun b hb =>
      .pure (List.forall_mem_append.mpr ⟨ha, hb⟩)

theorem Setting.unbroken_text (hp : Leaf.Unbroken c.package.leaves) (hblock : ∀ r, Yields Text.Unbroken (block r))
    (indent : Nat) {settings : List Setting} (h : Leaf.Unbroken (Setting.listLeaves settings)) :
    Yields Text.Unbroken (Setting.text c block indent settings) :=
  (Setting.unbroken_lines hp hblock h).bind fun _ hlines =>
    .pure (Text.unbroken_join Text.unbroken_line hlines)

end Settings

/-! Brushes. -/

section Brushes
variable {p : Package} (hp : Leaf.Unbroken p.leaves)

include hp

theorem Polygon.unbroken_text {polygon : Polygon} (h : OneLine polygon.itemName) (indent : Nat) :
    Yields Text.Unbroken (polygon.text p indent) := by
  have hitem : OneLine polygon.itemWord := by
    unfold itemWord
    split_ifs <;> simp +decide [h]
  have hflags : OneLine polygon.flagsWord := by
    unfold flagsWord
    split_ifs <;> simp +decide
  have htexture : Yields OneLine (polygon.textureWord p) := by
    unfold textureWord
    split_ifs
    · exact .pure (by decide)
    · exact (Package.oneLine_fullName hp _).bind fun s hs => .pure (by simp +decide [hs])
  have hheader : Yields OneLine (polygon.header p) :=
    htexture.bind fun s hs => .pure (by simp +decide [hitem, hs, hflags])
  have hvectors : ∀ v ∈ polygon.vectors, OneLine v.1 := by
    simp +decide [vectors, or_imp, forall_and]
  refine hheader.bind fun s hs => .pure ?_
  rw [Text.unbroken_append, Text.unbroken_append]
  refine ⟨⟨by simp [hs], Text.unbroken_flatMap fun v hv => ?_⟩, by simp +decide⟩
  simp +decide [hvectors v hv, Vec3.text]

theorem Polygon.unbroken_listText {polygons : List Polygon} (h : ∀ polygon ∈ polygons, OneLine polygon.itemName)
    (indent : Nat) : Yields Text.Unbroken (Polygon.listText p indent polygons) := by
  induction polygons with
  | nil => exact .pure Text.unbroken_nil
  | cons polygon rest ih =>
    obtain ⟨hfirst, hrest⟩ := List.forall_mem_cons.mp h
    exact (Polygon.unbroken_text hp hfirst indent).bind fun a ha => (ih hrest).bind fun b hb =>
      .pure (by simp [ha, hb])

theorem Package.oneLine_findPolygons {bytes : List UInt8} {polygons : List Polygon}
    (h : p.findPolygons bytes = some polygons) : ∀ polygon ∈ polygons, OneLine polygon.itemName := by
  obtain ⟨position, -, hfound⟩ := List.exists_of_findSome?_eq_some h
  obtain ⟨index, -, hfound⟩ := Option.bind_eq_some_iff.mp hfound
  unfold polygonsAt at hfound
  split at hfound
  · next e hentry =>
    have hpayload : e.payload = some (.polygons polygons) := by grind
    have hunbroken := ((unbroken_parts hp).2.2.1 e (mem_exports_of_entry hentry)).2 _ hpayload
    simp only [Payload.leaves, Polygon.leaves, Leaf.unbroken_flatMap, Leaf.unbroken_append,
      Leaf.unbroken_string] at hunbroken
    exact fun polygon hpolygon => (hunbroken polygon hpolygon).2.1
  · simp at hfound

theorem Package.unbroken_brushText (r : Reference) {e : Export} (he : OneLine e.name) (o : ObjectInstance)
    (indent : Nat) : Yields Text.Unbroken (p.brushText r e o indent) := by
  unfold brushText
  split
  · exact .error _
  · next polygons hpolygons =>
    refine (Polygon.unbroken_listText hp (oneLine_findPolygons hp hpolygons) (indent + 2)).bind fun t ht => .pure ?_
    simp +decide [he, ht]

end Brushes

/-! Classes. -/

theorem Package.oneLine_blockWord (p : Package) (e : Export) : Yields OneLine (p.blockWord e) :=
  .step fun _ _ => .pure (by split <;> decide)

namespace Context

variable {c : Context} (hp : Leaf.Unbroken c.package.leaves)

include hp

/-- Blocks inside one another have no line feeds of their own. -/
theorem unbroken_objectBlock (budget indent : Nat) (r : Reference) :
    Yields Text.Unbroken (c.objectBlock budget indent r) := by
  induction budget generalizing indent r with
  | zero => exact .error _
  | succ budget ih =>
    unfold objectBlock
    refine .step fun e he => ?_
    have hentry := Package.entry_of_exportOf he
    obtain ⟨hname, hpayload⟩ := (Package.unbroken_parts hp).2.2.1 e (Package.mem_exports_of_entry hentry)
    refine (Package.oneLine_className hp hentry).bind fun className hclass => ?_
    split
    · next o ho =>
      split
      · exact Package.unbroken_brushText hp r hname o indent
      · refine (Package.oneLine_blockWord c.package e).bind fun word hword => ?_
        refine (Setting.unbroken_text hp (fun r => ih (indent + 1) r) (indent + 1) (hpayload _ ho)).bind
          fun body hbody => .pure ?_
        simp +decide [hword, hclass, hname, hbody]
    · exact .step fun _ _ => .error _

theorem unbroken_settingsText (indent : Nat) {settings : List Setting}
    (h : Leaf.Unbroken (Setting.listLeaves settings)) : Yields Text.Unbroken (c.settingsText indent settings) :=
  Setting.unbroken_text hp (fun r => unbroken_objectBlock hp _ indent r) indent h

end Context

namespace Package

end Package

end ScriptLift
