import ScriptLift.Proofs.Leaves
import ScriptLift.Proofs.TextErrors
import ScriptLift.Stored.ObjectBlock

/- Strings on one line.

   A string that is put into the text is a word of the language, a number, a string of the
   data, or made from these, and only the data could bring in a line feed. The functions
   that make such strings are taken in turn, from digits to tokens and to the literals of
   stored values; those that can fail give a string on one line where they give one
   (`Yields OneLine`). -/
namespace ScriptLift

/-- The string has no line feed. -/
def OneLine (s : String) : Prop := '\n' ∉ s.toList

instance (s : String) : Decidable (OneLine s) := inferInstanceAs (Decidable (_ ∉ _))

section Strings
variable {a b : String} {l : List String}

@[simp] theorem oneLine_append : OneLine (a ++ b) ↔ OneLine a ∧ OneLine b := by
  simp [OneLine]

@[simp] theorem oneLine_ofList {cs : List Char} : OneLine (String.ofList cs) ↔ '\n' ∉ cs := by
  simp [OneLine]

theorem oneLine_intercalate (ha : OneLine a) (hl : ∀ s ∈ l, OneLine s) : OneLine (a.intercalate l) := by
  induction l with
  | nil => simp [OneLine]
  | cons s l ih =>
    cases l with
    | nil => simpa using hl s (by simp)
    | cons t l =>
      rw [String.intercalate_cons_cons, oneLine_append, oneLine_append]
      exact ⟨⟨hl s (by simp), ha⟩, ih fun u hu => hl u (List.mem_cons_of_mem _ hu)⟩

theorem oneLine_join (hl : ∀ s ∈ l, OneLine s) : OneLine (String.join l) := by
  simpa [OneLine] using hl

end Strings

/-! Numbers. -/

theorem exists_digit_of_mem_toDigits {base n : Nat} (h : 1 < base) {c : Char} (hc : c ∈ base.toDigits n) :
    ∃ d < base, c = d.digitChar := by
  induction n using Nat.strongRecOn with
  | ind n ih =>
    rw [Nat.toDigits_eq_if h] at hc
    split at hc
    · next hn => exact ⟨n, hn, by simpa using hc⟩
    · next hn =>
      rcases List.mem_append.mp hc with hc | hc
      · exact ih _ (Nat.div_lt_self (by omega) h) hc
      · exact ⟨n % base, Nat.mod_lt _ (by omega), by simpa using hc⟩

@[simp] theorem oneLine_repr (n : Nat) : OneLine n.repr := by
  rw [Nat.repr_eq_ofList_toDigits, oneLine_ofList]
  have hdigit : ∀ d < 10, '\n' ≠ Nat.digitChar d := by decide
  intro hc
  obtain ⟨d, hd, heq⟩ := exists_digit_of_mem_toDigits (by decide) hc
  exact hdigit d hd heq

@[simp] theorem oneLine_repr_int (i : Int) : OneLine i.repr := by
  cases i with
  | ofNat n => exact oneLine_repr n
  | negSucc n =>
    show OneLine ("-" ++ (n + 1).repr)
    simp +decide

@[simp] theorem oneLine_hexOffset (n : UInt32) : OneLine (Token.hexOffset n) := by
  have hupper : ∀ d < 16, (Nat.digitChar d).toUpper ≠ '\n' := by decide
  have hdigits : '\n' ∉ (Nat.toDigits 16 n.toNat).map Char.toUpper := by
    intro hc
    obtain ⟨c, hc, heq⟩ := List.mem_map.mp hc
    obtain ⟨d, hd, rfl⟩ := exists_digit_of_mem_toDigits (by decide) hc
    exact hupper d hd heq
  simp only [Token.hexOffset, oneLine_append, oneLine_ofList, List.mem_append, not_or]
  refine ⟨by decide, fun hzero => ?_, hdigits⟩
  exact absurd (List.eq_of_mem_replicate hzero) (by decide)

theorem lineFeed_notMem_digits (ds : List Digit) : '\n' ∉ ds.map Digit.char := by
  have hdigit : ∀ d : Digit, d.char ≠ '\n' := by decide
  intro hc
  obtain ⟨d, -, heq⟩ := List.mem_map.mp hc
  exact hdigit d heq

@[simp] theorem oneLine_numeral (n : Numeral) : OneLine n.text := by
  unfold Numeral.text
  have hsign : '\n' ∉ (if n.negative then ['-'] else []) := by split <;> simp
  have hfraction : '\n' ∉ (if n.fraction.isEmpty then [] else '.' :: n.fraction.map Digit.char) := by
    split
    · simp
    · simpa using lineFeed_notMem_digits n.fraction
  simp only [oneLine_ofList, List.mem_append, not_or]
  exact ⟨⟨hsign, lineFeed_notMem_digits n.whole⟩, hfraction⟩

namespace Single

@[simp] theorem oneLine_literal (x : Single) : OneLine x.literal := by
  unfold literal notFinite
  split_ifs
  · exact oneLine_numeral _
  all_goals decide

@[simp] theorem oneLine_coordinate (x : Single) : OneLine x.coordinate := by
  have hsign : OneLine x.sign := by
    unfold sign
    split_ifs <;> decide
  have hdigits : OneLine (if x.isFinite then x.rounded.text else if x.isNaN then "NaN" else "inf") := by
    split_ifs
    · exact oneLine_numeral _
    all_goals decide
  simp only [coordinate, zeroFill, oneLine_append, oneLine_ofList]
  refine ⟨⟨hsign, fun hzero => ?_⟩, hdigits⟩
  exact absurd (List.eq_of_mem_replicate hzero) (by decide)

end Single

/-! Names. -/

theorem oneLine_shortName {path : String} (h : OneLine path) : OneLine (shortName path) := by
  unfold shortName
  rw [oneLine_ofList, List.mem_reverse]
  exact fun hc => h (List.mem_reverse.mp ((List.takeWhile_sublist _).subset hc))

theorem oneLine_extendPath {path name : String} (hpath : OneLine path) (hname : OneLine name) :
    OneLine (extendPath path name) := by
  simp +decide [extendPath, hpath, hname]

/-! Computations that may fail. -/

/-- The result has the property, if there is one. -/
def Yields {α : Type} (P : α → Prop) (x : Except Error α) : Prop := ∀ a, x = .ok a → P a

namespace Yields

variable {α β : Type} {P : α → Prop} {Q : β → Prop} {x : Except Error α}

theorem ok {a : α} (h : P a) : Yields P (.ok a) := fun _ heq => Except.ok.inj heq ▸ h

theorem pure {a : α} (h : P a) : Yields P (Pure.pure a) := ok h

theorem error (e : Error) : Yields P (.error e) := fun _ heq => by simp at heq

theorem bind {f : α → Except Error β} (hx : Yields P x) (hf : ∀ a, P a → Yields Q (f a)) :
    Yields Q (x >>= f) := by
  cases x with
  | error e => exact error e
  | ok a => exact hf a (hx a rfl)

/-- A step of whose result nothing needs to be known. -/
theorem step {f : α → Except Error β} (hf : ∀ a, x = .ok a → Yields Q (f a)) : Yields Q (x >>= f) := by
  cases x with
  | error e => exact error e
  | ok a => exact hf a rfl

theorem map {f : α → β} (hx : Yields P x) (hf : ∀ a, P a → Q (f a)) : Yields Q (x.map f) := by
  cases x with
  | error e => exact error e
  | ok a => exact ok (hf a (hx a rfl))

end Yields

/-! The strings of the data. -/

namespace Leaf

/-- No string among the leaves has a line feed. -/
def Unbroken (leaves : List Leaf) : Prop := ∀ s ∈ strings leaves, OneLine s

instance (leaves : List Leaf) : Decidable (Unbroken leaves) :=
  inferInstanceAs (Decidable (∀ s ∈ strings leaves, OneLine s))

variable {leaves more : List Leaf}

theorem unbroken_iff : Unbroken leaves ↔ ∀ s, .string s ∈ leaves → OneLine s := by
  simp only [Unbroken, mem_strings]

@[simp] theorem unbroken_nil : Unbroken [] := by simp [unbroken_iff]

@[simp] theorem unbroken_string (s : String) : Unbroken (.string s :: leaves) ↔ OneLine s ∧ Unbroken leaves := by
  simp [unbroken_iff, or_imp, forall_and]

@[simp] theorem unbroken_single (x : Single) : Unbroken (.single x :: leaves) ↔ Unbroken leaves := by
  simp [unbroken_iff]

@[simp] theorem unbroken_append : Unbroken (leaves ++ more) ↔ Unbroken leaves ∧ Unbroken more := by
  simp [unbroken_iff, or_imp, forall_and]

@[simp] theorem unbroken_flatMap {α : Type} {l : List α} {f : α → List Leaf} :
    Unbroken (l.flatMap f) ↔ ∀ a ∈ l, Unbroken (f a) := by
  simp only [unbroken_iff, List.mem_flatMap]
  exact ⟨fun h a ha s hs => h s ⟨a, ha, hs⟩, fun h s ⟨a, ha, hs⟩ => h a ha s hs⟩

@[simp] theorem unbroken_map_string {l : List String} : Unbroken (l.map .string) ↔ ∀ s ∈ l, OneLine s := by
  simp [unbroken_iff]

@[simp] theorem unbroken_ofName? {name : Option String} :
    Unbroken (ofName? name) ↔ ∀ s ∈ name, OneLine s := by
  simp [ofName?, unbroken_iff]

end Leaf

theorem Property.unbroken_leaves {p : Property} :
    Leaf.Unbroken p.leaves ↔ OneLine p.name ∧ Leaf.Unbroken p.kind.leaves ∧ ∀ s ∈ p.category, OneLine s := by
  cases p
  simp only [Property.leaves, List.cons_append, Leaf.unbroken_string, Leaf.unbroken_append, Leaf.unbroken_ofName?]

/-! Tokens. -/

namespace Token

@[simp] theorem oneLine_parenthesized (t : Token) (text : String) :
    OneLine (parenthesized t text) ↔ OneLine text := by
  unfold parenthesized
  split <;> simp +decide

section Render
variable {link : Reference → Except Error String}

mutual

/-- The text of a token is one line where object literals and the strings in the token are. -/
theorem oneLine_render (hlink : ∀ r, Yields OneLine (link r)) : ∀ t : Token, Leaf.Unbroken t.leaves →
    Yields OneLine (t.render link)
  | .localVariable name | .instanceVariable name => by
    intro h
    simp only [leaves, Leaf.unbroken_string] at h
    exact .pure h.1
  | .defaultVariable name | .stringConst name | .nameConst name => by
    intro h
    simp only [leaves, Leaf.unbroken_string] at h
    exact .pure (by simp +decide [h.1])
  | .selfObject | .noObject | .nothing | .boolConst true | .boolConst false | .stop | .iteratorNext
  | .iteratorPop | .case _ none => fun _ => .pure (by decide)
  | .intConst _ | .byteConst _ | .floatConst _ | .vectorConst _ | .rotatorConst _ _ _ | .jump _ =>
    fun _ => .pure (by simp +decide)
  | .objectConst r => fun _ => hlink r
  | .assign lhs rhs | .context lhs rhs | .element lhs rhs => by
    intro h
    simp only [leaves, Leaf.unbroken_append] at h
    exact (oneLine_render hlink lhs h.1).bind fun a ha => (oneLine_render hlink rhs h.2).bind fun b hb =>
      .pure (by simp +decide [ha, hb])
  | .binary op lhs rhs => by
    intro h
    simp only [leaves, List.cons_append, Leaf.unbroken_string, Leaf.unbroken_append] at h
    exact (oneLine_render hlink lhs h.2.1).bind fun a ha => (oneLine_render hlink rhs h.2.2).bind fun b hb =>
      .pure (by simp +decide [ha, hb, h.1])
  | .call name params | .globalCall name params => by
    intro h
    simp only [leaves, Leaf.unbroken_string] at h
    refine (oneLine_renderList hlink params h.2).bind fun texts htexts => .pure ?_
    have hparams : OneLine (", ".intercalate texts) := oneLine_intercalate (by decide) htexts
    simp +decide [h.1, hparams]
  | .prefixOp op operand | .postfixOp op operand | .dynamicCast op operand | .metaCast op operand => by
    intro h
    simp only [leaves, Leaf.unbroken_string] at h
    exact (oneLine_render hlink operand h.2).bind fun a ha => .pure (by simp +decide [ha, h.1])
  | .jumpIfNot _ operand | .iterator operand _ | .switch operand => by
    intro h
    simp only [leaves] at h
    exact (oneLine_render hlink operand h).bind fun a ha => .pure (by simp +decide [ha])
  | .ret value => by
    intro h
    by_cases hvalue : value = .nothing
    · subst hvalue
      exact .pure (by decide)
    · simp only [leaves] at h
      rw [render]
      · exact (oneLine_render hlink value h).bind fun a ha => .pure (by simp +decide [ha])
      · exact hvalue
  | .case next (some value) => by
    intro h
    simp only [leaves] at h
    rw [render]
    split
    · exact .pure (by decide)
    · exact (oneLine_render hlink value h).bind fun a ha => .pure (by simp +decide [ha])

theorem oneLine_renderList (hlink : ∀ r, Yields OneLine (link r)) : ∀ ts : List Token,
    Leaf.Unbroken (listLeaves ts) → Yields (fun texts => ∀ s ∈ texts, OneLine s) (renderList link ts)
  | [] => fun _ => .pure (by simp)
  | t :: ts => by
    intro h
    simp only [listLeaves, Leaf.unbroken_append] at h
    refine (oneLine_render hlink t h.1).bind fun a ha => (oneLine_renderList hlink ts h.2).bind fun b hb => ?_
    exact .pure (List.forall_mem_cons.mpr ⟨ha, hb⟩)

end

end Render

end Token

/-! The directory. -/

namespace Package

variable {p : Package} {r : Reference}

theorem mem_imports_of_entry {i : Import} (h : p.entry r = .ok (some (.imported i))) : i ∈ p.imports := by
  unfold entry at h
  grind [List.mem_of_getElem?]

theorem mem_exports_of_entry {e : Export} (h : p.entry r = .ok (some (.exported e))) : e ∈ p.exports := by
  unfold entry at h
  grind [List.mem_of_getElem?]

theorem entry_of_exportOf {e : Export} (h : p.exportOf r = .ok e) : p.entry r = .ok (some (.exported e)) := by
  unfold exportOf at h
  cases hentry : p.entry r with
  | error err =>
    rw [hentry] at h
    exact absurd h (by simp [bind, Except.bind])
  | ok found =>
    rw [hentry] at h
    match found, h with
    | some (.exported _), h => rw [Except.ok.inj h]

/-- The parts of a package whose strings are written. -/
theorem unbroken_parts (h : Leaf.Unbroken p.leaves) :
    OneLine p.name ∧ (∀ i ∈ p.imports, OneLine i.name ∧ OneLine i.className) ∧
      (∀ e ∈ p.exports, OneLine e.name ∧ ∀ payload ∈ e.payload, Leaf.Unbroken payload.leaves) ∧
      ∀ entry ∈ p.enums.entries, Leaf.Unbroken entry.2.leaves := by
  simp only [leaves, Import.leaves, Export.leaves, Table.leaves, List.cons_append, Leaf.unbroken_string,
    Leaf.unbroken_append, Leaf.unbroken_flatMap, Option.mem_toList] at h
  obtain ⟨hname, ⟨⟨himports, hexports⟩, -⟩, henums⟩ := h
  exact ⟨hname, fun i hi => ⟨(himports i hi).1, (himports i hi).2.2.1⟩, hexports,
    fun entry hentry => (henums entry hentry).2⟩

variable (hp : Leaf.Unbroken p.leaves)

include hp

theorem oneLine_entry : Yields (fun e => ∀ entry ∈ e, OneLine entry.name) (p.entry r) := by
  obtain ⟨-, himports, hexports, -⟩ := unbroken_parts hp
  rintro e he (i | x) hentry
  · exact (himports i (mem_imports_of_entry (he.trans (congrArg _ hentry)))).1
  · exact (hexports x (mem_exports_of_entry (he.trans (congrArg _ hentry)))).1

theorem oneLine_namesOutward (start : Reference) (fuel : Nat) (r : Reference) :
    Yields (fun names => ∀ s ∈ names, OneLine s) (p.namesOutward start fuel r) := by
  induction fuel generalizing r with
  | zero =>
    refine (oneLine_entry hp).bind fun e he => ?_
    cases e with
    | none => exact .pure (by simp)
    | some e => exact .error _
  | succ fuel ih =>
    refine (oneLine_entry hp).bind fun e he => ?_
    cases e with
    | none => exact .pure (by simp)
    | some e => exact (ih e.outer).bind fun names hnames => .pure (List.forall_mem_cons.mpr ⟨he e rfl, hnames⟩)

theorem oneLine_innerName (r : Reference) : Yields OneLine (p.innerName r) :=
  (oneLine_namesOutward hp r _ r).bind fun names hnames =>
    .pure (oneLine_intercalate (by decide) fun s hs => hnames s (List.mem_reverse.mp hs))

theorem oneLine_fullName (r : Reference) : Yields OneLine (p.fullName r) := by
  refine .step fun e _ => ?_
  match e with
  | none => exact .pure (by decide)
  | some (.imported _) => exact oneLine_innerName hp r
  | some (.exported _) =>
    exact (oneLine_innerName hp r).bind fun s hs => .pure (oneLine_extendPath (unbroken_parts hp).1 hs)

theorem oneLine_className {e : Entry} (he : p.entry r = .ok (some e)) : Yields OneLine (p.className e) := by
  cases e with
  | imported i =>
    exact .ok ((unbroken_parts hp).2.1 i (mem_imports_of_entry he)).2
  | exported x =>
    refine (oneLine_entry hp).bind fun c hc => ?_
    cases c with
    | none => exact .pure (by decide)
    | some c => exact .pure (hc c rfl)

end Package

theorem Context.oneLine_link {c : Context} (hp : Leaf.Unbroken c.package.leaves) (r : Reference) :
    Yields OneLine (c.link r) := by
  refine .step fun e he => ?_
  cases e with
  | none => exact .pure (by decide)
  | some e =>
    have hpath : Yields OneLine (c.pathOf r e) := by
      cases e with
      | imported i => exact Package.oneLine_fullName hp r
      | exported x =>
        simp only [pathOf]
        split
        · exact (Package.oneLine_innerName hp r).bind fun s hs => .pure (oneLine_extendPath (by decide) hs)
        · exact Package.oneLine_fullName hp r
    exact (Package.oneLine_className hp he).bind fun a ha => hpath.bind fun b hb => .pure (by simp +decide [ha, hb])

/-! Enums. -/

namespace Package

mutual

theorem unbroken_memberEnums (path : String) : ∀ m : Member, Leaf.Unbroken m.leaves →
    ∀ e ∈ memberEnums path m, Leaf.Unbroken e.2.leaves
  | .enum e => by
    intro h
    simp only [memberEnums, Member.leaves] at h ⊢
    simpa using h
  | .struct s | .state s => by
    intro h
    simp only [memberEnums, Member.leaves] at h ⊢
    exact unbroken_scopeEnums path s h
  | .const _ | .property _ | .function _ => by simp [memberEnums]

theorem unbroken_scopeEnums (path : String) : ∀ s : Scope, Leaf.Unbroken s.leaves →
    ∀ e ∈ scopeEnums path s, Leaf.Unbroken e.2.leaves
  | ⟨name, _, members⟩ => by
    intro h
    simp only [scopeEnums, Scope.leaves, List.cons_append, Leaf.unbroken_string, Leaf.unbroken_append] at h ⊢
    exact unbroken_membersEnums _ members h.2.2

theorem unbroken_membersEnums (path : String) : ∀ ms : List Member, Leaf.Unbroken (Member.listLeaves ms) →
    ∀ e ∈ membersEnums path ms, Leaf.Unbroken e.2.leaves
  | [] => by simp [membersEnums]
  | m :: ms => by
    intro h
    simp only [membersEnums, Member.listLeaves, Leaf.unbroken_append] at h ⊢
    exact List.forall_mem_append.mpr ⟨unbroken_memberEnums path m h.1, unbroken_membersEnums path ms h.2⟩

end

variable {p : Package} (hp : Leaf.Unbroken p.leaves)

include hp

theorem unbroken_classes {decl : ClassDecl} (h : decl ∈ p.classes) : Leaf.Unbroken decl.leaves := by
  obtain ⟨x, hx, hdecl⟩ := List.mem_filterMap.mp h
  cases hpayload : x.payload with
  | none => simp [hpayload] at hdecl
  | some payload =>
    cases payload with
    | classDecl c =>
      rw [hpayload] at hdecl
      have hunbroken := ((unbroken_parts hp).2.2.1 x hx).2 _ hpayload
      exact Option.some.inj hdecl ▸ hunbroken
    | _ => simp [hpayload] at hdecl

theorem unbroken_findEnum (name : String) :
    Yields (fun e => Leaf.Unbroken e.leaves) (p.findEnum name) := by
  have hdeclared : ∀ e ∈ p.declaredEnums, Leaf.Unbroken e.2.leaves := by
    intro e he
    obtain ⟨decl, hdecl, he⟩ := List.mem_flatMap.mp he
    have hunbroken := unbroken_classes hp hdecl
    simp only [ClassDecl.leaves, List.cons_append, Leaf.unbroken_string, Leaf.unbroken_append] at hunbroken
    exact unbroken_membersEnums _ _ hunbroken.2.1.2 e he
  unfold findEnum
  split
  · next e hfind =>
    rcases List.mem_append.mp (List.mem_of_find?_eq_some hfind) with h | h
    · exact .ok (hdeclared _ h)
    · exact .ok ((unbroken_parts hp).2.2.2 _ h)
  · exact .error _

theorem oneLine_enumLiteral (path : String) (ordinal : UInt8) :
    Yields OneLine (p.enumLiteral path ordinal) := by
  refine (unbroken_findEnum hp path).bind fun e he => ?_
  simp only [EnumDecl.leaves, Leaf.unbroken_string, Leaf.unbroken_map_string] at he
  split
  · next literal hliteral => exact .pure (he.2 literal (List.mem_of_getElem? hliteral))
  · exact .error _

end Package

/-! Literals of stored values. -/

namespace Property

theorem oneLine_slotName {p : Property} (h : OneLine p.name) (i : Nat) : OneLine (p.slotName i) := by
  unfold slotName
  split
  · simp +decide [h]
  · exact h

theorem oneLine_unsetLiteral (p : Property) : Yields (fun text => ∀ s ∈ text, OneLine s) p.unsetLiteral := by
  unfold unsetLiteral
  split
  · exact .ok (by simp)
  · exact .ok (by decide)
  · exact .ok (by decide)
  · exact .error _

theorem oneLine_slotParts {p : Property} (hname : OneLine p.name)
    {stored : List (Option (Except Error String))} (h : ∀ x, some x ∈ stored → Yields OneLine x) (i count : Nat) :
    Yields (fun parts => ∀ s ∈ parts, OneLine s) (p.slotParts stored i count) := by
  induction count generalizing i with
  | zero => exact .pure (by simp)
  | succ count ih =>
    have hrest : ∀ text : Option String, (∀ s ∈ text, OneLine s) → Yields (fun parts => ∀ s ∈ parts, OneLine s)
        (do return (text.map (p.slotName i ++ "=" ++ ·)).toList ++ (← p.slotParts stored (i + 1) count)) := by
      intro text htext
      refine (ih (i + 1)).bind fun rest hrest => .pure (List.forall_mem_append.mpr ⟨?_, hrest⟩)
      cases text with
      | none => simp
      | some s => simp +decide [oneLine_slotName hname i, htext s rfl]
    unfold slotParts
    cases hs : stored[i]?.join with
    | none => exact (oneLine_unsetLiteral p).bind hrest
    | some literal =>
      have hmem : some literal ∈ stored := List.mem_of_getElem? (Option.join_eq_some_iff.mp hs)
      have hliteral : Yields (fun text => ∀ s ∈ text, OneLine s) (literal.map some) :=
        (h _ hmem).map fun s hs => by simpa using hs
      exact hliteral.bind hrest

end Property

section Literals
variable {c : Context}

mutual

/-- The literal of a value is one line where the strings of the value and of the package are. -/
theorem Value.oneLine_literal (hp : Leaf.Unbroken c.package.leaves) (template : Property) : ∀ v : Value,
    Leaf.Unbroken v.leaves → Yields OneLine (v.literal c template)
  | .byte ordinal => by
    intro _
    simp only [Value.literal]
    split
    · exact Package.oneLine_enumLiteral hp _ _
    · exact .ok (by simp)
    · exact .error _
  | .int value => by
    intro _
    simp only [Value.literal]
    split
    · exact .ok (by simp)
    · exact .error _
  | .bool value => by
    intro _
    simp only [Value.literal]
    split
    · exact .ok (by split <;> decide)
    · exact .error _
  | .float value => by
    intro _
    simp only [Value.literal]
    split
    · exact .ok value.oneLine_literal
    · exact .error _
  | .name value | .string value => by
    intro h
    simp only [Value.leaves, Leaf.unbroken_string] at h
    simp only [Value.literal]
    split
    · exact .ok (by simp +decide [h.1])
    · exact .error _
  | .object reference => by
    intro _
    simp only [Value.literal]
    split
    · exact Context.oneLine_link hp reference
    · exact Context.oneLine_link hp reference
    · exact .error _
  | .array elements => by
    intro h
    simp only [Value.leaves] at h
    simp only [Value.literal]
    split
    · refine (Value.oneLine_literals hp _ elements h).bind fun texts htexts => .pure ?_
      simp +decide [oneLine_intercalate (a := ",") (by decide) htexts]
    · exact .error _
  | .struct fields => by
    intro h
    simp only [Value.leaves] at h
    simp only [Value.literal]
    split
    · refine (Setting.oneLine_literals hp fields h).bind fun texts htexts => .pure ?_
      simp +decide [oneLine_intercalate (a := ",") (by decide) htexts]
    · exact .error _

theorem Value.oneLine_literals (hp : Leaf.Unbroken c.package.leaves) (template : Property) : ∀ vs : List Value,
    Leaf.Unbroken (Value.listLeaves vs) → Yields (fun texts => ∀ s ∈ texts, OneLine s) (Value.literals c template vs)
  | [] => by
    intro _
    simp only [Value.literals]
    exact .pure (by simp)
  | v :: vs => by
    intro h
    simp only [Value.listLeaves, Leaf.unbroken_append] at h
    simp only [Value.literals]
    exact (Value.oneLine_literal hp template v h.1).bind fun a ha =>
      (Value.oneLine_literals hp template vs h.2).bind fun b hb => .pure (List.forall_mem_cons.mpr ⟨ha, hb⟩)

theorem Value.oneLine_slotLiterals (hp : Leaf.Unbroken c.package.leaves) (template : Property) :
    ∀ vs : List (Option Value), Leaf.Unbroken (Value.slotLeaves vs) →
      ∀ x, some x ∈ Value.slotLiterals c template vs → Yields OneLine x
  | [] => by simp [Value.slotLiterals]
  | none :: vs => by
    intro h x hx
    simp only [Value.slotLeaves] at h
    simp only [Value.slotLiterals, List.mem_cons, reduceCtorEq, false_or] at hx
    exact Value.oneLine_slotLiterals hp template vs h x hx
  | some v :: vs => by
    intro h x hx
    simp only [Value.slotLeaves, Leaf.unbroken_append] at h
    simp only [Value.slotLiterals, List.mem_cons, Option.some.injEq] at hx
    rcases hx with rfl | hx
    · exact Value.oneLine_literal hp template v h.1
    · exact Value.oneLine_slotLiterals hp template vs h.2 x hx

theorem Setting.oneLine_literal (hp : Leaf.Unbroken c.package.leaves) : ∀ s : Setting,
    Leaf.Unbroken s.leaves → Yields (fun text => ∀ s ∈ text, OneLine s) (s.literal c)
  | ⟨template, slots⟩ => by
    intro h
    simp only [Setting.leaves, Leaf.unbroken_append, Property.unbroken_leaves] at h
    simp only [Setting.literal]
    have hstored := Value.oneLine_slotLiterals hp template slots h.2
    refine (Property.oneLine_slotParts h.1.1 hstored 0 template.slotCount).bind fun parts hparts => ?_
    cases parts with
    | nil => exact .pure (by simp)
    | cons s rest => exact .pure (by simpa using oneLine_intercalate (by decide) hparts)

theorem Setting.oneLine_literals (hp : Leaf.Unbroken c.package.leaves) : ∀ ss : List Setting,
    Leaf.Unbroken (Setting.listLeaves ss) → Yields (fun texts => ∀ s ∈ texts, OneLine s) (Setting.literals c ss)
  | [] => by
    intro _
    simp only [Setting.literals]
    exact .pure (by simp)
  | s :: ss => by
    intro h
    simp only [Setting.listLeaves, Leaf.unbroken_append] at h
    simp only [Setting.literals]
    refine (Setting.oneLine_literal hp s h.1).bind fun a ha =>
      (Setting.oneLine_literals hp ss h.2).bind fun b hb => .pure (List.forall_mem_append.mpr ⟨?_, hb⟩)
    exact fun s hs => ha s (Option.mem_toList.mp hs)

end

end Literals

end ScriptLift
