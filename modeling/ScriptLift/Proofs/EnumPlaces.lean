import Mathlib.Data.List.Pairwise
import ScriptLift.Proofs.KindOrder

/- Where the body of an enum stands.

   Two lookups decide it, each on its own: whether an enum has a line (`Owner.omits`), and
   whether a variable has the body of an enum for its type (`Owner.carriedEnum`). The lines
   that are written are the members `Owner.shown`, in that order, and `Owner.bears` reads off
   a line (`Owner.line`) whether it has the body. With distinct names the two lookups agree, so
   each body is in one line. The line is that of the first variable typed with the enum, which
   need not be the first that needs it: lists of the enum, and structs that have variables of
   it, may come before (`Owner.DeclaredFirst`). -/
namespace ScriptLift

/-! Types that name an enum. -/

/-- Whether the kind is that of the enum's values, or of lists of them at any depth. -/
def Kind.names (enumName : String) : Kind → Bool
  | .byte (some path) => sameName (shortName path) enumName
  | .array ⟨_, element, _, _, _, _⟩ => element.names enumName
  | _ => false

/-- Whether the variable holds a value of the enum itself. -/
def Property.typedWith (enumName : String) (p : Property) : Bool := p.enumName.any (sameName · enumName)

theorem Property.kind_of_typedWith {enumName : String} {p : Property} (h : p.typedWith enumName = true) :
    ∃ path, p.kind = .byte (some path) ∧ sameName (shortName path) enumName = true := by
  unfold typedWith Property.enumName at h
  split at h
  · next path hkind => exact ⟨path, hkind, h⟩
  · cases h

theorem Property.names_of_typedWith {enumName : String} {p : Property} (h : p.typedWith enumName = true) :
    p.kind.names enumName = true := by
  obtain ⟨path, hkind, hsame⟩ := kind_of_typedWith h
  rw [hkind, Kind.names, hsame]

mutual

/-- Whether a variable of the member has a type with the enum in it. -/
def Member.uses (enumName : String) : Member → Bool
  | .property p => p.kind.names enumName
  | .struct s => Scope.uses enumName s
  | _ => false

/-- Whether a variable of the struct or of a struct in it has such a type. An enum of that
name in the struct is the one that its own variables mean. -/
def Scope.uses (enumName : String) : Scope → Bool
  | ⟨_, _, members⟩ =>
    !(members.any fun
      | .enum e => sameName e.name enumName
      | _ => false) && Member.anyUses enumName members

def Member.anyUses (enumName : String) : List Member → Bool
  | [] => false
  | m :: rest => Member.uses enumName m || Member.anyUses enumName rest

end

/-! The lines of an owner. -/

namespace Member

def asEnum : Member → Option EnumDecl
  | .enum e => some e
  | _ => none

def asVariable : Member → Option Property
  | .property p => some p
  | _ => none

/-- The members in the order of writing. -/
def ranked (members : List Member) : List Member := [0, 1, 2, 3, 4, 5].flatMap (ofRank · members)

theorem asEnum_eq_some {m : Member} {e : EnumDecl} : m.asEnum = some e ↔ m = .enum e := by
  cases m <;> simp [asEnum]

theorem asVariable_eq_some {m : Member} {p : Property} : m.asVariable = some p ↔ m = .property p := by
  cases m <;> simp [asVariable]

theorem rank_mem (m : Member) : m.rank ∈ [0, 1, 2, 3, 4, 5] := by
  cases m <;> simp [rank]

theorem mem_ranked {members : List Member} {m : Member} : m ∈ ranked members ↔ m ∈ members := by
  simp only [ranked, ofRank, List.mem_flatMap, List.mem_filter, beq_iff_eq]
  constructor
  · rintro ⟨_, _, hm, _⟩
    exact hm
  · intro hm
    exact ⟨m.rank, m.rank_mem, hm, rfl⟩

theorem ranked_pairwise (members : List Member) : (ranked members).Pairwise (·.rank ≤ ·.rank) := by
  have hof {r : Nat} {m : Member} (hm : m ∈ ofRank r members) : m.rank = r := by
    simpa using (List.mem_filter.mp hm).2
  refine List.pairwise_flatMap.mpr ⟨fun r _ => ?_, ?_⟩
  · refine List.pairwise_of_forall_mem_list fun a ha b hb => ?_
    exact Nat.le_of_eq ((hof ha).trans (hof hb).symm)
  · have hlt : [0, 1, 2, 3, 4, 5].Pairwise (· < ·) := by decide
    refine hlt.imp fun {r s} hrs a ha b hb => ?_
    rw [hof ha, hof hb]
    exact Nat.le_of_lt hrs

/-- What selects members of one kind selects the same in the order of writing. -/
theorem filter_ranked {P : Member → Bool} {r : Nat} (hP : ∀ m, P m = true → m.rank = r)
    (members : List Member) : (ranked members).filter P = members.filter P := by
  have hof (k : Nat) : (ofRank k members).filter P = if k = r then members.filter P else [] := by
    rw [ofRank, List.filter_filter]
    split
    · next hk =>
      refine List.filter_congr fun m _ => ?_
      cases hm : P m with
      | false => rfl
      | true => simp [hP m hm, hk]
    · next hk =>
      refine List.filter_eq_nil_iff.mpr fun m _ hm => hk ?_
      obtain ⟨hm, hrank⟩ := Bool.and_eq_true_iff.mp hm
      rw [← hP m hm, beq_iff_eq.mp hrank]
  cases hempty : members.filter P with
  | nil => simp [ranked, hof, hempty]
  | cons m rest =>
    have hm : P m = true := (List.mem_filter.mp (hempty ▸ List.mem_cons_self)).2
    have hr : r ∈ [0, 1, 2, 3, 4, 5] := hP m hm ▸ m.rank_mem
    rw [← hempty, ranked, List.filter_flatMap]
    simp only [hof]
    simp only [List.mem_cons, List.not_mem_nil, or_false] at hr
    rcases hr with rfl | rfl | rfl | rfl | rfl | rfl <;> simp

section Kinds
variable {α : Type} {make : α → Member} {get : Member → Option α}

theorem filter_of_kind (hget : ∀ m a, get m = some a ↔ m = make a) {P : Member → Bool}
    (hP : ∀ m, P m = true → ∃ a, m = make a) (members : List Member) :
    members.filter P = ((members.filterMap get).filter (P <| make ·)).map make := by
  induction members with
  | nil => rfl
  | cons m rest ih =>
    cases hm : get m with
    | some a =>
      obtain rfl := (hget m a).mp hm
      simp only [List.filter_cons, List.filterMap_cons, hm, ih]
      split <;> rfl
    | none =>
      have hout : P m = false := by
        refine Bool.eq_false_iff.mpr fun h => ?_
        obtain ⟨a, ha⟩ := hP m h
        rw [(hget m a).mpr ha] at hm
        cases hm
      simp only [List.filter_cons, List.filterMap_cons, hm, hout, ih, Bool.false_eq_true, if_false]

theorem findSome?_of_kind {f : Member → Option α} {P : α → Bool} (hf : ∀ m, f m = (get m).filter P)
    (members : List Member) : members.findSome? f = (members.filterMap get).find? P := by
  induction members with
  | nil => rfl
  | cons m rest ih =>
    cases hm : get m with
    | none => simp [hf, hm, ih]
    | some a => cases ha : P a <;> simp [hf, hm, ha, ih]

end Kinds

end Member

namespace Owner

def enums (o : Owner) : List EnumDecl := o.members.filterMap Member.asEnum

def properties (o : Owner) : List Property := o.members.filterMap Member.asVariable

/-- The members that have lines, in the order of the lines. -/
def shown (o : Owner) : List Member := (Member.ranked o.members).filter (!o.omits ·)

/-- The lines of one member. -/
def line (render : Token → Except Error String) (indent : Nat) (o : Owner) (m : Member) : Except Error Text :=
  (m.text render o indent).map fun text => Text.line indent ++ text ++ Text.lit m.terminator

/-- The first variable that holds a value of the enum. -/
def firstTyped (o : Owner) (enumName : String) : Option Property := o.properties.find? (·.typedWith enumName)

end Owner

theorem Member.byRank_written_eq (render : Token → Except Error String) (o : Owner) (indent : Nat)
    (members : List Member) :
    byRank (Member.written render o indent members) = Member.written render o indent (ranked members) := by
  simp only [byRank, ranked, filter_written, List.flatMap_cons, List.flatMap_nil, written_append, Member.written]

theorem Member.concat_written (render : Token → Except Error String) (o : Owner) (indent : Nat)
    (members : List Member) :
    concat (Member.written render o indent members) =
      ((members.filter (!o.omits ·)).mapM (o.line render indent)).map List.flatten := by
  induction members with
  | nil => simp only [Member.written, concat]; rfl
  | cons m rest ih =>
    cases hm : o.omits m with
    | true => simp [Member.written, concat, hm, ih]
    | false =>
      have hline : concat (Member.written render o indent (m :: rest)) =
          (do return (← o.line render indent m) ++ (← concat (Member.written render o indent rest))) := by
        simp only [Member.written, concat, hm, Bool.false_eq_true, if_false]
        rfl
      simp only [hline, ih, List.filter_cons, hm, Bool.not_false, if_true, List.mapM_cons]
      cases o.line render indent m with
      | error e => rfl
      | ok t => cases (rest.filter (!o.omits ·)).mapM (o.line render indent) <;> rfl

/-- The text of an owner is the lines of the members shown, one after another. -/
theorem Owner.text_eq_lines (render : Token → Except Error String) (indent : Nat) (o : Owner) :
    o.text render indent = (o.shown.mapM (o.line render indent)).map List.flatten := by
  rw [Owner.text, Member.byRank_written_eq, Member.concat_written, shown]

/-! What a line shows of an enum. -/

/-- The declaration of a variable, its type written as `type`. -/
def Property.textWith (owner : Owner) (type : Text) (p : Property) : Text :=
  Text.lit ("var" ++ (p.categoryText owner.name).getD "" ++ " " ++ String.join (p.modifiers.map (· ++ " "))) ++
    type ++
    Text.lit (" " ++ p.name ++ if p.isMultiSlot then "[" ++ toString p.arrayDim.toNat ++ "]" else "")

/-- Whether the line of a member has the body of the enum: as its declaration, or as the
type of a variable. -/
def Owner.bears (render : Token → Except Error String) (indent : Nat) (o : Owner) (e : EnumDecl)
    (m : Member) : Bool :=
  match m, o.line render indent m with
  | .enum _, .ok line => line = Text.line indent ++ e.text indent ++ Text.lit ";"
  | .property p, .ok line => line = Text.line indent ++ p.textWith o (e.text indent) ++ Text.lit ";"
  | _, _ => false

theorem Text.join_lits_injective {separator : Text} (hsep : separator ≠ []) {vs ws : List String}
    (h : join separator (vs.map lit) = join separator (ws.map lit)) : vs = ws := by
  induction vs generalizing ws with
  | nil =>
    match ws with
    | [] => rfl
    | [w] => simp [join, lit] at h
    | w :: w' :: ws => simp [join, lit] at h
  | cons v vs ih =>
    match vs, ws with
    | [], [] => simp [join, lit] at h
    | _ :: _, [] => simp [join, lit] at h
    | [], [w] => simpa [join, lit] using h
    | [], w :: w' :: ws => simp [join, lit, hsep] at h
    | v' :: vs, [w] => simp [join, lit, hsep] at h
    | v' :: vs, w :: w' :: ws =>
      simp only [List.map_cons, join, lit, List.cons_append, List.cons.injEq,
        Piece.verbatim.injEq, List.append_cancel_left_eq] at h
      have hrest : v' :: vs = w' :: ws := ih h.2
      rw [h.1, hrest]

/-- An enum can be read off its text. -/
theorem EnumDecl.text_injective {indent : Nat} {e d : EnumDecl} (h : e.text indent = d.text indent) : e = d := by
  simp only [EnumDecl.text, Stmt.braces, Text.lit, List.cons_append, List.nil_append, List.cons.injEq,
    Piece.verbatim.injEq, String.append_right_inj, List.append_cancel_left_eq, List.append_cancel_right_eq] at h
  obtain ⟨hname, hvalues⟩ := h
  cases e
  cases d
  rw [EnumDecl.mk.injEq]
  exact ⟨hname, Text.join_lits_injective (by simp [Text.line]) hvalues⟩

theorem EnumDecl.text_ne_lit (indent : Nat) (e : EnumDecl) (s : String) : e.text indent ≠ Text.lit s := by
  simp [EnumDecl.text, Stmt.braces, Text.lit, Text.lineOf]

theorem Property.textWith_injective {o : Owner} {p : Property} {s t : Text} (h : p.textWith o s = p.textWith o t) :
    s = t := by
  unfold textWith at h
  exact List.append_cancel_left (List.append_cancel_right h)

namespace Owner
variable {render : Token → Except Error String} {indent : Nat} {o : Owner} {e d : EnumDecl} {p : Property}

theorem line_enum (render : Token → Except Error String) (indent : Nat) (o : Owner) (d : EnumDecl) :
    o.line render indent (.enum d) = .ok (Text.line indent ++ d.text indent ++ Text.lit ";") := by
  rw [line, Member.text]
  rfl

theorem line_property (hp : o.carriedEnum p = none) : o.line render indent (.property p) =
    .ok (Text.line indent ++ p.textWith o (Text.lit p.typeName) ++ Text.lit ";") := by
  rw [line, Member.text, Property.text, hp]
  rfl

theorem line_carrier (hp : o.carriedEnum p = some d) : o.line render indent (.property p) =
    .ok (Text.line indent ++ p.textWith o (d.text indent) ++ Text.lit ";") := by
  rw [line, Member.text, Property.text, hp]
  rfl

theorem bears_enum : o.bears render indent e (.enum d) = true ↔ d = e := by
  simp only [bears, line_enum, decide_eq_true_iff, List.append_cancel_left_eq, List.append_cancel_right_eq]
  exact ⟨EnumDecl.text_injective, congrArg _⟩

theorem bears_property : o.bears render indent e (.property p) = true ↔ o.carriedEnum p = some e := by
  cases hp : o.carriedEnum p with
  | none =>
    simp only [bears, line_property hp, decide_eq_true_iff, List.append_cancel_left_eq, List.append_cancel_right_eq]
    refine ⟨fun h => ?_, fun h => nomatch h⟩
    exact absurd (Property.textWith_injective h).symm (e.text_ne_lit indent p.typeName)
  | some d =>
    simp only [bears, line_carrier hp, decide_eq_true_iff, List.append_cancel_left_eq, List.append_cancel_right_eq,
      Option.some.injEq]
    exact ⟨fun h => EnumDecl.text_injective (Property.textWith_injective h), fun h => by rw [h]⟩

/-- The two ways to have the body. -/
theorem eq_of_bears {m : Member} (h : o.bears render indent e m = true) :
    m = .enum e ∨ ∃ p, m = .property p ∧ o.carriedEnum p = some e := by
  match m with
  | .enum d => exact .inl (by rw [bears_enum.mp h])
  | .property p => exact .inr ⟨p, rfl, bears_property.mp h⟩
  | .const _ | .struct _ | .function _ | .state _ => simp [bears] at h

end Owner

/-! The two lookups. -/

theorem Property.typedWith_congr {a b : String} (h : sameName a b = true) (p : Property) :
    p.typedWith a = p.typedWith b := by
  unfold typedWith
  simp only [sameName_congr_right h]

theorem Property.sameName_of_typedWith {a b : String} {p : Property} (ha : p.typedWith a = true)
    (hb : p.kind.names b = true) : sameName a b = true := by
  obtain ⟨path, hkind, hsame⟩ := kind_of_typedWith ha
  rw [hkind, Kind.names] at hb
  rw [← sameName_congr_right hb a, sameName_comm, hsame]

theorem Property.sameName_typeName {enumName : String} {p : Property} (h : p.typedWith enumName = true) :
    sameName p.typeName enumName = true := by
  obtain ⟨path, hkind, hsame⟩ := kind_of_typedWith h
  rw [typeName, hkind, Kind.typeName, hsame]

theorem filter_eq_singleton {α : Type} {P : α → Bool} {l : List α} {a : α} (hnodup : l.Nodup) (ha : a ∈ l)
    (hP : ∀ b ∈ l, P b = true ↔ b = a) : l.filter P = [a] := by
  obtain ⟨s, t, rfl⟩ := List.append_of_mem ha
  obtain ⟨-, ht, hst⟩ := List.nodup_append.mp hnodup
  have hPa : P a = true := (hP a ha).mpr rfl
  have hs : s.filter P = [] := by
    refine List.filter_eq_nil_iff.mpr fun b hb hPb => ?_
    exact hst b hb a List.mem_cons_self ((hP b (by simp [hb])).mp hPb)
  have ht' : t.filter P = [] := by
    refine List.filter_eq_nil_iff.mpr fun b hb hPb => ?_
    exact (List.nodup_cons.mp ht).1 ((hP b (by simp [hb])).mp hPb ▸ hb)
  rw [List.filter_append, List.filter_cons_of_pos hPa, hs, ht', List.nil_append]

namespace Owner
variable {render : Token → Except Error String} {indent : Nat} {o : Owner} {e : EnumDecl} {p : Property}

theorem mem_enums : e ∈ o.enums ↔ .enum e ∈ o.members := by
  simp [enums, Member.asEnum_eq_some]

theorem mem_properties : p ∈ o.properties ↔ .property p ∈ o.members := by
  simp [properties, Member.asVariable_eq_some]

theorem mem_shown {m : Member} : m ∈ o.shown ↔ m ∈ o.members ∧ o.omits m = false := by
  simp [shown, Member.mem_ranked]

theorem shown_pairwise (o : Owner) : o.shown.Pairwise (·.rank ≤ ·.rank) :=
  (Member.ranked_pairwise o.members).filter _

/-- A variable whose type has an enum in it is no delegate. -/
theorem omits_of_names {enumName : String} (h : p.kind.names enumName = true) : o.omits (.property p) = false := by
  simp only [omits]
  split
  · next hkind => rw [hkind] at h; cases h
  · rfl

/-- The lines of one kind that a test selects, by what is stored of that kind. -/
theorem filter_shown {α : Type} {make : α → Member} {get : Member → Option α} {r : Nat}
    (hget : ∀ m a, get m = some a ↔ m = make a) (hrank : ∀ a, (make a).rank = r) {P : Member → Bool}
    (hP : ∀ m, P m = true → o.omits m = false → ∃ a, m = make a) :
    o.shown.filter P =
      ((o.members.filterMap get).filter fun a => P (make a) && !o.omits (make a)).map make := by
  have hmake (m : Member) (hm : (P m && !o.omits m) = true) : ∃ a, m = make a := by
    obtain ⟨hP', hshown⟩ := Bool.and_eq_true_iff.mp hm
    exact hP m hP' (by simpa using hshown)
  rw [shown, List.filter_filter, Member.filter_ranked (r := r) ?_, Member.filter_of_kind hget hmake]
  intro m hm
  obtain ⟨a, rfl⟩ := hmake m hm
  exact hrank a

section Struct
variable (hstruct : o.kind = .struct)

include hstruct

theorem nestedEnum_eq (name : String) : o.nestedEnum name = o.enums.find? (sameName ·.name name) := by
  rw [nestedEnum, if_pos hstruct, enums, Member.findSome?_of_kind]
  intro m
  cases m <;> rfl

theorem carrier_eq (name : String) : o.carrier name = o.firstTyped name := by
  rw [carrier, if_pos hstruct, firstTyped, properties, Member.findSome?_of_kind]
  intro m
  cases m <;> rfl

theorem omits_enum (d : EnumDecl) : o.omits (.enum d) = (o.firstTyped d.name).isSome := by
  rw [omits, carrier_eq hstruct]

/-- A variable carries an enum that is the first of its name, if it is typed with it and the
first variable that is has the same name. -/
theorem carriedEnum_iff : o.carriedEnum p = some e ↔
    p.typedWith e.name = true ∧ (∃ first, o.firstTyped e.name = some first ∧ first.name = p.name) ∧
      o.enums.find? (sameName ·.name e.name) = some e := by
  have hcarried (name : String) (hname : p.enumName = some name) : o.carriedEnum p = some e ↔
      ∃ first, o.firstTyped name = some first ∧ first.name = p.name ∧
        o.enums.find? (sameName ·.name name) = some e := by
    simp only [carriedEnum, hname, carrier_eq hstruct, nestedEnum_eq hstruct]
    cases hfirst : o.firstTyped name <;> simp [hfirst]
  have hcongr {name : String} (hsame : sameName name e.name = true) :
      o.firstTyped name = o.firstTyped e.name ∧
        o.enums.find? (sameName ·.name name) = o.enums.find? (sameName ·.name e.name) := by
    unfold firstTyped
    simp only [Property.typedWith_congr hsame, sameName_congr_right hsame, and_self]
  constructor
  · intro h
    cases hname : p.enumName with
    | none => simp [carriedEnum, hname] at h
    | some name =>
      obtain ⟨first, hfirst, hfirstName, hfound⟩ := (hcarried name hname).mp h
      have hsame : sameName name e.name = true := by
        have hfoundName := List.find?_some hfound
        rwa [sameName_comm]
      rw [(hcongr hsame).1] at hfirst
      rw [(hcongr hsame).2] at hfound
      exact ⟨by simp [Property.typedWith, hname, hsame], ⟨first, hfirst, hfirstName⟩, hfound⟩
  · rintro ⟨htyped, ⟨first, hfirst, hfirstName⟩, hfound⟩
    obtain ⟨name, hname, hsame⟩ := (Option.any_eq_true _ _).mp htyped
    refine (hcarried name hname).mpr ⟨first, ?_, hfirstName, ?_⟩
    · rw [(hcongr hsame).1, hfirst]
    · rw [(hcongr hsame).2, hfound]

end Struct

/-! Each body once. -/

/-- The member in whose line the body of an enum is: the first variable typed with it, or the
enum itself. -/
def holder (o : Owner) (e : EnumDecl) : Member :=
  match o.firstTyped e.name with
  | some p => .property p
  | none => .enum e

section Distinct
variable (hstruct : o.kind = .struct)
  (henums : o.enums.Pairwise fun a b => sameName a.name b.name = false)

include henums in
theorem enums_nodup : o.enums.Nodup :=
  henums.imp fun hab heq => by simp [heq] at hab

include henums in
theorem find?_enums (he : e ∈ o.enums) : o.enums.find? (sameName ·.name e.name) = some e := by
  obtain ⟨s, t, hsplit⟩ := List.append_of_mem he
  rw [hsplit] at henums ⊢
  refine List.find?_eq_some_iff_append.mpr ⟨sameName_refl e.name, s, t, rfl, fun d hd => ?_⟩
  have hne := (List.pairwise_append.mp henums).2.2 d hd e List.mem_cons_self
  rw [hne, Bool.not_false]

variable (hproperties : o.properties.Pairwise fun a b => a.name ≠ b.name)

include hproperties in
theorem properties_nodup : o.properties.Nodup :=
  hproperties.imp fun hab heq => hab (congrArg Property.name heq)

include hproperties in
theorem eq_of_name_eq {q : Property} (hp : p ∈ o.properties) (hq : q ∈ o.properties) (h : p.name = q.name) :
    p = q := by
  have hsymm : Std.Symm fun a b : Property => a.name ≠ b.name := ⟨fun _ _ hne => hne.symm⟩
  refine Classical.byContradiction fun hne => ?_
  exact hproperties.forall hp hq hne h

include hstruct henums hproperties

/-- With distinct names a variable has the body of an enum for its type just if it is the first
that is typed with it. -/
theorem carriedEnum_iff_firstTyped (he : e ∈ o.enums) (hp : p ∈ o.properties) :
    o.carriedEnum p = some e ↔ o.firstTyped e.name = some p := by
  rw [carriedEnum_iff hstruct]
  constructor
  · rintro ⟨-, ⟨first, hfirst, hname⟩, -⟩
    rw [hfirst, eq_of_name_eq hproperties (List.mem_of_find?_eq_some hfirst) hp hname]
  · intro hfirst
    have htyped := List.find?_some hfirst
    exact ⟨htyped, ⟨p, hfirst, rfl⟩, find?_enums henums he⟩

/-- The body of an enum is in the line of its holder and in no other. -/
theorem filter_bears (he : e ∈ o.enums) : o.shown.filter (o.bears render indent e) = [o.holder e] := by
  unfold holder
  cases hfirst : o.firstTyped e.name with
  | none =>
    have honly : o.enums.filter (fun d => o.bears render indent e (.enum d) && !o.omits (.enum d)) = [e] := by
      refine filter_eq_singleton (enums_nodup henums) he fun d _ => ?_
      rw [Bool.and_eq_true_iff, bears_enum, omits_enum hstruct]
      refine ⟨fun h => h.1, ?_⟩
      rintro rfl
      simp [hfirst]
    rw [filter_shown (fun _ _ => Member.asEnum_eq_some) (fun _ => rfl) (fun m hm _ => ?_)]
    · exact congrArg (List.map Member.enum) honly
    · -- a variable with the body would be typed with the enum, and none is
      rcases eq_of_bears hm with rfl | ⟨q, rfl, hcarried⟩
      · exact ⟨e, rfl⟩
      · obtain ⟨-, ⟨first, hq, -⟩, -⟩ := (carriedEnum_iff hstruct).mp hcarried
        rw [hq] at hfirst
        cases hfirst
  | some p =>
    have hp : p ∈ o.properties := List.mem_of_find?_eq_some hfirst
    have htyped : p.typedWith e.name = true := List.find?_some hfirst
    have honly : o.properties.filter (fun q => o.bears render indent e (.property q) && !o.omits (.property q)) = [p] := by
      refine filter_eq_singleton (properties_nodup hproperties) hp fun q hq => ?_
      rw [Bool.and_eq_true_iff, bears_property, carriedEnum_iff_firstTyped hstruct henums hproperties he hq, hfirst,
        Option.some.injEq]
      refine ⟨fun h => h.1.symm, ?_⟩
      rintro rfl
      simp [omits_of_names (Property.names_of_typedWith htyped)]
    rw [filter_shown (fun _ _ => Member.asVariable_eq_some) (fun _ => rfl) (fun m hm hshown => ?_)]
    · exact congrArg (List.map Member.property) honly
    · -- the enum has no line, for the lookup that leaves it out finds the same variable
      rcases eq_of_bears hm with rfl | ⟨q, rfl, -⟩
      · rw [omits_enum hstruct, hfirst] at hshown
        cases hshown
      · exact ⟨q, rfl⟩

/-- A variable whose type has the enum in it, and which is not the first typed with it, has no
body of an enum. -/
theorem carriedEnum_of_not_first (he : e ∈ o.enums) {q : Property} (hq : q ∈ o.properties)
    (hnames : q.kind.names e.name = true) (hfirst : o.firstTyped e.name ≠ some q) : o.carriedEnum q = none := by
  cases hcarried : o.carriedEnum q with
  | none => rfl
  | some d =>
    obtain ⟨htyped, -, hfound⟩ := (carriedEnum_iff hstruct).mp hcarried
    -- its own type names both enums, so they are one
    have hsame := Property.sameName_of_typedWith htyped hnames
    simp only [sameName_congr_right hsame, find?_enums henums he, Option.some.injEq] at hfound
    rw [← hfound, carriedEnum_iff_firstTyped hstruct henums hproperties he hq] at hcarried
    exact absurd hcarried hfirst

end Distinct

/-- No variable has the body of an enum outside a struct. -/
theorem carriedEnum_of_not_struct (hkind : o.kind ≠ .struct) (p : Property) : o.carriedEnum p = none := by
  simp only [carriedEnum, carrier, if_neg hkind]
  cases p.enumName <;> rfl

/-- Outside a struct every enum has a line of its own. -/
theorem filter_asEnum_of_not_struct (hkind : o.kind ≠ .struct) :
    o.shown.filter (·.asEnum.isSome) = o.enums.map .enum := by
  have hall (e : EnumDecl) : ((Member.enum e).asEnum.isSome && !o.omits (.enum e)) = true := by
    simp [omits, carrier, hkind, Member.asEnum]
  rw [filter_shown (fun _ _ => Member.asEnum_eq_some) (fun _ => rfl) (fun m hm _ => ?_)]
  · rw [List.filter_eq_self.mpr fun e _ => hall e, enums]
  · obtain ⟨e, he⟩ := Option.isSome_iff_exists.mp hm
    exact ⟨e, Member.asEnum_eq_some.mp he⟩

end Owner

/-- The text of an owner is its lines, and in a struct whose enums and whose variables have
distinct names each enum has its body in exactly one of them: that of the first variable typed
with it, else its own. The lines of the other variables whose types have the enum in them have
its name. In a class or a state every enum has its own line and no line of a variable has a
body. -/
theorem Owner.enum_body_once (render : Token → Except Error String) (indent : Nat) (o : Owner) :
    o.text render indent = (o.shown.mapM (o.line render indent)).map List.flatten ∧
    (o.kind = .struct →
      o.enums.Pairwise (fun a b => sameName a.name b.name = false) →
      o.properties.Pairwise (fun a b => a.name ≠ b.name) →
      ∀ e ∈ o.enums,
        o.shown.filter (o.bears render indent e) = [o.holder e] ∧
        ∀ q ∈ o.properties, q.kind.names e.name = true → o.firstTyped e.name ≠ some q →
          .property q ∈ o.shown ∧
            o.line render indent (.property q) =
              .ok (Text.line indent ++ q.textWith o (Text.lit q.typeName) ++ Text.lit ";") ∧
            (q.typedWith e.name = true → sameName q.typeName e.name = true)) ∧
    (o.kind ≠ .struct →
      o.shown.filter (·.asEnum.isSome) = o.enums.map .enum ∧
      (∀ e : EnumDecl, o.line render indent (.enum e) = .ok (Text.line indent ++ e.text indent ++ Text.lit ";")) ∧
      ∀ p : Property, o.line render indent (.property p) =
        .ok (Text.line indent ++ p.textWith o (Text.lit p.typeName) ++ Text.lit ";")) := by
  refine ⟨o.text_eq_lines render indent, fun hstruct henums hproperties e he => ⟨?_, ?_⟩, fun hkind => ⟨?_, ?_, ?_⟩⟩
  · exact filter_bears hstruct henums hproperties he
  · intro q hq hnames hfirst
    have hnone := carriedEnum_of_not_first hstruct henums hproperties he hq hnames hfirst
    refine ⟨?_, line_property hnone, Property.sameName_typeName⟩
    exact mem_shown.mpr ⟨mem_properties.mp hq, omits_of_names hnames⟩
  · exact filter_asEnum_of_not_struct hkind
  · exact line_enum render indent o
  · exact fun p => line_property (carriedEnum_of_not_struct hkind p)

namespace Owner

def mode : EnumDecl := ⟨"EMode", ["M_Off", "M_On"]⟩

def firstMode : Property := ⟨"Mode", .byte (some "Engine.Gearbox.emode"), ⟨0⟩, ⟨0⟩, 1, none⟩

def lastMode : Property := ⟨"Last", .byte (some "EMode"), ⟨0⟩, ⟨0⟩, 1, none⟩

/-- An enum behind the first variable typed with it, which has a path for its type in other
letters, and an enum that types none. -/
def gearbox : Owner :=
  ⟨.struct, "Gearbox",
    [.property firstMode, .enum mode, .property lastMode, .enum ⟨"ESide", ["S_Left", "S_Right"]⟩]⟩

end Owner

/-- The body is in the line of the first variable, and the last has the name. -/
theorem Owner.enum_body_once_gearbox :
    gearbox.enums.Pairwise (fun a b => sameName a.name b.name = false) ∧
    gearbox.properties.Pairwise (fun a b => a.name ≠ b.name) ∧
    gearbox.shown.filter (gearbox.bears (fun _ => .error .model) 1 mode) = [.property firstMode] ∧
    gearbox.line (fun _ => .error .model) 1 (.property firstMode) =
      .ok [.lineBreak 1, .verbatim "var ", .verbatim "enum EMode", .lineBreak 1, .verbatim "\x7b", .lineBreak 2,
        .verbatim "M_Off", .verbatim ",", .lineBreak 2, .verbatim "M_On", .lineBreak 1, .verbatim "\x7d",
        .verbatim " Mode", .verbatim ";"] ∧
    gearbox.line (fun _ => .error .model) 1 (.property lastMode) =
      .ok [.lineBreak 1, .verbatim "var ", .verbatim "EMode", .verbatim " Last", .verbatim ";"] := by
  have henums : gearbox.enums.Pairwise (fun a b => sameName a.name b.name = false) := by decide
  have hproperties : gearbox.properties.Pairwise (fun a b => a.name ≠ b.name) := by decide
  have hmode : mode ∈ gearbox.enums := List.mem_cons_self
  have hlast : lastMode ∈ gearbox.properties := List.mem_cons_of_mem _ List.mem_cons_self
  have hfirst : gearbox.firstTyped mode.name = some firstMode := rfl
  have hnot : gearbox.firstTyped mode.name ≠ some lastMode := by simp [hfirst, firstMode, lastMode]
  obtain ⟨honce, hothers⟩ :=
    (enum_body_once (fun _ => .error .model) 1 gearbox).2.1 rfl henums hproperties mode hmode
  have hcarried : gearbox.carriedEnum firstMode = some mode := rfl
  refine ⟨henums, hproperties, honce, (line_carrier hcarried).trans rfl, ?_⟩
  exact (hothers lastMode hlast (by decide) hnot).2.1.trans rfl

/-! Bodies before uses. -/

namespace Owner
variable {render : Token → Except Error String} {indent : Nat} {o : Owner} {e : EnumDecl} {p : Property}

/-- No variable whose type has the enum in it is declared before the line with the enum's
body. -/
def DeclaredFirst (render : Token → Except Error String) (indent : Nat) (o : Owner) (e : EnumDecl) : Prop :=
  ∃ before m after, o.shown = before ++ m :: after ∧ o.bears render indent e m = true ∧
    ∀ u ∈ before, u.uses e.name = false

/-- The first of the variables that a test selects is the first in the lines. -/
theorem find?_shown {P : Property → Bool} (hP : ∀ p, P p = true → o.omits (.property p) = false) :
    o.shown.find? (·.asVariable.any P) = (o.properties.find? P).map .property := by
  rw [← List.head?_filter, filter_shown (fun _ _ => Member.asVariable_eq_some) (fun _ => rfl) (fun m hm _ => ?_),
    List.head?_map, List.head?_filter]
  · refine congrArg (Option.map Member.property) (congrArg (List.find? · o.properties) (funext fun p => ?_))
    cases hp : P p with
    | false => simp [Member.asVariable, hp]
    | true => simp [Member.asVariable, hp, hP p hp]
  · obtain ⟨p, hp, -⟩ := (Option.any_eq_true _ _).mp hm
    exact ⟨p, Member.asVariable_eq_some.mp hp⟩

theorem uses_of_rank_le {enumName : String} {m : Member} (h : m.rank ≤ 1) : m.uses enumName = false := by
  cases m <;> simp_all [Member.rank, Member.uses]

/-- An enum with a line of its own is declared before structs and variables. -/
theorem declaredFirst_of_own_line (hstruct : o.kind = .struct) (he : e ∈ o.enums)
    (hfirst : o.firstTyped e.name = none) : o.DeclaredFirst render indent e := by
  have hshown : Member.enum e ∈ o.shown := by
    refine mem_shown.mpr ⟨mem_enums.mp he, ?_⟩
    rw [omits_enum hstruct, hfirst, Option.isSome_none]
  obtain ⟨before, after, hsplit⟩ := List.append_of_mem hshown
  refine ⟨before, .enum e, after, hsplit, bears_enum.mpr rfl, fun u hu => uses_of_rank_le ?_⟩
  have hsorted := o.shown_pairwise
  rw [hsplit] at hsorted
  exact (List.pairwise_append.mp hsorted).2.2 u hu (.enum e) List.mem_cons_self

/-- An enum in the type of a variable is declared there at the latest if the variable is the
first that needs it. -/
theorem declaredFirst_of_carried (hstruct : o.kind = .struct)
    (hfound : o.enums.find? (sameName ·.name e.name) = some e)
    (hscopes : ∀ s, .struct s ∈ o.members → s.uses e.name = false)
    (hfirst : o.firstTyped e.name = some p) (huse : o.properties.find? (·.kind.names e.name) = some p) :
    o.DeclaredFirst render indent e := by
  have hcarried : o.carriedEnum p = some e :=
    (carriedEnum_iff hstruct).mpr ⟨List.find?_some hfirst, ⟨p, hfirst, rfl⟩, hfound⟩
  have hline := find?_shown (o := o) (P := (·.kind.names e.name)) fun q => omits_of_names
  rw [huse] at hline
  obtain ⟨-, before, after, hsplit, hbefore⟩ := List.find?_eq_some_iff_append.mp hline
  refine ⟨before, .property p, after, hsplit, bears_property.mpr hcarried, fun u hu => ?_⟩
  match u with
  | .property q => simpa [Member.asVariable, Member.uses] using hbefore _ hu
  | .struct s => exact hscopes s (mem_shown.mp (hsplit ▸ List.mem_append_left _ hu)).1
  | .const _ | .enum _ | .function _ | .state _ => rfl

/-- A variable that a test selects is the first of all if none of those declared before it
needs the enum. -/
theorem find?_properties_of_split {enumName : String} {before after : List Member} {q : Property}
    (hsplit : o.shown = before ++ .property q :: after) (hbefore : ∀ u ∈ before, u.uses enumName = false)
    {P : Property → Bool} (hP : ∀ r, P r = true → r.kind.names enumName = true) (hq : P q = true) :
    o.properties.find? P = some q := by
  have hline : o.shown.find? (·.asVariable.any P) = some (.property q) := by
    refine List.find?_eq_some_iff_append.mpr ⟨hq, before, after, hsplit, fun u hu => ?_⟩
    rw [Bool.not_eq_true', Bool.eq_false_iff]
    intro hany
    obtain ⟨r, hr, hPr⟩ := (Option.any_eq_true _ _).mp hany
    have hunused := hbefore u hu
    rw [Member.asVariable_eq_some.mp hr, Member.uses, hP r hPr] at hunused
    cases hunused
  rw [find?_shown fun r hr => omits_of_names (hP r hr)] at hline
  obtain ⟨r, hr, hrq⟩ := Option.map_eq_some_iff.mp hline
  rw [hr, Member.property.inj hrq]

/-- The structs come before every variable. -/
theorem struct_before_variable {before after : List Member} {q : Property} {s : Scope}
    (hsplit : o.shown = before ++ .property q :: after) (hs : .struct s ∈ o.members) : .struct s ∈ before := by
  have hshown : Member.struct s ∈ o.shown := mem_shown.mpr ⟨hs, rfl⟩
  have hsorted := o.shown_pairwise
  rw [hsplit] at hshown hsorted
  rcases List.mem_append.mp hshown with hin | hin
  · exact hin
  · have hafter : Member.struct s ∈ after := List.mem_of_ne_of_mem (by simp) hin
    have hle := List.rel_of_pairwise_cons (List.pairwise_append.mp hsorted).2.1 hafter
    simp [Member.rank] at hle

/-- Where the body is the type of a variable, it comes first only if that variable is the
first that needs it, and no struct does. -/
theorem carried_of_declaredFirst (hstruct : o.kind = .struct) (hfirst : o.firstTyped e.name = some p)
    (h : o.DeclaredFirst render indent e) :
    o.enums.find? (sameName ·.name e.name) = some e ∧
      (∀ s, .struct s ∈ o.members → s.uses e.name = false) ∧
      o.properties.find? (·.kind.names e.name) = some p := by
  obtain ⟨before, m, after, hsplit, hbears, hbefore⟩ := h
  rcases eq_of_bears hbears with rfl | ⟨q, rfl, hcarried⟩
  · have hshown : o.omits (.enum e) = false := (mem_shown.mp (hsplit ▸ by simp)).2
    rw [omits_enum hstruct, hfirst] at hshown
    cases hshown
  · obtain ⟨htyped, -, hfound⟩ := (carriedEnum_iff hstruct).mp hcarried
    have hq := find?_properties_of_split hsplit hbefore (fun _ => Property.names_of_typedWith) htyped
    obtain rfl : p = q := Option.some.inj (hfirst.symm.trans hq)
    refine ⟨hfound, fun s hs => hbefore _ (struct_before_variable hsplit hs), ?_⟩
    exact find?_properties_of_split hsplit hbefore (fun _ => id) (Property.names_of_typedWith htyped)

end Owner

/-- The members of a struct with the struct as their owner. -/
def Scope.asStruct (s : Scope) : Owner := ⟨.struct, s.name, s.members⟩

theorem Scope.text_eq_lines (render : Token → Except Error String) (indent : Nat) (s : Scope) :
    Scope.text render .struct indent s =
      (s.asStruct.shown.mapM (s.asStruct.line render (indent + 1))).map (fun lines =>
        Text.lit (heading "struct" s.name s.parent) ++ Stmt.braces indent lines.flatten) := by
  obtain ⟨name, parent, members⟩ := s
  rw [Scope.text_eq, Owner.text_eq_lines, asStruct]
  cases (Owner.shown ⟨.struct, name, members⟩).mapM (Owner.line render (indent + 1) ⟨.struct, name, members⟩) <;> rfl

/-- The text of a struct is its heading and its lines in braces. The body of an enum in it
comes before every variable that needs it, in the struct and in the structs in it, exactly when
no variable is typed with the enum directly, or the enum is the first of its name, no struct
needs it, and no variable has a list of it before the first one typed with it. -/
theorem Scope.enum_declaredFirst_iff (render : Token → Except Error String) (indent : Nat) (s : Scope)
    {e : EnumDecl} (he : .enum e ∈ s.members) :
    Scope.text render .struct indent s =
      (s.asStruct.shown.mapM (s.asStruct.line render (indent + 1))).map (fun lines =>
        Text.lit (heading "struct" s.name s.parent) ++ Stmt.braces indent lines.flatten) ∧
    (s.asStruct.DeclaredFirst render (indent + 1) e ↔
      s.asStruct.firstTyped e.name = none ∨
      s.asStruct.enums.find? (sameName ·.name e.name) = some e ∧
        (∀ t, .struct t ∈ s.members → t.uses e.name = false) ∧
        s.asStruct.properties.find? (·.kind.names e.name) = s.asStruct.firstTyped e.name) := by
  have hstruct : s.asStruct.kind = .struct := rfl
  refine ⟨s.text_eq_lines render indent, ?_⟩
  cases hfirst : s.asStruct.firstTyped e.name with
  | none => exact iff_of_true (Owner.declaredFirst_of_own_line hstruct (Owner.mem_enums.mpr he) hfirst) (.inl rfl)
  | some p =>
    refine ⟨fun h => .inr (Owner.carried_of_declaredFirst hstruct hfirst h), ?_⟩
    rintro (hnone | ⟨hfound, hscopes, huse⟩)
    · cases hnone
    · exact Owner.declaredFirst_of_carried hstruct hfound hscopes hfirst huse

namespace Scope

def color : EnumDecl := ⟨"EColor", ["Red", "Green"]⟩

/-- A list of colors, and then a color. -/
def palette : Scope :=
  ⟨"Palette", none,
    [ .enum color
    , .property ⟨"Colors", .array ⟨"Colors", .byte (some "EColor"), ⟨0⟩, ⟨0⟩, 1, none⟩, ⟨0⟩, ⟨0⟩, 1, none⟩
    , .property ⟨"Color", .byte (some "EColor"), ⟨0⟩, ⟨0⟩, 1, none⟩ ]⟩

end Scope

/-- The list is declared before the color that has the body of the enum. -/
theorem Scope.enum_declaredFirst_iff_palette :
    .enum color ∈ palette.members ∧
    Scope.text (fun _ => .error .model) .struct 0 palette =
      .ok [.verbatim "struct Palette", .lineBreak 0, .verbatim "\x7b", .lineBreak 1, .verbatim "var ",
        .verbatim "array<EColor>", .verbatim " Colors", .verbatim ";", .lineBreak 1, .verbatim "var ",
        .verbatim "enum EColor", .lineBreak 1, .verbatim "\x7b", .lineBreak 2, .verbatim "Red", .verbatim ",",
        .lineBreak 2, .verbatim "Green", .lineBreak 1, .verbatim "\x7d", .verbatim " Color", .verbatim ";",
        .lineBreak 0, .verbatim "\x7d"] ∧
    ¬ palette.asStruct.DeclaredFirst (fun _ => .error .model) 1 color := by
  have hmem : .enum color ∈ palette.members := List.mem_cons_self
  have hfirst : (palette.asStruct.firstTyped color.name).map (·.name) = some "Color" := by decide
  have hlist : (palette.asStruct.properties.find? (·.kind.names color.name)).map (·.name) = some "Colors" := by decide
  obtain ⟨htext, hiff⟩ := enum_declaredFirst_iff (fun _ => .error .model) 0 palette hmem
  refine ⟨hmem, htext.trans rfl, fun h => ?_⟩
  obtain hnone | ⟨-, -, huse⟩ := hiff.mp h
  · rw [hnone] at hfirst
    cases hfirst
  · rw [huse, hfirst] at hlist
    simp at hlist

end ScriptLift
