import ScriptLift.Declaration.Layout

/- The stored order of kinds does not show in the text.

   Members are written kind by kind, so a list of members has the text of any other list
   that has the same constants, the same enums, the same structs and so on, each kind in
   the same order. What needs an argument is that a line does not depend on the rest of
   the list in any other way: the enum that a variable carries, and whether an enum has a
   line at all, are looked up in the list as it is stored, but only among its enums and
   its variables (`Owner.SeesAlike`). A struct or a state is written by its own members, so
   the same goes for lists that differ in this way at any depth (`Member.Rearranged`). -/
namespace ScriptLift

namespace Member

/-- The members of one kind, in stored order. -/
def ofRank (r : Nat) (members : List Member) : List Member := members.filter (·.rank == r)

@[simp] theorem ofRank_append (r : Nat) (a b : List Member) :
    ofRank r (a ++ b) = ofRank r a ++ ofRank r b := List.filter_append ..

theorem ofRank_cons_of_ne {r : Nat} {m : Member} (h : m.rank ≠ r) (members : List Member) :
    ofRank r (m :: members) = ofRank r members := by
  simp [ofRank, h]

theorem ofRank_cons_of_eq {r : Nat} {m : Member} (h : m.rank = r) (members : List Member) :
    ofRank r (m :: members) = m :: ofRank r members := by
  simp [ofRank, h]

/-- The second list has the members of the first, each kind in the same order, and so have
the structs and states in it, at any depth. -/
inductive Rearranged : List Member → List Member → Prop where
  | kinds {a b : List Member} (h : ∀ r, ofRank r a = ofRank r b) : Rearranged a b
  | struct {a b : List Member} (before after : List Member) (name : String) (parent : Option String)
      (h : Rearranged a b) :
      Rearranged (before ++ .struct ⟨name, parent, a⟩ :: after) (before ++ .struct ⟨name, parent, b⟩ :: after)
  | state {a b : List Member} (before after : List Member) (name : String) (parent : Option String)
      (h : Rearranged a b) :
      Rearranged (before ++ .state ⟨name, parent, a⟩ :: after) (before ++ .state ⟨name, parent, b⟩ :: after)
  | trans {a b c : List Member} (h : Rearranged a b) (h' : Rearranged b c) : Rearranged a c

/-- A search for members of one kind does not see the others. -/
theorem findSome?_ofRank {α : Type} {f : Member → Option α} {r : Nat} (hf : ∀ m, m.rank ≠ r → f m = none)
    (members : List Member) : members.findSome? f = (ofRank r members).findSome? f := by
  induction members with
  | nil => rfl
  | cons m rest ih =>
    by_cases hm : m.rank = r
    · rw [ofRank_cons_of_eq hm, List.findSome?_cons, List.findSome?_cons, ih]
    · rw [List.findSome?_cons, hf m hm, ih, ofRank_cons_of_ne hm]

end Member

/-! What a line sees of its owner. -/

namespace Owner

/-- Two owners that look the same from any of their lines: all but their enums and variables
may differ. -/
structure SeesAlike (o o' : Owner) : Prop where
  kind : o.kind = o'.kind
  name : o.name = o'.name
  enums : Member.ofRank 1 o.members = Member.ofRank 1 o'.members
  properties : Member.ofRank 3 o.members = Member.ofRank 3 o'.members

namespace SeesAlike

variable {o o' : Owner} (h : o.SeesAlike o')

include h

theorem nestedEnum (name : String) : o.nestedEnum name = o'.nestedEnum name := by
  unfold Owner.nestedEnum
  rw [h.kind, Member.findSome?_ofRank (r := 1) ?_ o.members, Member.findSome?_ofRank (r := 1) ?_ o'.members, h.enums]
  all_goals
    intro m hm
    cases m <;> simp_all [Member.rank]

theorem carrier (enumName : String) : o.carrier enumName = o'.carrier enumName := by
  unfold Owner.carrier
  rw [h.kind, Member.findSome?_ofRank (r := 3) ?_ o.members, Member.findSome?_ofRank (r := 3) ?_ o'.members, h.properties]
  all_goals
    intro m hm
    cases m <;> simp_all [Member.rank]

theorem carriedEnum (p : Property) : o.carriedEnum p = o'.carriedEnum p := by
  unfold Owner.carriedEnum
  simp only [h.carrier, h.nestedEnum]

theorem omits (m : Member) : o.omits m = o'.omits m := by
  cases m <;> simp only [Owner.omits, h.carrier]

theorem memberText (render : Token → Except Error String) (indent : Nat) (m : Member) :
    m.text render o indent = m.text render o' indent := by
  cases m <;> simp only [Member.text, Property.text, h.name, h.carriedEnum]

/-- Owners that look the same write the same lines. -/
theorem written (render : Token → Except Error String) (indent : Nat) (members : List Member) :
    Member.written render o indent members = Member.written render o' indent members := by
  induction members with
  | nil => simp only [Member.written]
  | cons m rest ih => simp only [Member.written, h.memberText, h.omits, ih]

end SeesAlike

end Owner

/-! Lines by kind. -/

section Lines
variable {render : Token → Except Error String} {o : Owner} {indent : Nat}

theorem Member.written_append (a b : List Member) :
    Member.written render o indent (a ++ b) =
      Member.written render o indent a ++ Member.written render o indent b := by
  induction a with
  | nil => simp only [Member.written, List.nil_append]
  | cons m rest ih => simp only [List.cons_append, Member.written, ih]

theorem Member.filter_written (r : Nat) (members : List Member) :
    (Member.written render o indent members).filter (·.rank == r) =
      Member.written render o indent (Member.ofRank r members) := by
  induction members with
  | nil => simp only [Member.written, Member.ofRank, List.filter_nil]
  | cons m rest ih =>
    by_cases hm : m.rank = r
    · rw [Member.ofRank_cons_of_eq hm]
      simp only [Member.written, List.filter_cons, hm, beq_self_eq_true, if_true, ih]
    · rw [Member.ofRank_cons_of_ne hm, ← ih]
      simp only [Member.written, List.filter_cons, beq_eq_false_iff_ne.mpr hm, Bool.false_eq_true, if_false]

/-- Lists with the same members of each kind have the same lines of each kind. -/
theorem Member.byRank_written {a b : List Member} (h : ∀ r, ofRank r a = ofRank r b) :
    byRank (Member.written render o indent a) = byRank (Member.written render o indent b) := by
  simp only [byRank, filter_written, h]

/-- A struct or a state is written by the text of its members. -/
theorem Scope.text_eq (kind : OwnerKind) (name : String) (parent : Option String) (members : List Member) :
    Scope.text render kind indent ⟨name, parent, members⟩ =
      (Owner.text render (indent + 1) ⟨kind, name, members⟩).map fun body =>
        Text.lit (heading (if kind = .struct then "struct" else "state") name parent) ++
          Stmt.braces indent body := by
  rw [Scope.text, Owner.text]
  rfl

end Lines

/-! One member in place of another. -/

theorem Member.terminator_of_rank {m m' : Member} (h : m.rank = m'.rank) : m.terminator = m'.terminator := by
  cases m <;> cases m' <;> simp_all [Member.rank, Member.terminator]

/-- A struct or a state may be exchanged for another with the same text. -/
theorem Owner.text_replace {render : Token → Except Error String} {m m' : Member} (hrank : m.rank = m'.rank)
    (hscope : m.rank = 2 ∨ m.rank = 5)
    (htext : ∀ o indent, m.text render o indent = m'.text render o indent)
    (kind : OwnerKind) (name : String) (before after : List Member) (indent : Nat) :
    Owner.text render indent ⟨kind, name, before ++ m :: after⟩ =
      Owner.text render indent ⟨kind, name, before ++ m' :: after⟩ := by
  have hsees : SeesAlike ⟨kind, name, before ++ m :: after⟩ ⟨kind, name, before ++ m' :: after⟩ := by
    refine ⟨rfl, rfl, ?_, ?_⟩
    all_goals
      simp only [Member.ofRank_append]
      rw [Member.ofRank_cons_of_ne (by omega), Member.ofRank_cons_of_ne (by omega)]
  have hshown : ∀ m : Member, m.rank = 2 ∨ m.rank = 5 → ∀ o : Owner, o.omits m = false := by
    intro m hm o
    cases m <;> simp_all [Member.rank, omits]
  unfold Owner.text
  rw [hsees.written]
  simp only [Member.written_append, Member.written, htext, hrank, Member.terminator_of_rank hrank,
    hshown m hscope, hshown m' (hrank ▸ hscope)]

/-- The text of a list of members does not show the order in which kinds are stored, in the
list itself or in the structs and states in it, and neither does the error where there is no
text. -/
theorem Owner.text_rearranged {a b : List Member} (h : Member.Rearranged a b)
    (render : Token → Except Error String) (kind : OwnerKind) (name : String) (indent : Nat) :
    Owner.text render indent ⟨kind, name, a⟩ = Owner.text render indent ⟨kind, name, b⟩ := by
  induction h generalizing kind name indent with
  | @kinds a b h =>
    have hsees : SeesAlike ⟨kind, name, a⟩ ⟨kind, name, b⟩ := ⟨rfl, rfl, h 1, h 3⟩
    unfold Owner.text
    rw [hsees.written, Member.byRank_written h]
  | struct before after scope parent h ih =>
    refine Owner.text_replace ?_ ?_ (fun o n => ?_) kind name before after indent
    · rfl
    · exact .inl rfl
    · simp only [Member.text, Scope.text_eq, ih]
  | state before after scope parent h ih =>
    refine Owner.text_replace ?_ ?_ (fun o n => ?_) kind name before after indent
    · rfl
    · exact .inr rfl
    · simp only [Member.text, Scope.text_eq, ih]
  | trans h h' ih ih' => rw [ih, ih']

namespace Member

/-- The members of a struct, a variable before the enum that types it. -/
def variableFirst : List Member :=
  [ .property ⟨"Mode", .byte (some "EMode"), ⟨0⟩, ⟨0⟩, 1, none⟩
  , .enum ⟨"EMode", ["M_Off", "M_On"]⟩
  , .const ⟨"Max", "4"⟩ ]

/-- The same members in the order of their kinds. -/
def constFirst : List Member :=
  [ .const ⟨"Max", "4"⟩
  , .enum ⟨"EMode", ["M_Off", "M_On"]⟩
  , .property ⟨"Mode", .byte (some "EMode"), ⟨0⟩, ⟨0⟩, 1, none⟩ ]

end Member

/-- A struct moved in front of a state, its own members in another order too. -/
theorem Owner.text_rearranged_variableFirst :
    Member.Rearranged [.state ⟨"Idle", none, []⟩, .struct ⟨"Slot", none, Member.variableFirst⟩]
      [.struct ⟨"Slot", none, Member.constFirst⟩, .state ⟨"Idle", none, []⟩] ∧
    Owner.text (fun _ => .error .model) 1
        ⟨.classDecl, "Arena", [.state ⟨"Idle", none, []⟩, .struct ⟨"Slot", none, Member.variableFirst⟩]⟩ =
      Owner.text (fun _ => .error .model) 1
        ⟨.classDecl, "Arena", [.struct ⟨"Slot", none, Member.constFirst⟩, .state ⟨"Idle", none, []⟩]⟩ := by
  have hinner : Member.Rearranged Member.variableFirst Member.constFirst := by
    refine .kinds fun r => ?_
    match r with
    | 0 | 1 | 2 | 3 | 4 | 5 | n + 6 => rfl
  have houter : Member.Rearranged
      [.state ⟨"Idle", none, []⟩, .struct ⟨"Slot", none, Member.constFirst⟩]
      [.struct ⟨"Slot", none, Member.constFirst⟩, .state ⟨"Idle", none, []⟩] := by
    refine .kinds fun r => ?_
    match r with
    | 0 | 1 | 2 | 3 | 4 | 5 | n + 6 => rfl
  have hboth := (Member.Rearranged.struct [.state ⟨"Idle", none, []⟩] [] "Slot" none hinner).trans houter
  exact ⟨hboth, text_rearranged hboth _ _ _ _⟩

end ScriptLift
