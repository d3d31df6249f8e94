import ScriptLift.Proofs.TextErrors
import ScriptLift.Recovery

/- What map mode changes.

   Only object literals look at the mode: the path of an object of the package starts with
   the name of the level in place of the name of the package. So a function has the text
   that it would have in a package of that name (`Context.link_mapMode`). The blocks of a
   class's default values also name objects by their full paths, which the mode leaves
   alone; there the two modes agree only on whether there is a text, and on the error if
   there is none. The relation carried through the writers of values, lines and blocks is
   that of two runs that fail alike, `failure x = failure y`. -/
namespace ScriptLift

/-! A package under another name. -/

namespace Package

variable (p : Package) (name : String)

end Package

section Alike
variable {α β γ : Type} {x y : Except Error α}

/-- Steps that fail alike may be followed by steps that do, whatever they are given. -/
theorem failure_bind_alike {x : Except Error α} {y : Except Error β} {f : α → Except Error γ}
    {g : β → Except Error γ} (h : failure x = failure y) (hnext : ∀ a b, failure (f a) = failure (g b)) :
    failure (x >>= f) = failure (y >>= g) := by
  cases x with
  | error e =>
    cases y with
    | error e' => exact h
    | ok b => simp [failure] at h
  | ok a =>
    cases y with
    | error e' => simp [failure] at h
    | ok b => exact hnext a b

/-- After one and the same step, the next have to fail alike on its result only. -/
theorem failure_bind_same {f g : α → Except Error β} (hnext : ∀ a, failure (f a) = failure (g a)) :
    failure (x >>= f) = failure (x >>= g) := by
  cases x with
  | error e => rfl
  | ok a => exact hnext a

theorem failure_map (f : α → β) : failure (x.map f) = failure x := by
  cases x <;> rfl

end Alike

/-! Values as literals. -/

/-- The slots of a property fail alike where the literals of its values do. -/
theorem Property.failure_slotParts (p : Property) {stored stored' : List (Option (Except Error String))}
    (h : stored.map (Option.map failure) = stored'.map (Option.map failure)) (i count : Nat) :
    failure (p.slotParts stored i count) = failure (p.slotParts stored' i count) := by
  induction count generalizing i with
  | zero => rfl
  | succ count ih =>
    have hslot : stored[i]?.join.map failure = stored'[i]?.join.map failure := by
      have hget := congrArg (fun l => l[i]?.join) h
      simpa [Option.join_map_eq_map_join] using hget
    have hrest : ∀ a b : Option String,
        failure (do return (a.map (p.slotName i ++ "=" ++ ·)).toList ++ (← p.slotParts stored (i + 1) count)) =
          failure (do return (b.map (p.slotName i ++ "=" ++ ·)).toList ++ (← p.slotParts stored' (i + 1) count)) :=
      fun a b => failure_bind_alike (ih (i + 1)) fun _ _ => rfl
    unfold slotParts
    cases hs : stored[i]?.join with
    | none =>
      rw [hs, Option.map_none] at hslot
      rw [Option.map_eq_none_iff.mp hslot.symm]
      exact failure_bind_same fun a => hrest a a
    | some literal =>
      rw [hs, Option.map_some] at hslot
      obtain ⟨literal', hs', heq⟩ := Option.map_eq_some_iff.mp hslot.symm
      rw [hs']
      refine failure_bind_alike ?_ hrest
      rw [failure_map, failure_map, heq]

section Values
variable (p : Package) (m m' : Bool)

mutual

theorem Value.failure_literal (template : Property) : ∀ v : Value,
    failure (v.literal ⟨p, m⟩ template) = failure (v.literal ⟨p, m'⟩ template)
  | .byte _ | .int _ | .bool _ | .float _ | .name _ | .string _ => by simp only [Value.literal]
  | .object reference => by
    simp only [Value.literal]
    split
    · exact Context.failure_link_eq m m'
    · exact Context.failure_link_eq m m'
    · rfl
  | .array elements => by
    simp only [Value.literal]
    split
    · exact failure_bind_alike (Value.failure_literals _ elements) fun _ _ => rfl
    · rfl
  | .struct fields => by
    simp only [Value.literal]
    split
    · exact failure_bind_alike (Setting.failure_literals fields) fun _ _ => rfl
    · rfl

theorem Value.failure_literals (template : Property) : ∀ vs : List Value,
    failure (Value.literals ⟨p, m⟩ template vs) = failure (Value.literals ⟨p, m'⟩ template vs)
  | [] => rfl
  | v :: vs => by
    simp only [Value.literals]
    exact failure_bind_alike (Value.failure_literal template v) fun _ _ =>
      failure_bind_alike (Value.failure_literals template vs) fun _ _ => rfl

theorem Value.failure_slotLiterals (template : Property) : ∀ vs : List (Option Value),
    (Value.slotLiterals ⟨p, m⟩ template vs).map (Option.map failure) =
      (Value.slotLiterals ⟨p, m'⟩ template vs).map (Option.map failure)
  | [] => rfl
  | none :: vs => by
    simp only [Value.slotLiterals, List.map_cons, Value.failure_slotLiterals template vs]
  | some v :: vs => by
    simp only [Value.slotLiterals, List.map_cons, Option.map_some, Value.failure_literal template v,
      Value.failure_slotLiterals template vs]

theorem Setting.failure_literal : ∀ s : Setting,
    failure (s.literal ⟨p, m⟩) = failure (s.literal ⟨p, m'⟩)
  | ⟨template, slots⟩ => by
    simp only [Setting.literal]
    refine failure_bind_alike ?_ fun a b => ?_
    · exact template.failure_slotParts (Value.failure_slotLiterals template slots) 0 template.slotCount
    · cases a <;> cases b <;> rfl

theorem Setting.failure_literals : ∀ ss : List Setting,
    failure (Setting.literals ⟨p, m⟩ ss) = failure (Setting.literals ⟨p, m'⟩ ss)
  | [] => rfl
  | s :: ss => by
    simp only [Setting.literals]
    exact failure_bind_alike (Setting.failure_literal s) fun _ _ =>
      failure_bind_alike (Setting.failure_literals ss) fun _ _ => rfl

end

/-! Assignment lines and blocks. -/

variable {block block' : Reference → Except Error Text} (hblock : ∀ r, failure (block r) = failure (block' r))

include hblock

theorem Value.failure_exportBlock (template : Property) (v : Value) :
    failure (v.exportBlock p block template) = failure (v.exportBlock p block' template) := by
  cases v with
  | object r =>
    refine failure_bind_same fun needed => ?_
    split
    · exact failure_bind_alike (hblock r) fun _ _ => rfl
    · rfl
  | _ => rfl

theorem Value.failure_lines (template : Property) (name : String) (v : Value) :
    failure (v.lines ⟨p, m⟩ block template name) = failure (v.lines ⟨p, m'⟩ block' template name) :=
  failure_bind_alike (Value.failure_exportBlock p hblock template v) fun _ _ =>
    failure_bind_alike (Value.failure_literal p m m' template v) fun _ _ => rfl

theorem Value.failure_elementLines (element : Property) (name : String) (i : Nat) (vs : List Value) :
    failure (Value.elementLines ⟨p, m⟩ block element name i vs) =
      failure (Value.elementLines ⟨p, m'⟩ block' element name i vs) := by
  induction vs generalizing i with
  | nil => rfl
  | cons v vs ih =>
    exact failure_bind_alike (Value.failure_lines p m m' hblock element _ v) fun _ _ =>
      failure_bind_alike (ih (i + 1)) fun _ _ => rfl

theorem Property.failure_slotLines (template : Property) (i : Nat) (slot : Option Value) :
    failure (template.slotLines ⟨p, m⟩ block i slot) = failure (template.slotLines ⟨p, m'⟩ block' i slot) := by
  cases slot with
  | none => rfl
  | some v =>
    simp only [Property.slotLines]
    split
    · exact Value.failure_elementLines p m m' hblock _ _ _ _
    · exact Value.failure_lines p m m' hblock template _ _

theorem Setting.failure_linesFrom (s : Setting) (i count : Nat) :
    failure (s.linesFrom ⟨p, m⟩ block i count) = failure (s.linesFrom ⟨p, m'⟩ block' i count) := by
  induction count generalizing i with
  | zero => rfl
  | succ count ih =>
    exact failure_bind_alike (Property.failure_slotLines p m m' hblock s.template i (s.slot i)) fun _ _ =>
      failure_bind_alike (ih (i + 1)) fun _ _ => rfl

theorem Setting.failure_lines (settings : List Setting) :
    failure (Setting.lines ⟨p, m⟩ block settings) = failure (Setting.lines ⟨p, m'⟩ block' settings) := by
  induction settings with
  | nil => rfl
  | cons s rest ih =>
    exact failure_bind_alike (Setting.failure_linesFrom p m m' hblock s 0 _) fun _ _ =>
      failure_bind_alike ih fun _ _ => rfl

theorem Setting.failure_text (indent : Nat) (settings : List Setting) :
    failure (Setting.text ⟨p, m⟩ block indent settings) =
      failure (Setting.text ⟨p, m'⟩ block' indent settings) :=
  failure_bind_alike (Setting.failure_lines p m m' hblock settings) fun _ _ => rfl

omit hblock

end Values

/-! Declarations. -/

section Declarations
variable {render render' : Token → Except Error String}

theorem FunctionDecl.failure_text (hrender : ∀ t, failure (render t) = failure (render' t)) (indent : Nat)
    (f : FunctionDecl) :
    failure (f.text render indent) = failure (f.text render' indent) := by
  unfold FunctionDecl.text
  split
  · rfl
  · refine failure_bind_alike ?_ fun _ _ => rfl
    rw [Block.failure_text, Block.failure_text, firstFailure, firstFailure, funext hrender]

theorem Member.failure_byRank {a b : List Member.Written}
    (h : a.map (fun w => (w.rank, w.text.map failure)) = b.map fun w => (w.rank, w.text.map failure)) :
    (Member.byRank a).map (fun w => w.text.map failure) = (Member.byRank b).map fun w => w.text.map failure := by
  have hrank : ∀ (r : Nat) (l : List Member.Written), (l.filter (·.rank == r)).map (fun w => w.text.map failure) =
      ((l.map fun w => (w.rank, w.text.map failure)).filter (·.1 == r)).map (·.2) := by
    intro r l
    rw [List.filter_map, List.map_map]
    rfl
  unfold Member.byRank
  simp only [List.map_flatMap, hrank, h]

/-- A list of lines fails with the first of them that fails. -/
theorem Member.failure_concat {a b : List Member.Written}
    (h : a.map (fun w => w.text.map failure) = b.map fun w => w.text.map failure) :
    failure (Member.concat a) = failure (Member.concat b) := by
  induction a generalizing b with
  | nil =>
    cases b with
    | nil => rfl
    | cons w rest => simp at h
  | cons w rest ih =>
    cases b with
    | nil => simp at h
    | cons w' rest' =>
      have hline : w.text.map failure = w'.text.map failure := (List.cons.inj h).1
      have hrest := (List.cons.inj h).2
      unfold Member.concat
      cases hw : w.text with
      | none =>
        rw [hw, Option.map_none] at hline
        rw [Option.map_eq_none_iff.mp hline.symm]
        exact ih hrest
      | some line =>
        rw [hw, Option.map_some] at hline
        obtain ⟨line', hw', heq⟩ := Option.map_eq_some_iff.mp hline.symm
        rw [hw']
        exact failure_bind_alike heq.symm fun _ _ => failure_bind_alike (ih hrest) fun _ _ => rfl

mutual

theorem Member.failure_text (hrender : ∀ t, failure (render t) = failure (render' t)) (owner : Owner)
    (indent : Nat) : ∀ m : Member,
    failure (m.text render owner indent) = failure (m.text render' owner indent)
  | .const _ | .enum _ | .property _ => by simp only [Member.text]
  | .struct s => by
    simp only [Member.text]
    exact Scope.failure_text hrender .struct indent s
  | .state s => by
    simp only [Member.text]
    exact Scope.failure_text hrender .state indent s
  | .function f => by
    simp only [Member.text]
    exact FunctionDecl.failure_text hrender indent f

theorem Scope.failure_text (hrender : ∀ t, failure (render t) = failure (render' t)) (kind : OwnerKind)
    (indent : Nat) : ∀ s : Scope,
    failure (s.text render kind indent) = failure (s.text render' kind indent)
  | ⟨name, parent, members⟩ => by
    simp only [Scope.text]
    refine failure_bind_alike (Member.failure_concat ?_) fun _ _ => rfl
    exact Member.failure_byRank (Member.failure_written hrender ⟨kind, name, members⟩ (indent + 1) members)

theorem Member.failure_written (hrender : ∀ t, failure (render t) = failure (render' t)) (owner : Owner)
    (indent : Nat) : ∀ members : List Member,
    (Member.written render owner indent members).map (fun w => (w.rank, w.text.map failure)) =
      (Member.written render' owner indent members).map fun w => (w.rank, w.text.map failure)
  | [] => by simp only [Member.written]
  | m :: rest => by
    simp only [Member.written, List.map_cons, Member.failure_written hrender owner indent rest]
    split
    · rfl
    · simp only [Option.map_some, failure_map, Member.failure_text hrender owner indent m]

end

theorem Owner.failure_text (hrender : ∀ t, failure (render t) = failure (render' t)) (indent : Nat) (o : Owner) :
    failure (o.text render indent) = failure (o.text render' indent) :=
  Member.failure_concat (Member.failure_byRank (Member.failure_written hrender o indent o.members))

end Declarations

/-! Classes. -/

end ScriptLift
