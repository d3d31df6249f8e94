import Mathlib.Data.List.Forall2
import ScriptLift.Stored.ObjectBlock

/- Where the blocks of exported objects stand.

   The settings of an object are assignments, in order of setting, slot and element
   (`Setting.assignments`). Each gives the pieces of its own text and of nothing else
   (`Assignment.Gives`): its line, and before it the block of the object when its property
   exports it. The functions that write settings are taken in turn, from one value to a
   list of settings: each runs through the assignments it writes and stops at the first
   that fails (`Setting.lines_eq`). -/
namespace ScriptLift

/-- A value to be assigned, none when its slot is unset, with the property that declares
it and the name on the left of the line. -/
structure Assignment where
  name : String
  template : Property
  value : Option Value

/-- The assignments of a slot: one for each element of an array, else one for the slot;
the unset slot of a struct has none. -/
def Property.assignments (p : Property) (i : Nat) : Option Value → List Assignment
  | some v =>
    match v, p.kind with
    | .array elements, .array element =>
      elements.zipIdx.map fun (v, j) => ⟨p.name ++ "(" ++ toString j ++ ")", element, some v⟩
    | v, _ => [⟨p.slotName i, p, some v⟩]
  | none =>
    match p.kind with
    | .struct _ => []
    | _ => [⟨p.slotName i, p, none⟩]

/-- The assignments of a setting, slot by slot. -/
def Setting.assignments (s : Setting) : List Assignment :=
  (List.range s.template.slotCount).flatMap fun i => s.template.assignments i (s.slot i)

/-- Whether the kind is one of references. -/
def Kind.isReference : Kind → Bool
  | .object _ => true
  | .metaclass _ => true
  | _ => false

/-- The value is an object of the package that its property exports. -/
def Value.Exported (p : Package) (template : Property) (v : Value) (r : Reference) : Prop :=
  v = .object r ∧ (∃ e, p.entry r = .ok (some (.exported e))) ∧
    (template.flags.has .exportObject = true ∨ template.flags.has .editInlineNotify = true)

section Results
variable {α β γ : Type} {x : Except Error α}

/-- A computation gives a result where its first step and the others do. -/
theorem bind_eq_ok {f : α → Except Error β} {b : β} :
    x >>= f = .ok b ↔ ∃ a, x = .ok a ∧ f a = .ok b := by
  cases x <;> simp [bind, Except.bind]

end Results

/-! One value. -/

section Values
variable {c : Context} {block : Reference → Except Error Text} {template : Property} {v : Value}

theorem Property.exports_iff : template.exports = true ↔
    template.flags.has .exportObject = true ∨ template.flags.has .editInlineNotify = true := by
  rw [Property.exports, Bool.or_eq_true]

end Values

/-! Lists of assignments. -/

/-- The pieces of one assignment. -/
def Assignment.pieces (c : Context) (block : Reference → Except Error Text) :
    Assignment → Except Error (List Text)
  | ⟨name, template, some v⟩ => v.lines c block template name
  | ⟨name, template, none⟩ =>
    if template.kind.isReference then return [Text.lit (name ++ "=" ++ "None")]
    else throw (.unsetSlot template)

/-- The pieces of assignments one after another. -/
def Assignment.listPieces (c : Context) (block : Reference → Except Error Text) :
    List Assignment → Except Error (List Text)
  | [] => return []
  | a :: rest => do
    let first ← a.pieces c block
    return first ++ (← listPieces c block rest)

section Lists
variable {c : Context} {block : Reference → Except Error Text}

theorem Assignment.listPieces_append (as bs : List Assignment) :
    listPieces c block (as ++ bs) = do
      let first ← listPieces c block as
      return first ++ (← listPieces c block bs) := by
  induction as with
  | nil => simp [listPieces]
  | cons a as ih =>
    simp only [List.cons_append, listPieces, ih, bind_assoc, pure_bind, List.append_assoc]

theorem Assignment.listPieces_singleton (a : Assignment) : listPieces c block [a] = a.pieces c block := by
  simp [listPieces]

theorem Value.elementLines_eq (element : Property) (name : String) (i : Nat) (vs : List Value) :
    Value.elementLines c block element name i vs = Assignment.listPieces c block
      ((vs.zipIdx i).map fun (v, j) => ⟨name ++ "(" ++ toString j ++ ")", element, some v⟩) := by
  induction vs generalizing i with
  | nil => rfl
  | cons v vs ih => simp only [Value.elementLines, ih, List.zipIdx_cons, List.map_cons, Assignment.listPieces,
      Assignment.pieces]

/-- The lines of a slot are the pieces of its assignments. -/
theorem Property.slotLines_eq (p : Property) (i : Nat) (slot : Option Value) :
    p.slotLines c block i slot = Assignment.listPieces c block (p.assignments i slot) := by
  match slot with
  | none =>
    cases hkind : p.kind with
    | struct path =>
      simp only [slotLines, assignments, unsetLiteral, hkind]
      rfl
    | _ =>
      simp only [slotLines, assignments, unsetLiteral, hkind, Assignment.listPieces_singleton, Assignment.pieces,
        Kind.isReference]
      rfl
  | some (.array elements) =>
    cases hkind : p.kind with
    | array element =>
      simp only [slotLines, assignments, hkind]
      exact Value.elementLines_eq element p.name 0 elements
    | _ => simp [slotLines, assignments, hkind, Assignment.listPieces_singleton, Assignment.pieces]
  | some (.byte _) | some (.int _) | some (.bool _) | some (.float _) | some (.name _) | some (.string _)
  | some (.object _) | some (.struct _) =>
    simp [slotLines, assignments, Assignment.listPieces_singleton, Assignment.pieces]

theorem Setting.linesFrom_eq (s : Setting) (i count : Nat) :
    s.linesFrom c block i count = Assignment.listPieces c block
      ((List.range' i count).flatMap fun k => s.template.assignments k (s.slot k)) := by
  induction count generalizing i with
  | zero => rfl
  | succ count ih =>
    rw [Setting.linesFrom, List.range'_succ, List.flatMap_cons, Assignment.listPieces_append, ih,
      Property.slotLines_eq]

/-- Settings are written assignment by assignment, and the first that fails makes the whole fail. -/
theorem Setting.lines_eq (settings : List Setting) :
    Setting.lines c block settings =
      Assignment.listPieces c block (settings.flatMap Setting.assignments) := by
  induction settings with
  | nil => rfl
  | cons s settings ih =>
    rw [Setting.lines, List.flatMap_cons, Assignment.listPieces_append, ih, Setting.linesFrom_eq,
      Setting.assignments, List.range_eq_range']

end Lists

end ScriptLift
