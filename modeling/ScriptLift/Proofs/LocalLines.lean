import Mathlib.Data.List.Induction
import Mathlib.Data.List.Nodup
import Mathlib.Data.List.Perm.Basic
import ScriptLift.Declaration.Function

/- The lines of a function's locals.

   Locals are taken one by one into groups by their types, each into the group of its type or
   into a new one at the end. After every step the groups are those of the locals taken so far
   (`Grouped.add`): one for each type, in the order in which the types come up first, with the
   names of the locals of the type as they were declared. This leaves no choice: lists of locals
   with the same types first used in the same order, and with the same locals of each type in the
   same order, have the same lines (`Grouped.unique`). -/
namespace ScriptLift.FunctionDecl

/-- The position at which a type is first used. -/
def firstUse (locals : List Property) (type : String) : Nat := (locals.map Property.typeName).idxOf type

/-- The locals of one type, as they were declared. -/
def ofType (locals : List Property) (type : String) : List Property := locals.filter (·.typeName = type)

/-- The groups of a list of locals: one for each type, by first use, with the names of all its
locals. -/
structure Grouped (locals : List Property) (groups : List (String × List String)) : Prop where
  inOrder : (groups.map Prod.fst).Pairwise fun s t => firstUse locals s < firstUse locals t
  mem_iff : ∀ type, type ∈ groups.map Prod.fst ↔ ∃ p ∈ locals, p.typeName = type
  names_eq : ∀ g ∈ groups, g.2 = (ofType locals g.1).map Property.name

/-- The second list has the locals of the first, those of each type in the same order, and the
types are first used in the same order. -/
structure Reordered (locals locals' : List Property) : Prop where
  within : ∀ type, ofType locals' type = ofType locals type
  between : ∀ s t, firstUse locals' s < firstUse locals' t ↔ firstUse locals s < firstUse locals t

/-- The declarations that the groups make, each a type and a name. -/
def declared (groups : List (String × List String)) : List (String × String) :=
  groups.flatMap fun g => g.2.map (g.1, ·)

/-! One more local. -/

theorem firstUse_append {locals : List Property} {type : String} (h : ∃ p ∈ locals, p.typeName = type)
    (more : List Property) : firstUse (locals ++ more) type = firstUse locals type := by
  rw [firstUse, List.map_append]
  exact List.idxOf_append_of_mem (List.mem_map.mpr h)

theorem firstUse_lt {locals : List Property} {type : String} (h : ∃ p ∈ locals, p.typeName = type) :
    firstUse locals type < locals.length := by
  rw [← List.length_map Property.typeName]
  exact List.idxOf_lt_length_of_mem (List.mem_map.mpr h)

theorem firstUse_new {locals : List Property} {p : Property} (h : ¬ ∃ q ∈ locals, q.typeName = p.typeName) :
    firstUse (locals ++ [p]) p.typeName = locals.length := by
  rw [firstUse, List.map_append, List.idxOf_append_of_notMem (h ∘ List.mem_map.mp), List.length_map]
  simp

theorem map_fst_addLocal (type name : String) (groups : List (String × List String)) :
    (addLocal type name groups).map Prod.fst =
      if type ∈ groups.map Prod.fst then groups.map Prod.fst else groups.map Prod.fst ++ [type] := by
  induction groups with
  | nil => rfl
  | cons g groups ih =>
    obtain ⟨t, names⟩ := g
    rw [addLocal]
    by_cases ht : t = type
    · simp [ht]
    · rw [if_neg ht, List.map_cons, ih, List.map_cons]
      simp only [List.mem_cons, Ne.symm ht, false_or]
      split <;> rfl

theorem mem_map_fst_addLocal {type name t : String} {groups : List (String × List String)} :
    t ∈ (addLocal type name groups).map Prod.fst ↔ t = type ∨ t ∈ groups.map Prod.fst := by
  rw [map_fst_addLocal]
  split
  · next hold => exact ⟨.inr, fun h => h.elim (fun heq => heq ▸ hold) id⟩
  · rw [List.mem_append, List.mem_singleton, or_comm]

/-- A group after one more local: an old one of another type, the old one of its type with the
name at the end, or a new one. -/
theorem mem_addLocal {type name : String} {groups : List (String × List String)}
    (hnodup : (groups.map Prod.fst).Nodup) {g : String × List String} (h : g ∈ addLocal type name groups) :
    (g ∈ groups ∧ g.1 ≠ type) ∨ (∃ names, (type, names) ∈ groups ∧ g = (type, names ++ [name])) ∨
      (type ∉ groups.map Prod.fst ∧ g = (type, [name])) := by
  induction groups with
  | nil => exact .inr (.inr ⟨List.not_mem_nil, List.mem_singleton.mp h⟩)
  | cons first groups ih =>
    obtain ⟨t, names⟩ := first
    obtain ⟨hfirst, hrest⟩ := List.nodup_cons.mp hnodup
    rw [addLocal] at h
    split at h
    · next ht =>
      subst ht
      rcases List.mem_cons.mp h with rfl | hold
      · exact .inr (.inl ⟨names, List.mem_cons_self, rfl⟩)
      · refine .inl ⟨List.mem_cons_of_mem _ hold, ?_⟩
        rintro rfl
        exact hfirst (List.mem_map.mpr ⟨g, hold, rfl⟩)
    · next ht =>
      rcases List.mem_cons.mp h with rfl | hmem
      · exact .inl ⟨List.mem_cons_self, ht⟩
      · rcases ih hrest hmem with ⟨hold, hne⟩ | ⟨names', hold, rfl⟩ | ⟨hnew, rfl⟩
        · exact .inl ⟨List.mem_cons_of_mem _ hold, hne⟩
        · exact .inr (.inl ⟨names', List.mem_cons_of_mem _ hold, rfl⟩)
        · refine .inr (.inr ⟨?_, rfl⟩)
          rw [List.map_cons, List.mem_cons]
          exact not_or.mpr ⟨Ne.symm ht, hnew⟩

theorem declared_addLocal (type name : String) (groups : List (String × List String)) :
    (declared (addLocal type name groups)).Perm ((type, name) :: declared groups) := by
  induction groups with
  | nil => rfl
  | cons g groups ih =>
    obtain ⟨t, names⟩ := g
    rw [addLocal]
    split
    · next ht =>
      subst ht
      simp only [declared, List.flatMap_cons, List.map_append, List.map_cons, List.map_nil, List.append_assoc]
      exact List.perm_middle
    · exact (ih.append_left (names.map (t, ·))).trans List.perm_middle

/-! The groups of a list of locals. -/

theorem ofType_append (locals : List Property) (p : Property) (type : String) :
    ofType (locals ++ [p]) type = ofType locals type ++ if p.typeName = type then [p] else [] := by
  rw [ofType, List.filter_append]
  congr 1
  by_cases h : p.typeName = type <;> simp [h]

namespace Grouped

variable {locals : List Property} {groups : List (String × List String)}

theorem nil : Grouped [] [] := ⟨List.Pairwise.nil, by simp, by simp⟩

theorem nodup (h : Grouped locals groups) : (groups.map Prod.fst).Nodup :=
  h.inOrder.imp fun hlt heq => absurd (heq ▸ hlt) (Nat.lt_irrefl _)

/-- What one step of the grouping does. -/
theorem add (h : Grouped locals groups) (p : Property) :
    Grouped (locals ++ [p]) (addLocal p.typeName p.name groups) := by
  have hkeep : (groups.map Prod.fst).Pairwise fun s t => firstUse (locals ++ [p]) s < firstUse (locals ++ [p]) t := by
    refine h.inOrder.imp_of_mem fun hs ht hlt => ?_
    rwa [firstUse_append ((h.mem_iff _).mp hs), firstUse_append ((h.mem_iff _).mp ht)]
  refine ⟨?_, fun type => ?_, fun g hg => ?_⟩
  · rw [map_fst_addLocal]
    split
    · exact hkeep
    · next hnew =>
      -- A new type is first used where the locals so far end.
      rw [h.mem_iff] at hnew
      refine List.pairwise_append.mpr ⟨hkeep, List.pairwise_singleton _ _, fun s hs t ht => ?_⟩
      rw [List.mem_singleton.mp ht, firstUse_append ((h.mem_iff s).mp hs), firstUse_new hnew]
      exact firstUse_lt ((h.mem_iff s).mp hs)
  · rw [mem_map_fst_addLocal, h.mem_iff]
    constructor
    · rintro (rfl | ⟨q, hq, htype⟩)
      · exact ⟨p, List.mem_append_right _ List.mem_cons_self, rfl⟩
      · exact ⟨q, List.mem_append_left _ hq, htype⟩
    · rintro ⟨q, hq, htype⟩
      rcases List.mem_append.mp hq with hq | hq
      · exact .inr ⟨q, hq, htype⟩
      · exact .inl (List.mem_singleton.mp hq ▸ htype.symm)
  · rw [ofType_append, List.map_append]
    rcases mem_addLocal h.nodup hg with ⟨hold, hne⟩ | ⟨names, hold, rfl⟩ | ⟨hnew, rfl⟩
    · rw [if_neg (Ne.symm hne), List.map_nil, List.append_nil]
      exact h.names_eq g hold
    · rw [if_pos rfl, ← h.names_eq _ hold]
      rfl
    · have hnone : ofType locals p.typeName = [] := by
        rw [ofType, List.filter_eq_nil_iff]
        intro q hq htype
        exact hnew ((h.mem_iff _).mpr ⟨q, hq, of_decide_eq_true htype⟩)
      rw [hnone, if_pos rfl]
      rfl

/-- The types in their order and the locals leave no choice. -/
theorem eq_map (h : Grouped locals groups) :
    groups = (groups.map Prod.fst).map fun type => (type, (ofType locals type).map Property.name) := by
  rw [List.map_map]
  refine (List.map_id groups).symm.trans (List.map_congr_left fun g hg => ?_)
  exact Prod.ext rfl (h.names_eq g hg)

theorem unique {locals' : List Property} {groups' : List (String × List String)} (h : Grouped locals groups)
    (h' : Grouped locals' groups') (hsame : Reordered locals locals') : groups' = groups := by
  have hmem : ∀ type, type ∈ groups'.map Prod.fst ↔ type ∈ groups.map Prod.fst := by
    intro type
    have huses : ∀ l : List Property, (∃ p ∈ l, p.typeName = type) ↔ ofType l type ≠ [] := by
      intro l
      simp [ofType, List.filter_eq_nil_iff]
    rw [h'.mem_iff, h.mem_iff, huses, huses, hsame.within]
  have htypes : groups'.map Prod.fst = groups.map Prod.fst := by
    refine List.Perm.eq_of_pairwise (fun s t _ _ hst hts => absurd (Nat.lt_trans hst hts) (Nat.lt_irrefl _))
      (h'.inOrder.imp fun hlt => (hsame.between _ _).mp hlt) h.inOrder ?_
    exact (List.perm_ext_iff_of_nodup h'.nodup h.nodup).mpr hmem
  rw [h'.eq_map, h.eq_map, htypes]
  simp only [hsame.within]

end Grouped

/-- What the whole grouping does: after every local the groups are those of the locals so far. -/
theorem grouped_localGroups (locals : List Property) : Grouped locals (localGroups locals) := by
  induction locals using List.reverseRecOn with
  | nil => exact .nil
  | append_singleton locals p ih =>
    rw [localGroups, List.foldl_append]
    exact ih.add p

theorem declared_localGroups (locals : List Property) :
    (declared (localGroups locals)).Perm (locals.map fun p => (p.typeName, p.name)) := by
  induction locals using List.reverseRecOn with
  | nil => rfl
  | append_singleton locals p ih =>
    rw [localGroups, List.foldl_append, List.map_append]
    refine (declared_addLocal p.typeName p.name _).trans ((ih.cons _).trans ?_)
    exact (List.perm_append_singleton _ _).symm

/-! The text of a function. -/

theorem localsText_eq (f : FunctionDecl) (indent : Nat) : f.localsText indent =
    (localGroups f.locals).flatMap (fun g =>
        Text.lineOf indent ("local " ++ g.1 ++ " " ++ ", ".intercalate g.2 ++ ";")) ++
      if localGroups f.locals = [] then [] else Text.line 0 := by
  unfold localsText
  split
  · next hnone => simp [hnone]
  · next hsome =>
    rw [if_neg hsome]
    rfl

theorem localGroups_reordered {locals locals' : List Property} (h : Reordered locals locals') :
    localGroups locals' = localGroups locals :=
  (grouped_localGroups locals).unique (grouped_localGroups locals') h

/-- The header, and in braces the lines of the locals and the statements. -/
theorem text_of_body (render : Token → Except Error String) (indent : Nat) {f : FunctionDecl}
    (hbody : f.isHeaderOnly = false) : f.text render indent = do
      let body ← Block.text render (indent + 1) (Block.ofBody f.body)
      return Text.lit f.signature ++ Stmt.braces indent (f.localsText (indent + 1) ++ body) := by
  rw [text, hbody]
  rfl

/-- The header reads the parameters and the return value, and no other property. -/
theorem signature_congr {f : FunctionDecl} {properties : List Property}
    (hparameters : { f with properties }.parameters = f.parameters)
    (hreturned : { f with properties }.returned = f.returned) :
    { f with properties }.signature = f.signature := by
  unfold signature returnWord
  rw [hparameters, hreturned]
  rfl

/-- The locals of a function with a body. Between the opening brace and the statements stand the
lines of the groups of its locals and an empty line, or nothing when there are no locals. A group
has one line: the word `local`, the type, the names with commas between them, and a semicolon.
There is a group for each type, by first use, with the names of the locals of the type as they
were declared, and each local is declared once. Locals that are reordered without a change in the
order of first uses or in the order within a type have the same lines, and the function has the
same text when its parameters and its return value stay as they are. -/
theorem text_locals (render : Token → Except Error String) (indent : Nat) (f : FunctionDecl)
    (hbody : f.isHeaderOnly = false) :
    (f.text render indent = do
      let body ← Block.text render (indent + 1) (Block.ofBody f.body)
      let lines := (localGroups f.locals).flatMap fun g =>
        Text.lineOf (indent + 1) ("local " ++ g.1 ++ " " ++ ", ".intercalate g.2 ++ ";")
      let gap := if localGroups f.locals = [] then [] else Text.line 0
      return Text.lit f.signature ++ Stmt.braces indent (lines ++ gap ++ body)) ∧
    Grouped f.locals (localGroups f.locals) ∧
    (declared (localGroups f.locals)).Perm (f.locals.map fun p => (p.typeName, p.name)) ∧
    ∀ properties : List Property, Reordered f.locals { f with properties }.locals →
      { f with properties }.localsText (indent + 1) = f.localsText (indent + 1) ∧
      ({ f with properties }.parameters = f.parameters → { f with properties }.returned = f.returned →
        { f with properties }.text render indent = f.text render indent) := by
  refine ⟨?_, grouped_localGroups _, declared_localGroups _, fun properties hreordered => ?_⟩
  · rw [text_of_body render indent hbody, localsText_eq]
  · have hlines : { f with properties }.localsText (indent + 1) = f.localsText (indent + 1) := by
      rw [localsText_eq, localsText_eq, localGroups_reordered hreordered]
    refine ⟨hlines, fun hparameters hreturned => ?_⟩
    have hbody' : { f with properties }.isHeaderOnly = false := hbody
    rw [text_of_body render indent hbody, text_of_body render indent hbody', hlines,
      signature_congr hparameters hreturned]

/-- A local of this name and kind. -/
def localOf (name : String) (kind : Kind) : Property := ⟨name, kind, ⟨0⟩, ⟨0⟩, 1, none⟩

/-- A function with these locals that does nothing but stop. -/
def stopping (locals : List Property) : FunctionDecl := ⟨"Tick", ⟨0⟩, 0, 0, locals, [⟨0, .stop⟩]⟩

/-- Two types in turn. -/
def turnLocals : List Property :=
  [localOf "i" .int, localOf "Scale" .float, localOf "j" .int, localOf "Rate" .float]

/-- The same locals, the later ones in another order. -/
def turnedLocals : List Property :=
  [localOf "i" .int, localOf "Scale" .float, localOf "Rate" .float, localOf "j" .int]

theorem reordered_turnedLocals : Reordered turnLocals turnedLocals := by
  have htype : ∀ name, (localOf name .int).typeName = "int" ∧ (localOf name .float).typeName = "float" :=
    fun _ => ⟨rfl, rfl⟩
  constructor
  · intro type
    by_cases hint : "int" = type
    · subst hint
      simp [ofType, turnLocals, turnedLocals, htype]
    · simp [ofType, turnLocals, turnedLocals, htype, hint, List.filter_cons]
  · intro s t
    simp only [firstUse, turnLocals, turnedLocals, List.map_cons, List.map_nil, htype, List.idxOf_cons, List.idxOf_nil]
    grind

/-- Two lines for four locals, in either order. -/
theorem text_locals_turned :
    (stopping turnLocals).isHeaderOnly = false ∧ Reordered (stopping turnLocals).locals (stopping turnedLocals).locals ∧
    localGroups (stopping turnLocals).locals = [("int", ["i", "j"]), ("float", ["Scale", "Rate"])] ∧
    (stopping turnLocals).text (fun _ => .ok "stop") 0 =
      .ok [.verbatim "function Tick()", .lineBreak 0, .verbatim "\x7b", .lineBreak 1, .verbatim "local int i, j;",
        .lineBreak 1, .verbatim "local float Scale, Rate;", .lineBreak 0, .lineBreak 1, .verbatim "stop;",
        .lineBreak 0, .verbatim "\x7d"] ∧
    (stopping turnedLocals).text (fun _ => .ok "stop") 0 = (stopping turnLocals).text (fun _ => .ok "stop") 0 := by
  have hbody : (stopping turnLocals).isHeaderOnly = false := by decide
  have hreordered : Reordered (stopping turnLocals).locals (stopping turnedLocals).locals := reordered_turnedLocals
  obtain ⟨hlines, -, -, hsame⟩ := text_locals (fun _ => .ok "stop") 0 (stopping turnLocals) hbody
  refine ⟨hbody, hreordered, by decide, hlines.trans rfl, ?_⟩
  exact (hsame turnedLocals hreordered).2 rfl rfl

end ScriptLift.FunctionDecl
