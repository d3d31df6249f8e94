import ScriptLift.Stored.ObjectBlock

/- What the directory can be blamed for.

   Naming an object or its class follows references through the directory, and all that can go
   wrong on the way is a reference that leads nowhere or a cycle of outer objects. The lookups
   are taken in turn up to the texts that use no others; `FailsWith` is the small calculus for
   statements of this form. -/
namespace ScriptLift

/-- Where the computation fails, its error is one of these. -/
def FailsWith {α : Type} (P : Error → Prop) (x : Except Error α) : Prop := ∀ e, x = .error e → P e

namespace FailsWith

variable {α β : Type} {P Q : Error → Prop} {x : Except Error α}

theorem ok (a : α) : FailsWith P (.ok a) := fun _ h => by cases h

theorem pure (a : α) : FailsWith P (Pure.pure a : Except Error α) := ok a

theorem error {e : Error} (h : P e) : FailsWith P (.error e : Except Error α) :=
  fun _ heq => Except.error.inj heq ▸ h

theorem bind {f : α → Except Error β} (hx : FailsWith P x) (hf : ∀ a, x = .ok a → FailsWith P (f a)) :
    FailsWith P (x >>= f) := by
  intro e h
  cases x with
  | error e' => exact hx e (congrArg _ (Except.error.inj h))
  | ok a => exact hf a rfl e h

theorem mono (hx : FailsWith P x) (h : ∀ e, P e → Q e) : FailsWith Q x := fun e he => h e (hx e he)

end FailsWith

/-- An error of the directory. -/
inductive Error.OfDirectory : Error → Prop where
  | unresolved (r : Reference) : OfDirectory (.unresolved r)
  | cyclicOuter (r : Reference) : OfDirectory (.cyclicOuter r)

namespace Package

variable (p : Package)

theorem failsWith_entry (r : Reference) : FailsWith Error.OfDirectory (p.entry r) := by
  simp only [entry]
  split
  · exact .ok _
  · split <;> split
    · exact .ok _
    · exact .error (.unresolved r)
    · exact .ok _
    · exact .error (.unresolved r)

theorem failsWith_exportOf (r : Reference) : FailsWith Error.OfDirectory (p.exportOf r) := by
  refine (p.failsWith_entry r).bind fun entry _ => ?_
  match entry with
  | none | some (.imported _) => exact .error (.unresolved r)
  | some (.exported _) => exact .pure _

theorem failsWith_className (e : Entry) : FailsWith Error.OfDirectory (p.className e) := by
  cases e with
  | imported i => exact .ok _
  | exported e =>
    refine (p.failsWith_entry e.classRef).bind fun entry _ => ?_
    cases entry <;> exact .pure _

theorem failsWith_namesOutward (start : Reference) (fuel : Nat) (r : Reference) :
    FailsWith Error.OfDirectory (p.namesOutward start fuel r) := by
  induction fuel generalizing r with
  | zero =>
    refine (p.failsWith_entry r).bind fun entry _ => ?_
    cases entry with
    | none => exact .pure _
    | some e => exact .error (.cyclicOuter start)
  | succ fuel ih =>
    refine (p.failsWith_entry r).bind fun entry _ => ?_
    cases entry with
    | none => exact .pure _
    | some e => exact (ih e.outer).bind fun _ _ => .pure _

theorem failsWith_innerName (r : Reference) : FailsWith Error.OfDirectory (p.innerName r) :=
  (p.failsWith_namesOutward r _ r).bind fun _ _ => .pure _

theorem failsWith_fullName (r : Reference) : FailsWith Error.OfDirectory (p.fullName r) := by
  refine (p.failsWith_entry r).bind fun entry _ => ?_
  match entry with
  | none => exact .pure _
  | some (.imported _) => exact p.failsWith_innerName r
  | some (.exported _) => exact (p.failsWith_innerName r).bind fun _ _ => .pure _

theorem failsWith_classFullName (e : Export) : FailsWith Error.OfDirectory (p.classFullName e) := by
  unfold classFullName
  split
  · exact .ok _
  · exact p.failsWith_fullName e.classRef

theorem failsWith_blockWord (e : Export) : FailsWith Error.OfDirectory (p.blockWord e) :=
  (p.failsWith_classFullName e).bind fun _ _ => .pure _

theorem failsWith_listText (indent : Nat) (polygons : List Polygon) :
    FailsWith Error.OfDirectory (Polygon.listText p indent polygons) := by
  induction polygons with
  | nil => exact .pure _
  | cons polygon rest ih =>
    have htexture : FailsWith Error.OfDirectory (polygon.textureWord p) := by
      unfold Polygon.textureWord
      split
      · exact .pure _
      · exact (p.failsWith_fullName polygon.texture).bind fun _ _ => .pure _
    have hheader : FailsWith Error.OfDirectory (polygon.header p) := htexture.bind fun _ _ => .pure _
    have hfirst : FailsWith Error.OfDirectory (polygon.text p indent) := hheader.bind fun _ _ => .pure _
    exact hfirst.bind fun _ _ => ih.bind fun _ _ => .pure _

end Package

theorem Context.failsWith_link (c : Context) (r : Reference) : FailsWith Error.OfDirectory (c.link r) := by
  refine (c.package.failsWith_entry r).bind fun entry _ => ?_
  cases entry with
  | none => exact .pure _
  | some e =>
    refine (c.package.failsWith_className e).bind fun _ _ => FailsWith.bind ?_ fun _ _ => .pure _
    cases e with
    | imported i => exact c.package.failsWith_fullName r
    | exported e =>
      simp only [pathOf]
      split
      · exact (c.package.failsWith_innerName r).bind fun _ _ => .pure _
      · exact c.package.failsWith_fullName r

end ScriptLift
