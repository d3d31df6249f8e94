import ScriptLift.Package.Lookup
import ScriptLift.Proofs.Links

/- Chains of outer objects.

   The path of an object is read off a chain: the object, the object around it, the one around
   that. `Package.Resolves` says which object a reference stands for and `Package.Outward`
   where such a chain leads, without a word about how either is looked up. A chain ends at the
   reference to nothing, ends at a reference with no object, or does not end. Names are
   collected up to a limit that only knows how many objects there are; as a chain that ends
   meets no object twice, the limit tells the third case from the other two
   (`innerName_eq_iff`). -/
namespace ScriptLift

theorem Reference.isNone_iff {r : Reference} : r.isNone = true ↔ r.index.toInt = 0 := by
  rw [isNone, beq_iff_eq, ← Int32.toInt_inj]
  rfl

namespace Package

/-- The object that a reference stands for: exports are counted up from 1, imports down
from -1. -/
inductive Resolves (p : Package) (r : Reference) : Entry → Prop where
  | exported (i : Nat) (e : Export) (hindex : r.index.toInt = i + 1) (hfound : p.exports[i]? = some e) :
      Resolves p r (.exported e)
  | imported (i : Nat) (e : Import) (hindex : r.index.toInt = -(i + 1)) (hfound : p.imports[i]? = some e) :
      Resolves p r (.imported e)

/-- A reference to something that is not in the directory. -/
def Dangling (p : Package) (r : Reference) : Prop := r.isNone = false ∧ ∀ e, ¬ p.Resolves r e

/-- From `r` the outer objects lead to `s`, past objects of these names. -/
inductive Outward (p : Package) : Reference → List String → Reference → Prop where
  | here (r : Reference) : Outward p r [] r
  | out {r s : Reference} {e : Entry} {names : List String} (h : p.Resolves r e)
      (rest : Outward p e.outer names s) : Outward p r (e.name :: names) s

/-- However far one goes outwards, there is an object further out. -/
def Endless (p : Package) (r : Reference) : Prop :=
  ∀ n, ∃ names s, names.length = n ∧ p.Outward r names s

variable {p : Package} {r s : Reference}

/-! What a reference stands for is what looking it up gives. -/

theorem entry_of_isNone (h : r.isNone = true) : p.entry r = .ok none := by
  rw [entry, if_pos (Reference.isNone_iff.mp h)]

theorem entry_of_resolves {e : Entry} (h : p.Resolves r e) : p.entry r = .ok (some e) := by
  cases h with
  | exported i e hindex hfound =>
    have hplace : r.index.toInt.toNat - 1 = i := by omega
    rw [entry, if_neg (by omega), if_pos (by omega), hplace, hfound]
  | imported i e hindex hfound =>
    have hplace : (-r.index.toInt).toNat - 1 = i := by omega
    rw [entry, if_neg (by omega), if_neg (by omega), hplace, hfound]

theorem entry_of_dangling (h : p.Dangling r) : p.entry r = .error (.unresolved r) := by
  have hzero : r.index.toInt ≠ 0 := fun hzero => Bool.eq_false_iff.mp h.1 (Reference.isNone_iff.mpr hzero)
  rw [entry, if_neg hzero]
  split
  · next hpos =>
    split
    · next e hfound => exact absurd (.exported _ e (by omega) hfound) (h.2 (.exported e))
    · rfl
  · next hneg =>
    split
    · next e hfound => exact absurd (.imported _ e (by omega) hfound) (h.2 (.imported e))
    · rfl

theorem resolves_cases (p : Package) (r : Reference) :
    r.isNone = true ∨ (∃ e, p.Resolves r e) ∨ p.Dangling r := by
  by_cases hnone : r.isNone = true
  · exact .inl hnone
  by_cases hfound : ∃ e, p.Resolves r e
  · exact .inr (.inl hfound)
  · exact .inr (.inr ⟨Bool.eq_false_iff.mpr hnone, not_exists.mp hfound⟩)

/-! Chains as walks along links. -/

/-- The outer object of a reference that stands for an object. -/
def outerOf (p : Package) (r : Reference) : Option Reference :=
  match p.entry r with
  | .ok (some e) => some e.outer
  | _ => none

theorem outerOf_of_resolves {e : Entry} (h : p.Resolves r e) : p.outerOf r = some e.outer := by
  rw [outerOf, entry_of_resolves h]

theorem resolves_of_outerOf (h : p.outerOf r = some s) : ∃ e, p.Resolves r e ∧ e.outer = s := by
  rcases p.resolves_cases r with hnone | ⟨e, he⟩ | hdangling
  · rw [outerOf, entry_of_isNone hnone] at h
    cases h
  · exact ⟨e, he, Option.some.inj ((outerOf_of_resolves he).symm.trans h)⟩
  · rw [outerOf, entry_of_dangling hdangling] at h
    cases h

theorem follow_of_outward {names : List String} (h : p.Outward r names s) :
    follow p.outerOf names.length r = some s := by
  induction h with
  | here r => rfl
  | out hr _ ih =>
    rw [List.length_cons, follow, outerOf_of_resolves hr]
    exact ih

theorem outward_of_follow {n : Nat} (h : follow p.outerOf n r = some s) :
    ∃ names, names.length = n ∧ p.Outward r names s := by
  induction n generalizing r with
  | zero => exact ⟨[], rfl, Option.some.inj h ▸ .here r⟩
  | succ n ih =>
    obtain ⟨t, ht, hrest⟩ := Option.bind_eq_some_iff.mp h
    obtain ⟨e, he, rfl⟩ := resolves_of_outerOf ht
    obtain ⟨names, hlength, hnames⟩ := ih hrest
    exact ⟨e.name :: names, congrArg (· + 1) hlength, .out he hnames⟩

/-- Every reference that stands for an object. -/
def references (p : Package) : List Reference :=
  (List.range p.imports.length).map (fun i => ⟨.ofInt (-(i + 1))⟩) ++
    (List.range p.exports.length).map (fun i => ⟨.ofInt (i + 1)⟩)

theorem length_references (p : Package) : p.references.length = p.objectCount := by
  simp [references, objectCount]

theorem Resolves.mem_references {e : Entry} (h : p.Resolves r e) : r ∈ p.references := by
  have hindex : r = ⟨.ofInt r.index.toInt⟩ := by rw [Int32.ofInt_toInt]
  refine List.mem_append.mpr ?_
  cases h with
  | exported i e hi hfound =>
    have hlt := (List.getElem?_eq_some_iff.mp hfound).1
    exact .inr (List.mem_map.mpr ⟨i, List.mem_range.mpr hlt, by rw [← hi, ← hindex]⟩)
  | imported i e hi hfound =>
    have hlt := (List.getElem?_eq_some_iff.mp hfound).1
    exact .inl (List.mem_map.mpr ⟨i, List.mem_range.mpr hlt, by rw [← hi, ← hindex]⟩)

/-- The end of a chain: what is not an object has nothing around it. -/
def IsEnd (p : Package) (r : Reference) : Prop := r.isNone = true ∨ p.Dangling r

theorem IsEnd.outerOf_eq_none (h : p.IsEnd s) : p.outerOf s = none := by
  rcases h with h | h
  · rw [outerOf, entry_of_isNone h]
  · rw [outerOf, entry_of_dangling h]

/-- A chain that ends is no longer than the directory. -/
theorem Outward.length_le {names : List String} (h : p.Outward r names s) (hend : p.IsEnd s) :
    names.length ≤ p.objectCount := by
  rw [← p.length_references]
  refine le_length_of_follow (fun t u ht => ?_) (follow_of_outward h) hend.outerOf_eq_none
  obtain ⟨e, he, -⟩ := resolves_of_outerOf ht
  exact he.mem_references

/-- A chain ends or does not end. -/
theorem outward_cases (p : Package) (r : Reference) :
    (∃ names s, p.Outward r names s ∧ p.IsEnd s) ∨ p.Endless r := by
  rcases ends_or_endless p.outerOf r with ⟨n, s, hs, hend⟩ | hendless
  · obtain ⟨names, -, hnames⟩ := outward_of_follow hs
    refine .inl ⟨names, s, hnames, ?_⟩
    rcases p.resolves_cases s with hnone | ⟨e, he⟩ | hdangling
    · exact .inl hnone
    · rw [outerOf_of_resolves he] at hend
      cases hend
    · exact .inr hdangling
  · refine .inr fun n => ?_
    obtain ⟨s, hs⟩ := hendless n
    obtain ⟨names, hlength, hnames⟩ := outward_of_follow hs
    exact ⟨names, s, hlength, hnames⟩

/-! Names along a chain. -/

section Names
variable {start : Reference} {names : List String}

/-- Collecting names passes over a chain within the limit and goes on where it leads. -/
theorem namesOutward_add (h : p.Outward r names s) (fuel : Nat) :
    p.namesOutward start (names.length + fuel) r = (p.namesOutward start fuel s).map (names ++ ·) := by
  induction h with
  | here r =>
    rw [List.length_nil, Nat.zero_add]
    cases p.namesOutward start fuel r <;> rfl
  | @out r s e names hr _ ih =>
    rw [List.length_cons, Nat.succ_add, namesOutward, entry_of_resolves hr]
    show (do return e.name :: (← p.namesOutward start (names.length + fuel) e.outer)) = _
    rw [ih]
    cases p.namesOutward start fuel s <;> rfl

theorem namesOutward_of_isNone (h : s.isNone = true) (fuel : Nat) : p.namesOutward start fuel s = .ok [] := by
  cases fuel <;> rw [namesOutward, entry_of_isNone h] <;> rfl

theorem namesOutward_of_dangling (h : p.Dangling s) (fuel : Nat) :
    p.namesOutward start fuel s = .error (.unresolved s) := by
  cases fuel <;> rw [namesOutward, entry_of_dangling h] <;> rfl

theorem namesOutward_zero_of_resolves {e : Entry} (h : p.Resolves s e) :
    p.namesOutward start 0 s = .error (.cyclicOuter start) := by
  rw [namesOutward, entry_of_resolves h]
  rfl

/-- The limit is not met before the end of a chain. -/
theorem namesOutward_of_end (h : p.Outward r names s) (hend : p.IsEnd s) :
    ∃ fuel, p.namesOutward start (p.objectCount + 1) r = (p.namesOutward start fuel s).map (names ++ ·) := by
  have hle := h.length_le hend
  refine ⟨p.objectCount + 1 - names.length, ?_⟩
  rw [← namesOutward_add h, Nat.add_sub_cancel' (by omega)]

theorem innerName_of_isNone (h : p.Outward r names s) (hs : s.isNone = true) :
    p.innerName r = .ok (".".intercalate names.reverse) := by
  obtain ⟨fuel, hfuel⟩ := namesOutward_of_end h (.inl hs)
  rw [innerName, hfuel, namesOutward_of_isNone hs]
  show Except.ok (".".intercalate (names ++ []).reverse) = _
  rw [List.append_nil]

theorem innerName_of_dangling (h : p.Outward r names s) (hs : p.Dangling s) :
    p.innerName r = .error (.unresolved s) := by
  obtain ⟨fuel, hfuel⟩ := namesOutward_of_end h (.inr hs)
  rw [innerName, hfuel, namesOutward_of_dangling hs]
  rfl

theorem innerName_of_endless (h : p.Endless r) : p.innerName r = .error (.cyclicOuter r) := by
  -- The limit is used up at an object, as the chain goes on behind it.
  obtain ⟨long, t, hlength, hlong⟩ := h (p.objectCount + 1 + 1)
  obtain ⟨s, hs, hrest⟩ := follow_through (hlength ▸ follow_of_outward hlong) (Nat.le_succ (p.objectCount + 1))
  obtain ⟨u, hu, -⟩ := follow_through hrest (m := 1) (by omega)
  obtain ⟨e, he, -⟩ := resolves_of_outerOf (s := u) (by simpa [follow] using hu)
  obtain ⟨names, hnames, hchain⟩ := outward_of_follow hs
  rw [innerName, ← hnames, ← Nat.add_zero names.length, namesOutward_add hchain,
    namesOutward_zero_of_resolves he]
  rfl

end Names

/-- The path of an object. It is the names on the chain outwards from its reference, outermost
first, exactly when the chain ends at the reference to nothing; it fails with the reference at
which the chain leaves the directory exactly when it does, and with a cycle exactly when the
chain does not end. A chain that ends is no longer than the directory, so none is cut off. -/
theorem innerName_eq_iff (p : Package) (r : Reference) :
    (∀ path, p.innerName r = .ok path ↔
      ∃ names s, p.Outward r names s ∧ s.isNone = true ∧ path = ".".intercalate names.reverse) ∧
    (∀ error, p.innerName r = .error error ↔
      (∃ names s, p.Outward r names s ∧ p.Dangling s ∧ error = .unresolved s) ∨
      p.Endless r ∧ error = .cyclicOuter r) ∧
    (∀ names s, p.Outward r names s → s.isNone = true ∨ p.Dangling s → names.length ≤ p.objectCount) := by
  -- Each way in which a chain can end or not has one result, so the result tells the way.
  refine ⟨fun path => ⟨fun h => ?_, ?_⟩, fun error => ⟨fun h => ?_, ?_⟩, fun names s h => h.length_le⟩
  · rcases p.outward_cases r with ⟨names, s, hchain, hs | hs⟩ | hendless
    · rw [innerName_of_isNone hchain hs] at h
      exact ⟨names, s, hchain, hs, (Except.ok.inj h).symm⟩
    · rw [innerName_of_dangling hchain hs] at h
      cases h
    · rw [innerName_of_endless hendless] at h
      cases h
  · rintro ⟨names, s, hchain, hs, rfl⟩
    exact innerName_of_isNone hchain hs
  · rcases p.outward_cases r with ⟨names, s, hchain, hs | hs⟩ | hendless
    · rw [innerName_of_isNone hchain hs] at h
      cases h
    · rw [innerName_of_dangling hchain hs] at h
      exact .inl ⟨names, s, hchain, hs, (Except.error.inj h).symm⟩
    · rw [innerName_of_endless hendless] at h
      exact .inr ⟨hendless, (Except.error.inj h).symm⟩
  · rintro (⟨names, s, hchain, hs, rfl⟩ | ⟨hendless, rfl⟩)
    · exact innerName_of_dangling hchain hs
    · exact innerName_of_endless hendless

/-- Imports and exports inside one another by turns. -/
def alternating : Package :=
  { Package.named "Maps" with
    imports := [⟨"Lamp", "Engine", "Light", ⟨1⟩⟩, ⟨"Hall", "Engine", "Zone", ⟨2⟩⟩]
    exports := [⟨"Room", ⟨0⟩, ⟨0⟩, ⟨-2⟩, ⟨0⟩, none⟩, ⟨"House", ⟨0⟩, ⟨0⟩, ⟨0⟩, ⟨0⟩, none⟩] }

/-- A chain that has every import and every export on it. -/
theorem innerName_eq_iff_alternating :
    alternating.innerName ⟨-1⟩ = .ok "House.Hall.Room.Lamp" ∧
    ∃ names s, alternating.Outward ⟨-1⟩ names s ∧ s.isNone = true ∧
      names.length = alternating.objectCount := by
  have hchain : alternating.Outward ⟨-1⟩ ["Lamp", "Room", "Hall", "House"] ⟨0⟩ := by
    refine .out (e := .imported ⟨"Lamp", "Engine", "Light", ⟨1⟩⟩) (.imported 0 _ rfl rfl) ?_
    refine .out (e := .exported ⟨"Room", ⟨0⟩, ⟨0⟩, ⟨-2⟩, ⟨0⟩, none⟩) (.exported 0 _ rfl rfl) ?_
    refine .out (e := .imported ⟨"Hall", "Engine", "Zone", ⟨2⟩⟩) (.imported 1 _ rfl rfl) ?_
    refine .out (e := .exported ⟨"House", ⟨0⟩, ⟨0⟩, ⟨0⟩, ⟨0⟩, none⟩) (.exported 1 _ rfl rfl) ?_
    exact .here ⟨0⟩
  refine ⟨((innerName_eq_iff alternating ⟨-1⟩).1 _).mpr ⟨_, _, hchain, rfl, by decide +kernel⟩, ?_⟩
  exact ⟨_, _, hchain, rfl, rfl⟩

end Package

end ScriptLift
