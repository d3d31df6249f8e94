import ScriptLift.Package.Lookup
import ScriptLift.Proofs.Links

/- Classes and their ancestors.

   The way up from a class is a walk along the table of parents, and a class is below `base`
   when the walk comes to the name of `base`. The test looks only so far up as there are
   classes with a parent, and that is far enough for every table, with cycles or without
   (`isSubclass_iff_ancestor`).

   Two notions of equal names meet on the way. The name looked for is compared without regard
   to case, and a parent is looked up by its exact name; so a class that is met in another
   spelling than its own may have lost its ancestors. Being below is transitive where this does
   not happen (`isSubclass_trans_iff`). -/
namespace ScriptLift

namespace Package

/-- The name `k` steps up from a class, if its ancestry is known so far. -/
def ancestor? (p : Package) (k : Nat) (name : String) : Option String := follow p.hierarchy.get? k name

/-! The test with a limit on the names looked at. -/

section Limit
variable {t : Table String} {base name : String} {fuel : Nat}

theorem meets_iff : meets t base fuel name = true ↔
    ∃ k a, k < fuel ∧ follow t.get? k name = some a ∧ sameName a base = true := by
  induction fuel generalizing name with
  | zero => simp [meets]
  | succ fuel ih =>
    rw [meets, Bool.or_eq_true]
    constructor
    · rintro (hhere | habove)
      · exact ⟨0, name, Nat.succ_pos fuel, rfl, hhere⟩
      · split at habove
        · next parent hparent =>
          obtain ⟨k, a, hk, ha, hbase⟩ := ih.mp habove
          exact ⟨k + 1, a, Nat.succ_lt_succ hk, by rw [follow, hparent]; exact ha, hbase⟩
        · cases habove
    · rintro ⟨k, a, hk, ha, hbase⟩
      cases k with
      | zero => exact .inl (Option.some.inj ha ▸ hbase)
      | succ k =>
        obtain ⟨parent, hparent, hrest⟩ := Option.bind_eq_some_iff.mp ha
        rw [hparent]
        exact .inr (ih.mpr ⟨k, a, Nat.lt_of_succ_lt_succ hk, hrest, hbase⟩)

/-- A limit above the number of classes with a parent is none. -/
theorem meets_iff_of_size_lt (h : t.size < fuel) : meets t base fuel name = true ↔
    ∃ k a, follow t.get? k name = some a ∧ sameName a base = true := by
  rw [meets_iff]
  constructor
  · rintro ⟨k, a, -, ha, hbase⟩
    exact ⟨k, a, ha, hbase⟩
  · rintro ⟨k, a, ha, hbase⟩
    have hkeys : ∀ name parent, t.get? name = some parent → name ∈ t.entries.map Prod.fst :=
      fun name parent hparent => List.mem_map_of_mem (Table.get?_eq_some_iff.mp hparent)
    obtain ⟨m, hm, hreach⟩ := exists_follow_le hkeys ha
    rw [List.length_map] at hm
    exact ⟨m, a, Nat.lt_of_le_of_lt hm h, hreach, hbase⟩

end Limit

/-- A class is below `base` exactly when some number of steps up the hierarchy, each by the
exact name, leads from it to the name of `base`, whatever the case of its letters. A higher
limit on the steps gives the same answer for every hierarchy. -/
theorem isSubclass_iff_ancestor (p : Package) (base name : String) :
    (p.isSubclass base name = true ↔ ∃ k a, p.ancestor? k name = some a ∧ sameName a base = true) ∧
    ∀ fuel, p.hierarchy.size < fuel → meets p.hierarchy base fuel name = p.isSubclass base name := by
  refine ⟨meets_iff_of_size_lt (Nat.lt_succ_self _), fun fuel hfuel => ?_⟩
  rw [Bool.eq_iff_iff, isSubclass, meets_iff_of_size_lt hfuel, meets_iff_of_size_lt (Nat.lt_succ_self _)]

/-- A class below two that are parents of one another. -/
def mutualParents : Package :=
  { Package.named "Maps" with
    hierarchy :=
      ⟨[("Game.Loop", "Game.Ring"), ("Game.Ring", "Game.Loop"), ("Game.Tail", "Game.Ring")], by decide⟩ }

example : mutualParents.isSubclass "game.loop" "Game.Tail" = true ∧
    mutualParents.isSubclass "Game.Base" "Game.Tail" = false := by decide +kernel

/-! The order of classes. -/

section Order
variable {p : Package} {a b c : String}

/-- A class is below every name that its way up comes to, in any spelling. -/
theorem isSubclass_of_ancestor {k : Nat} (h : p.ancestor? k c = some b) (hsame : sameName b a = true) :
    p.isSubclass a c = true :=
  (meets_iff_of_size_lt (Nat.lt_succ_self _)).mpr ⟨k, b, h, hsame⟩

theorem exists_ancestor (h : p.isSubclass a c = true) :
    ∃ k b, p.ancestor? k c = some b ∧ sameName b a = true :=
  (meets_iff_of_size_lt (Nat.lt_succ_self _)).mp h

/-- What the way up comes to has all its own ancestors on the way. -/
theorem isSubclass_of_isSubclass_ancestor {k : Nat} (h : p.ancestor? k c = some b)
    (hab : p.isSubclass a b = true) : p.isSubclass a c = true := by
  obtain ⟨j, d, hd, hsame⟩ := exists_ancestor hab
  have hway : p.ancestor? (k + j) c = some d := by
    rw [ancestor?, follow_add]
    exact Option.bind_eq_some_iff.mpr ⟨b, h, hd⟩
  exact isSubclass_of_ancestor hway hsame

/-- Where no spelling of a class loses its parent, a class is below all ancestors of every
class that it is below. -/
theorem isSubclass_ancestor_of_spellings
    (h : ∀ key parent name, p.hierarchy.get? key = some parent → sameName name key = true →
      p.isSubclass parent name = true)
    {k : Nat} {d : String} (hd : p.ancestor? k b = some d) (hbc : p.isSubclass b c = true) :
    p.isSubclass d c = true := by
  induction k generalizing b with
  | zero => exact Option.some.inj hd ▸ hbc
  | succ k ih =>
    -- The way up from `c` comes to a spelling of `b`; that has not lost the parent of `b`.
    obtain ⟨parent, hparent, hrest⟩ := Option.bind_eq_some_iff.mp hd
    obtain ⟨j, name, hname, hsame⟩ := exists_ancestor hbc
    exact ih hrest (isSubclass_of_isSubclass_ancestor hname (h b parent name hparent hsame))

end Order

/-- Being below is reflexive, and it is transitive through a class that the way up comes to in
its own spelling. It is transitive through every class exactly when each spelling of a class
with a known parent is below that parent. -/
theorem isSubclass_trans_iff (p : Package) :
    (∀ a, p.isSubclass a a = true) ∧
    (∀ a b c k, p.ancestor? k c = some b → p.isSubclass a b = true → p.isSubclass a c = true) ∧
    ((∀ a b c, p.isSubclass a b = true → p.isSubclass b c = true → p.isSubclass a c = true) ↔
      ∀ key parent name, p.hierarchy.get? key = some parent → sameName name key = true →
        p.isSubclass parent name = true) := by
  refine ⟨fun a => ?_, fun a b c k h hab => isSubclass_of_isSubclass_ancestor h hab, ?_, ?_⟩
  · exact isSubclass_of_ancestor (k := 0) rfl (sameName_refl a)
  · intro htrans key parent name hparent hsame
    have hup : p.isSubclass parent key = true :=
      isSubclass_of_ancestor (k := 1) (follow_one hparent) (sameName_refl parent)
    have hspelled : p.isSubclass key name = true := isSubclass_of_ancestor (k := 0) rfl hsame
    exact htrans parent key name hup hspelled
  · intro hspellings a b c hab hbc
    obtain ⟨k, d, hd, hsame⟩ := exists_ancestor hab
    obtain ⟨j, e, he, hsame'⟩ := exists_ancestor (isSubclass_ancestor_of_spellings hspellings hd hbc)
    refine isSubclass_of_ancestor he ?_
    rw [← sameName_congr_right hsame e, hsame']

/-- A hierarchy that has the parent of a class in another spelling than the class itself. -/
def lowerCaseParent : Package :=
  { Package.named "Maps" with
    hierarchy := ⟨[("Engine.Light", "Engine.Actor"), ("Engine.Spotlight", "engine.light")], by decide⟩ }

/-- A spotlight is a light and a light is an actor, but a spotlight is none. -/
theorem isSubclass_trans_lowerCaseParent :
    lowerCaseParent.isSubclass "Engine.Actor" "Engine.Light" = true ∧
    lowerCaseParent.isSubclass "Engine.Light" "Engine.Spotlight" = true ∧
    lowerCaseParent.isSubclass "Engine.Actor" "Engine.Spotlight" = false ∧
    ¬ ∀ key parent name, lowerCaseParent.hierarchy.get? key = some parent → sameName name key = true →
      lowerCaseParent.isSubclass parent name = true := by
  have hlight : lowerCaseParent.isSubclass "Engine.Actor" "Engine.Light" = true := by decide +kernel
  have hspot : lowerCaseParent.isSubclass "Engine.Light" "Engine.Spotlight" = true := by decide +kernel
  have hactor : lowerCaseParent.isSubclass "Engine.Actor" "Engine.Spotlight" = false := by decide +kernel
  refine ⟨hlight, hspot, hactor, fun hspellings => ?_⟩
  have := (isSubclass_trans_iff lowerCaseParent).2.2.mpr hspellings _ _ _ hlight hspot
  rw [hactor] at this
  cases this

end Package

end ScriptLift
