import Mathlib.Data.List.Forall2
import Mathlib.Data.List.Infix
import ScriptLift.Package.Name

/- Paths by their segments.

   A path is names with dots between them, and a name is found at the end of a path by its
   segments. The test compares characters from the back. That comes to the same for all
   strings: a dot has no other case, so the folded path has the folded segments, and what
   stands behind a dot of a path is split as the path is. -/
namespace ScriptLift

/-- The segments of a path: what stands between its dots. -/
def segments (path : String) : List String := (path.toList.splitOn '.').map String.ofList

/-- The segments of the name are the last ones of the path, but for the case of ASCII
letters. -/
def EndsSegments (path name : String) : Prop :=
  ∃ front back, segments path = front ++ back ∧
    List.Forall₂ (fun a b => sameName a b = true) back (segments name)

/-! Splitting and joining. -/

theorem intercalate_append {α : Type} (sep : List α) {a b : List (List α)} (ha : a ≠ []) (hb : b ≠ []) :
    sep.intercalate (a ++ b) = sep.intercalate a ++ sep ++ sep.intercalate b := by
  induction a with
  | nil => exact absurd rfl ha
  | cons x a ih =>
    cases a with
    | nil => rw [List.singleton_append, List.intercalate_cons_of_ne_nil hb, List.intercalate_singleton]
    | cons y a =>
      rw [List.cons_append, List.intercalate_cons_of_ne_nil (by simp), ih (by simp),
        List.intercalate_cons_cons]
      simp only [List.append_assoc]

/-- A list ends in the segments of another when it ends in that other, from its start or from
behind a separator. -/
theorem splitOn_suffix_iff {sep : Char} {path name : List Char} :
    name.splitOn sep <:+ path.splitOn sep ↔ path = name ∨ ∃ front, path = front ++ sep :: name := by
  constructor
  · -- Joining undoes splitting, so the segments in front give what stands in front.
    rintro ⟨front, hfront⟩
    have hjoin : path = [sep].intercalate (front ++ name.splitOn sep) := by
      rw [hfront, List.intercalate_splitOn]
    by_cases hnil : front = []
    · left
      rw [hjoin, hnil, List.nil_append, List.intercalate_splitOn]
    · right
      refine ⟨[sep].intercalate front, ?_⟩
      rw [hjoin, intercalate_append [sep] hnil (List.splitOn_ne_nil _ _), List.intercalate_splitOn]
      simp
  · rintro (rfl | ⟨front, rfl⟩)
    · exact List.suffix_rfl
    · rw [List.splitOn_append_cons_self]
      exact List.suffix_append ..

/-! Case and dots. -/

theorem toNat_toLower (c : Char) :
    c.toLower.toNat = if 65 ≤ c.toNat ∧ c.toNat ≤ 90 then c.toNat + 32 else c.toNat := by
  have hletter : (c.val ≥ 'A'.val ∧ c.val ≤ 'Z'.val) ↔ 65 ≤ c.toNat ∧ c.toNat ≤ 90 := by
    rw [ge_iff_le, UInt32.le_iff_toNat_le, UInt32.le_iff_toNat_le]
    rfl
  unfold Char.toLower
  split
  · next h =>
    rw [if_pos (hletter.mp h)]
    show (c.toNat + 32) % 4294967296 = c.toNat + 32
    have := hletter.mp h
    omega
  · next h => rw [if_neg (h ∘ hletter.mpr)]

theorem toLower_eq_dot_iff {c : Char} : c.toLower = '.' ↔ c = '.' := by
  have hdot : '.'.toNat = 46 := rfl
  rw [← Char.toNat_inj, ← Char.toNat_inj, toNat_toLower, hdot]
  split <;> omega

/-- Folding the case of a path folds that of its segments. -/
theorem splitOn_map_toLower (l : List Char) :
    (l.map Char.toLower).splitOn '.' = (l.splitOn '.').map (List.map Char.toLower) := by
  induction l with
  | nil => rfl
  | cons c l ih =>
    rw [List.map_cons, List.splitOn_cons_eq_if_modifyHead, List.splitOn_cons_eq_if_modifyHead, ih]
    by_cases hc : c = '.'
    · subst hc
      rfl
    · have hlower : c.toLower ≠ '.' := fun h => hc (toLower_eq_dot_iff.mp h)
      simp only [beq_eq_false_iff_ne.mpr hc, beq_eq_false_iff_ne.mpr hlower, Bool.false_eq_true, if_false]
      cases l.splitOn '.' <;> rfl

theorem map_foldCase_segments (path : String) :
    (segments path).map foldCase = (foldCase path).splitOn '.' := by
  rw [foldCase, splitOn_map_toLower, segments, List.map_map]
  refine List.map_congr_left fun l _ => ?_
  simp [foldCase]

theorem endsSegments_iff {path name : String} :
    EndsSegments path name ↔ (foldCase name).splitOn '.' <:+ (foldCase path).splitOn '.' := by
  have hsame : ∀ back : List String, List.Forall₂ (fun a b => sameName a b = true) back (segments name) ↔
      back.map foldCase = (foldCase name).splitOn '.' := by
    intro back
    rw [← map_foldCase_segments, ← List.forall₂_eq_eq_eq, List.forall₂_map_left_iff, List.forall₂_map_right_iff]
    simp only [sameName_iff]
  simp only [EndsSegments, hsame, ← map_foldCase_segments path]
  constructor
  · rintro ⟨front, back, hsplit, hback⟩
    exact ⟨front.map foldCase, by rw [hsplit, List.map_append, hback]⟩
  · rintro ⟨front, hfront⟩
    obtain ⟨a, b, hab, -, hb⟩ := List.map_eq_append_iff.mp hfront.symm
    exact ⟨a, b, hab, hb⟩

/-- What the comparison from the back tests. -/
theorem endsPath_iff {path name : String} : endsPath path name = true ↔
    foldCase path = foldCase name ∨ ∃ front, foldCase path = front ++ '.' :: foldCase name := by
  simp only [endsPath, Bool.and_eq_true, List.isPrefixOf_iff_prefix]
  constructor
  · rintro ⟨⟨rest, hrest⟩, hbefore⟩
    have hpath : foldCase path = rest.reverse ++ foldCase name := by
      rw [← List.reverse_reverse (foldCase path), ← hrest, List.reverse_append, List.reverse_reverse]
    rw [← hrest, List.drop_left] at hbefore
    cases rest with
    | nil => exact .inl hpath
    | cons c rest =>
      obtain rfl : c = '.' := beq_iff_eq.mp hbefore
      exact .inr ⟨rest.reverse, by simpa using hpath⟩
  · rintro (hpath | ⟨front, hpath⟩)
    · rw [hpath, List.drop_length]
      exact ⟨List.prefix_rfl, rfl⟩
    · have hreverse : (foldCase path).reverse = (foldCase name).reverse ++ '.' :: front.reverse := by
        simp [hpath]
      rw [hreverse, List.drop_left]
      exact ⟨List.prefix_append .., rfl⟩

/-- A name ends a path exactly when its segments do. -/
theorem endsPath_iff_segments {path name : String} : endsPath path name = true ↔ EndsSegments path name := by
  rw [endsPath_iff, endsSegments_iff, splitOn_suffix_iff]

example : endsPath "Game..EMode" ".emode" = true ∧ endsPath "Game.EMode" ".EMode" = false ∧
    endsPath "Game." "" = true := by decide +kernel

end ScriptLift
