import Mathlib.Data.Rat.Floor
import Mathlib.Tactic.FieldSimp
import Mathlib.Tactic.Linarith
import Mathlib.Tactic.Positivity
import Mathlib.Tactic.Ring
import ScriptLift.Numeric.SingleText
import ScriptLift.Proofs.JsonText

/- Rounding on digits is rounding of numbers.

   A numeral is cut to a fixed number of places by keeping digits, or zeros for those it lacks,
   and adding one to the last of them when the first digit dropped is five or more. What is kept
   is the whole part of the number in units of the last place, and what is dropped is at least
   half a unit exactly when its first digit is five or more (`floor_scaled`). So the result is
   the number rounded to the nearest unit, a half going away from zero, however far the carry
   runs (`toPlaces_rounded`); a digit is added in front only when it runs through all of them. -/
namespace ScriptLift

/-! Numbers by their digits. -/

theorem ofDigits_append (front back : List Digit) :
    ofDigits (front ++ back) = ofDigits front * 10 ^ back.length + ofDigits back := by
  have hfold : ∀ (ds : List Digit) (n : Nat),
      ds.foldl (fun n d => 10 * n + d.val) n = n * 10 ^ ds.length + ofDigits ds := by
    intro ds
    induction ds with
    | nil => intro n; simp [ofDigits]
    | cons d ds ih =>
      intro n
      rw [ofDigits, List.foldl_cons, List.foldl_cons, ih, ih, List.length_cons, pow_succ]
      ring
  rw [ofDigits, List.foldl_append, hfold]
  rfl

theorem ofDigits_nil : ofDigits [] = 0 := rfl

theorem ofDigits_cons (d : Digit) (ds : List Digit) :
    ofDigits (d :: ds) = d.val * 10 ^ ds.length + ofDigits ds := by
  have hfirst : ofDigits [d] = d.val := by simp [ofDigits]
  rw [← hfirst, ← ofDigits_append, List.singleton_append]

theorem ofDigits_lt (ds : List Digit) : ofDigits ds < 10 ^ ds.length := by
  induction ds with
  | nil => exact Nat.one_pos
  | cons d ds ih =>
    have hfirst : (d.val + 1) * 10 ^ ds.length ≤ 10 * 10 ^ ds.length := Nat.mul_le_mul_right _ d.isLt
    rw [ofDigits_cons, List.length_cons, pow_succ']
    linarith

theorem ofDigits_replicate_zero (n : Nat) : ofDigits (List.replicate n 0) = 0 := by
  induction n with
  | zero => rfl
  | succ n ih => rw [List.replicate_succ, ofDigits_cons, ih, Fin.val_zero, Nat.zero_mul]

namespace Numeral

/-- The number that a numeral writes, but for its sign. -/
def magnitude (n : Numeral) : ℚ := ofDigits n.whole + ofDigits n.fraction / 10 ^ n.fraction.length

/-- The first digit behind the last place kept is five or more. -/
def RoundsUp (places : Nat) (n : Numeral) : Prop := ∃ d, n.fraction[places]? = some d ∧ 5 ≤ d.val

/-- The carry of rounding runs through every digit: all that are kept are nines. -/
def CarriesThrough (places : Nat) (n : Numeral) : Prop :=
  n.RoundsUp places ∧ ∀ d ∈ n.whole ++ n.fraction.take places, d.val = 9

/-- A numeral is another one rounded to a number of places. -/
structure RoundedTo (places : Nat) (n rounded : Numeral) : Prop where
  negative_eq : rounded.negative = n.negative
  length_fraction : rounded.fraction.length = places
  magnitude_eq : rounded.magnitude = ⌊n.magnitude * 10 ^ places + 1 / 2⌋ / 10 ^ places
  length_whole : rounded.whole.length = n.whole.length ∨ rounded.whole.length = n.whole.length + 1
  lengthened_iff : rounded.whole.length = n.whole.length + 1 ↔ n.CarriesThrough places

/-! One more in the last place. -/

/-- A digit takes part only where a carry comes out of those behind it. -/
theorem bump_cons (d : Digit) (ds : List Digit) :
    ((bump ds).1 = true ∧ d = 9 ∧ bump (d :: ds) = (true, 0 :: (bump ds).2)) ∨
    ((bump ds).1 = true ∧ d ≠ 9 ∧ bump (d :: ds) = (false, (d + 1) :: (bump ds).2)) ∨
    ((bump ds).1 = false ∧ bump (d :: ds) = (false, d :: (bump ds).2)) := by
  rw [bump]
  rcases bump ds with ⟨carry, bumped⟩
  cases carry with
  | false => exact .inr (.inr ⟨rfl, rfl⟩)
  | true =>
    by_cases hnine : d = 9
    · exact .inl ⟨rfl, hnine, if_pos hnine⟩
    · exact .inr (.inl ⟨rfl, hnine, if_neg hnine⟩)

theorem length_bump (ds : List Digit) : (bump ds).2.length = ds.length := by
  induction ds with
  | nil => rfl
  | cons d ds ih =>
    obtain ⟨-, -, hbump⟩ | ⟨-, -, hbump⟩ | ⟨-, hbump⟩ := bump_cons d ds
    all_goals
      rw [hbump]
      exact congrArg (· + 1) ih

theorem bump_carries_iff (ds : List Digit) : (bump ds).1 = true ↔ ∀ d ∈ ds, d = 9 := by
  induction ds with
  | nil => exact iff_of_true rfl (List.forall_mem_nil _)
  | cons d ds ih =>
    rw [List.forall_mem_cons, ← ih]
    obtain ⟨hcarry, hnine, hbump⟩ | ⟨hcarry, hnine, hbump⟩ | ⟨hcarry, hbump⟩ := bump_cons d ds
    · rw [hbump]
      exact iff_of_true rfl ⟨hnine, hcarry⟩
    · rw [hbump]
      exact iff_of_false Bool.false_ne_true fun h => hnine h.1
    · rw [hbump, hcarry]
      exact iff_of_false Bool.false_ne_true fun h => Bool.false_ne_true h.2

theorem val_add_one {d : Digit} (h : d ≠ 9) : (d + 1).val = d.val + 1 := by
  revert d
  decide

/-- A carry out of the first digit stands for one in front of it. -/
theorem ofDigits_bump (ds : List Digit) :
    (if (bump ds).1 then 10 ^ ds.length else 0) + ofDigits (bump ds).2 = ofDigits ds + 1 := by
  induction ds with
  | nil => rfl
  | cons d ds ih =>
    obtain ⟨hcarry, rfl, hbump⟩ | ⟨hcarry, hnine, hbump⟩ | ⟨hcarry, hbump⟩ := bump_cons d ds
    · simp only [hcarry, if_true] at ih
      simp only [hbump, if_true, ofDigits_cons, length_bump, List.length_cons, Fin.val_zero, Nat.add_assoc, ← ih]
      show 10 ^ (ds.length + 1) + _ = 9 * 10 ^ ds.length + _
      ring
    · simp only [hcarry, if_true] at ih
      simp only [hbump, Bool.false_eq_true, if_false, ofDigits_cons, length_bump, val_add_one hnine, Nat.add_assoc, ← ih]
      ring
    · simp only [hcarry, Bool.false_eq_true, if_false] at ih
      simp only [hbump, Bool.false_eq_true, if_false, ofDigits_cons, length_bump, Nat.add_assoc, ← ih]
      ring

theorem increment_eq (ds : List Digit) : increment ds = if (bump ds).1 then 1 :: (bump ds).2 else (bump ds).2 := by
  rw [increment]
  rcases bump ds with ⟨carry, bumped⟩
  cases carry <;> rfl

theorem ofDigits_increment (ds : List Digit) : ofDigits (increment ds) = ofDigits ds + 1 := by
  rw [← ofDigits_bump ds, increment_eq]
  split
  · rw [ofDigits_cons, length_bump, Fin.val_one, Nat.one_mul]
  · rw [Nat.zero_add]

theorem length_increment_of_nines {ds : List Digit} (h : ∀ d ∈ ds, d = 9) :
    (increment ds).length = ds.length + 1 := by
  rw [increment_eq, if_pos ((bump_carries_iff ds).mpr h), List.length_cons, length_bump]

theorem length_increment_of_not_nines {ds : List Digit} (h : ¬ ∀ d ∈ ds, d = 9) :
    (increment ds).length = ds.length := by
  rw [increment_eq, if_neg (h ∘ (bump_carries_iff ds).mp), length_bump]

/-! What is kept and what is dropped. -/

/-- The digits that a cut keeps. -/
def kept (places : Nat) (n : Numeral) : List Digit := n.whole ++ padded places n.fraction

/-- The digits that a cut leaves, in one row. -/
def cut (places : Nat) (n : Numeral) : List Digit :=
  match n.fraction.drop places with
  | d :: _ => if 5 ≤ d.val then increment (kept places n) else kept places n
  | [] => kept places n

variable {places : Nat} {n : Numeral}

theorem cut_of_roundsUp (h : n.RoundsUp places) : n.cut places = increment (n.kept places) := by
  obtain ⟨d, hd, hfive⟩ := h
  obtain ⟨hlt, rfl⟩ := List.getElem?_eq_some_iff.mp hd
  rw [cut, List.drop_eq_getElem_cons hlt]
  exact if_pos hfive

theorem cut_of_not_roundsUp (h : ¬ n.RoundsUp places) : n.cut places = n.kept places := by
  rw [cut]
  split
  · next d rest hdrop =>
    refine if_neg fun hfive => h ⟨d, ?_, hfive⟩
    rw [← List.head?_drop, hdrop]
    rfl
  · rfl

theorem length_padded (fraction : List Digit) : (padded places fraction).length = places := by
  rw [padded, List.length_append, List.length_take, List.length_replicate]
  omega

/-- No zero is put in front of a digit that is dropped. -/
theorem RoundsUp.padded_eq (h : n.RoundsUp places) : padded places n.fraction = n.fraction.take places := by
  obtain ⟨d, hd, -⟩ := h
  obtain ⟨hlt, -⟩ := List.getElem?_eq_some_iff.mp hd
  rw [padded, Nat.sub_eq_zero_of_le (Nat.le_of_lt hlt), List.replicate_zero, List.append_nil]

/-- The number in units of the last place: those that are kept, and the part of one that is
dropped. -/
theorem magnitude_mul_pow (places : Nat) (n : Numeral) : n.magnitude * 10 ^ places =
    ofDigits (n.kept places) + ofDigits (n.fraction.drop places) / 10 ^ (n.fraction.drop places).length := by
  have hkept : ofDigits (n.kept places) = ofDigits n.whole * 10 ^ places +
      ofDigits (n.fraction.take places) * 10 ^ (places - n.fraction.length) := by
    rw [kept, ofDigits_append, length_padded, padded, ofDigits_append, ofDigits_replicate_zero, List.length_replicate,
      Nat.add_zero]
  have hfraction : ofDigits n.fraction = ofDigits (n.fraction.take places) * 10 ^ (n.fraction.length - places) +
      ofDigits (n.fraction.drop places) := by
    rw [← List.length_drop, ← ofDigits_append, List.take_append_drop]
  rw [magnitude, hkept, hfraction, List.length_drop]
  push_cast
  rcases Nat.le_total n.fraction.length places with hle | hle
  · -- Nothing is dropped, and zeros stand for the digits that are missing.
    obtain ⟨k, rfl⟩ := Nat.exists_eq_add_of_le hle
    rw [List.drop_eq_nil_of_le hle, ofDigits_nil, Nat.sub_eq_zero_of_le hle, Nat.add_sub_cancel_left, pow_add]
    field_simp
    ring
  · obtain ⟨k, hk⟩ := Nat.exists_eq_add_of_le hle
    rw [hk, Nat.sub_eq_zero_of_le (Nat.le_add_right _ _), Nat.add_sub_cancel_left, pow_add]
    field_simp
    ring

/-- Dropped digits are worth half a unit or more exactly when the first is five or more. -/
theorem half_le_iff (ds : List Digit) : 10 ^ ds.length ≤ 2 * ofDigits ds ↔ ∃ d, ds.head? = some d ∧ 5 ≤ d.val := by
  cases ds with
  | nil => simp [ofDigits_nil]
  | cons d ds =>
    have hrest := ofDigits_lt ds
    rw [ofDigits_cons, List.length_cons, pow_succ]
    simp only [List.head?_cons, Option.some.injEq, exists_eq_left']
    constructor
    · intro hhalf
      by_contra hless
      have hfirst : d.val * 10 ^ ds.length ≤ 4 * 10 ^ ds.length := Nat.mul_le_mul_right _ (by omega)
      omega
    · intro hfive
      have hfirst : 5 * 10 ^ ds.length ≤ d.val * 10 ^ ds.length := Nat.mul_le_mul_right _ hfive
      omega

theorem roundsUp_iff (places : Nat) (n : Numeral) : n.RoundsUp places ↔
    (1 : ℚ) / 2 ≤ ofDigits (n.fraction.drop places) / 10 ^ (n.fraction.drop places).length := by
  have hdigit : n.RoundsUp places ↔ ∃ d, (n.fraction.drop places).head? = some d ∧ 5 ≤ d.val := by
    rw [List.head?_drop]
    rfl
  rw [hdigit, ← half_le_iff, div_le_div_iff₀ two_pos (by positivity), one_mul, mul_comm]
  norm_cast

theorem floor_add_half {q : ℚ} (hle : 0 ≤ q) (hlt : q < 1) : ⌊q + 1 / 2⌋ = if 1 / 2 ≤ q then 1 else 0 := by
  rw [Int.floor_eq_iff]
  split_ifs with hhalf
  · push_cast
    constructor <;> linarith
  · push_cast
    constructor <;> linarith

/-- Rounding on the digits is rounding of the number, in units of the last place. -/
theorem floor_scaled (places : Nat) (n : Numeral) :
    ⌊n.magnitude * 10 ^ places + 1 / 2⌋ = (ofDigits (n.cut places) : ℤ) := by
  have hpart : (ofDigits (n.fraction.drop places) : ℚ) / 10 ^ (n.fraction.drop places).length < 1 := by
    rw [div_lt_one (by positivity)]
    exact_mod_cast ofDigits_lt _
  rw [magnitude_mul_pow, add_assoc, Int.floor_natCast_add, floor_add_half (by positivity) hpart]
  by_cases hup : n.RoundsUp places
  · rw [if_pos ((roundsUp_iff places n).mp hup), cut_of_roundsUp hup, ofDigits_increment]
    push_cast
    rfl
  · rw [if_neg (hup ∘ (roundsUp_iff places n).mpr), cut_of_not_roundsUp hup, add_zero]

/-! The numeral that is left. -/

theorem length_kept (places : Nat) (n : Numeral) : (n.kept places).length = n.whole.length + places := by
  rw [kept, List.length_append, length_padded]

theorem length_cut_of_carriesThrough (h : n.CarriesThrough places) :
    (n.cut places).length = n.whole.length + places + 1 := by
  have hnines : ∀ d ∈ n.kept places, d = 9 := by
    rw [kept, h.1.padded_eq]
    exact fun d hd => Fin.ext (h.2 d hd)
  rw [cut_of_roundsUp h.1, length_increment_of_nines hnines, length_kept]

theorem length_cut_of_not_carriesThrough (h : ¬ n.CarriesThrough places) :
    (n.cut places).length = n.whole.length + places := by
  by_cases hup : n.RoundsUp places
  · have hother : ¬ ∀ d ∈ n.kept places, d = 9 := by
      rw [kept, hup.padded_eq]
      exact fun hnines => h ⟨hup, fun d hd => congrArg Fin.val (hnines d hd)⟩
    rw [cut_of_roundsUp hup, length_increment_of_not_nines hother, length_kept]
  · rw [cut_of_not_roundsUp hup, length_kept]

theorem toPlaces_eq (places : Nat) (n : Numeral) : n.toPlaces places =
    ⟨n.negative, (n.cut places).take ((n.cut places).length - places),
      (n.cut places).drop ((n.cut places).length - places)⟩ := rfl

theorem magnitude_eq_div (n : Numeral) :
    n.magnitude = ofDigits (n.whole ++ n.fraction) / 10 ^ n.fraction.length := by
  rw [magnitude, ofDigits_append]
  push_cast
  field_simp

/-- A numeral cut to some places is the numeral rounded to them. -/
theorem toPlaces_rounded (places : Nat) (n : Numeral) : n.RoundedTo places (n.toPlaces places) := by
  have hlength : (n.cut places).length = n.whole.length + places ∧ ¬ n.CarriesThrough places ∨
      (n.cut places).length = n.whole.length + places + 1 ∧ n.CarriesThrough places := by
    by_cases hcarry : n.CarriesThrough places
    · exact .inr ⟨length_cut_of_carriesThrough hcarry, hcarry⟩
    · exact .inl ⟨length_cut_of_not_carriesThrough hcarry, hcarry⟩
  have hwhole : (n.toPlaces places).whole.length = (n.cut places).length - places := by
    rw [toPlaces_eq, List.length_take, Nat.min_eq_left (Nat.sub_le _ _)]
  have hfraction : (n.toPlaces places).fraction.length = places := by
    rw [toPlaces_eq, List.length_drop]
    omega
  have hrow : (n.toPlaces places).whole ++ (n.toPlaces places).fraction = n.cut places := List.take_append_drop _ _
  refine ⟨rfl, hfraction, ?_, ?_, ?_⟩
  · rw [magnitude_eq_div, hrow, hfraction, floor_scaled]
    rfl
  · omega
  · obtain ⟨hsame, hcarry⟩ | ⟨hmore, hcarry⟩ := hlength
    · exact iff_of_false (by omega) hcarry
    · exact iff_of_true (by omega) hcarry

/-- A carry through every digit puts one more in front. -/
example : toPlaces 6 ⟨false, [9], [9, 9, 9, 9, 9, 9, 5]⟩ = ⟨false, [1, 0], [0, 0, 0, 0, 0, 0]⟩ := by decide

theorem whole_ofDecimal_ne_nil (negative : Bool) (d : Decimal) : (ofDecimal negative d).whole ≠ [] := by
  have hdigits := digitsOf_ne_nil d.coefficient
  unfold ofDecimal
  dsimp only
  split_ifs with hwhole hplaces
  · exact List.append_ne_nil_of_left_ne_nil hdigits _
  · rw [Ne, List.take_eq_nil_iff]
    rintro (hnone | hnil)
    · omega
    · exact hdigits hnil
  · exact List.cons_ne_nil _ _

end Numeral

/-- The text of a finite number is the rounding of its shortest numeral, which has a digit before
the point: the sign of the numeral, digits before the point and six after it, whose value is the
nearest multiple of a millionth, a half going away from zero. The digits before the point are as
many as those of the numeral, or one more exactly when the carry runs through every digit. -/
theorem Single.literal_rounded (x : Single) (hfinite : x.isFinite = true) :
    x.numeral.whole ≠ [] ∧ ∃ rounded : Numeral, x.numeral.RoundedTo 6 rounded ∧
      x.literal = String.ofList ((if x.numeral.negative then ['-'] else []) ++
        rounded.whole.map Digit.char ++ '.' :: rounded.fraction.map Digit.char) := by
  have hrounded := x.numeral.toPlaces_rounded 6
  refine ⟨Numeral.whole_ofDecimal_ne_nil _ _, x.numeral.toPlaces 6, hrounded, ?_⟩
  have hpoint : (x.numeral.toPlaces 6).fraction.isEmpty = false := by
    rw [List.isEmpty_eq_false_iff, ← List.length_pos_iff, hrounded.length_fraction]
    exact Nat.succ_pos 5
  rw [literal, if_pos hfinite, places, Numeral.text, hrounded.negative_eq]
  simp only [hpoint, Bool.false_eq_true, if_false]

/-- The number just below one: the carry runs into the digit before the point. -/
theorem Single.literal_rounded_belowOne :
    (⟨0x3F7FFFFF⟩ : Single).isFinite = true ∧
    (⟨0x3F7FFFFF⟩ : Single).numeral = ⟨false, [0], [9, 9, 9, 9, 9, 9, 9, 4, 0, 3, 9, 5, 3, 5, 5, 2]⟩ ∧
    ∃ rounded : Numeral, (⟨0x3F7FFFFF⟩ : Single).numeral.RoundedTo 6 rounded ∧
      "1.000000" = String.ofList (rounded.whole.map Digit.char ++ '.' :: rounded.fraction.map Digit.char) := by
  have hfinite : (⟨0x3F7FFFFF⟩ : Single).isFinite = true := by decide
  have htext : (⟨0x3F7FFFFF⟩ : Single).literal = "1.000000" := by decide +kernel
  have hpositive : (⟨0x3F7FFFFF⟩ : Single).numeral.negative = false := by decide
  refine ⟨hfinite, by decide +kernel, ?_⟩
  obtain ⟨-, rounded, hrounded, hliteral⟩ := literal_rounded ⟨0x3F7FFFFF⟩ hfinite
  rw [htext, hpositive] at hliteral
  exact ⟨rounded, hrounded, hliteral⟩

end ScriptLift
