import Mathlib.Algebra.BigOperators.Fin
import Mathlib.Tactic.Ring
import ScriptLift.Stored.CompactIndex

/- The bytes of a compact index.

   An index is written as a group of one to five bytes that marks its own end (`Group`): bit 6
   of the first byte and bit 7 of each further one tell whether another follows. The reader
   gives a number exactly where a group of that value starts (`read_eq_some_iff`): the group is
   neither cut short nor longer, and what follows it is not looked at. Every number of 32 bits
   has a group, the least and the greatest too, and `Group.ofIndex` writes one that no other
   group of the number undercuts: `k` further bytes hold exactly the magnitudes below
   `64 * 128 ^ k`. -/
namespace ScriptLift.CompactIndex

/-- Bit 7 is set in every byte but the last. -/
def Marked (further : List UInt8) : Prop :=
  ∀ j (h : j < further.length), further[j].toNat.testBit 7 = true ↔ j + 1 < further.length

/-- What the low seven bits of the bytes add up to, the first of them shifted by `shift` and
each other one by seven more than the one before it. -/
def payload (shift : Nat) (further : List UInt8) : Nat :=
  ∑ j : Fin further.length, (further[j] &&& 0x7F).toNat * 2 ^ (shift + 7 * j.val)

/-- The bytes of one index: a first one and up to four further ones. Bit 6 of the first is
set when others follow, bit 7 of a further one when it is not the last. -/
structure Group where
  first : UInt8
  further : List UInt8
  atMostFour : further.length ≤ 4
  opened : first.toNat.testBit 6 = true ↔ 0 < further.length
  marked : Marked further

namespace Group

def bytes (g : Group) : List UInt8 := g.first :: g.further

/-- The six low bits of the first byte and seven of each further one. -/
def magnitude (g : Group) : Nat := (g.first &&& 0x3F).toNat + payload 6 g.further

/-- The number that the group writes: bit 7 of the first byte makes it negative. -/
def value (g : Group) : Int := (if g.first.toNat.testBit 7 then -1 else 1) * (g.magnitude : Int)

/-- No group of the same value has fewer bytes. -/
structure IsShortest (g : Group) (v : Int32) : Prop where
  value_eq : g.value = v.toInt
  length_le : ∀ other : Group, other.value = v.toInt → g.bytes.length ≤ other.bytes.length

end Group

/-! Bits of a byte. -/

theorem testBit_seven (b : UInt8) : b.toNat.testBit 7 = true ↔ 128 ≤ b.toNat := by
  have := b.toNat_lt
  rw [Nat.testBit_eq_decide_div_mod_eq, decide_eq_true_iff]
  omega

theorem testBit_six (b : UInt8) : b.toNat.testBit 6 = true ↔ 64 ≤ b.toNat % 128 := by
  have := b.toNat_lt
  rw [Nat.testBit_eq_decide_div_mod_eq, decide_eq_true_iff]
  omega

theorem toNat_and_low_seven (b : UInt8) : (b &&& 0x7F).toNat = b.toNat % 128 := by
  rw [UInt8.toNat_and]
  exact Nat.and_two_pow_sub_one_eq_mod b.toNat 7

theorem toNat_and_low_six (b : UInt8) : (b &&& 0x3F).toNat = b.toNat % 64 := by
  rw [UInt8.toNat_and]
  exact Nat.and_two_pow_sub_one_eq_mod b.toNat 6

/-! The further bytes. -/

theorem marked_nil : Marked [] := fun _ h => absurd h (Nat.not_lt_zero _)

theorem marked_cons {b : UInt8} {further : List UInt8} :
    Marked (b :: further) ↔ (128 ≤ b.toNat ↔ 0 < further.length) ∧ Marked further := by
  constructor
  · intro h
    refine ⟨?_, fun j hj => ?_⟩
    · have hfirst := h 0 (Nat.succ_pos _)
      simpa [testBit_seven] using hfirst
    · have hnext := h (j + 1) (Nat.succ_lt_succ hj)
      simpa using hnext
  · rintro ⟨hfirst, hrest⟩ j hj
    cases j with
    | zero => simpa [testBit_seven] using hfirst
    | succ j => simpa using hrest j (Nat.lt_of_succ_lt_succ hj)

theorem payload_nil (shift : Nat) : payload shift [] = 0 := rfl

theorem payload_cons (shift : Nat) (b : UInt8) (further : List UInt8) :
    payload shift (b :: further) = b.toNat % 128 * 2 ^ shift + payload (shift + 7) further := by
  refine (Fin.sum_univ_succ _).trans (congrArg₂ (· + ·) ?_ (Finset.sum_congr rfl fun j _ => ?_))
  · exact congrArg (· * 2 ^ shift) (toNat_and_low_seven b)
  · have hshift : shift + 7 * j.succ.val = shift + 7 + 7 * j.val := by
      rw [Fin.val_succ]
      ring
    exact congrArg ((further[j] &&& 0x7F).toNat * 2 ^ ·) hshift

theorem payload_add_le (shift : Nat) (further : List UInt8) :
    payload shift further + 2 ^ shift ≤ 2 ^ (shift + 7 * further.length) := by
  induction further generalizing shift with
  | nil => simp [payload_nil]
  | cons b further ih =>
    have hrest := ih (shift + 7)
    have hfirst : b.toNat % 128 * 2 ^ shift + 2 ^ shift ≤ 2 ^ (shift + 7) := by
      calc b.toNat % 128 * 2 ^ shift + 2 ^ shift = (b.toNat % 128 + 1) * 2 ^ shift := by ring
        _ ≤ 128 * 2 ^ shift := Nat.mul_le_mul_right _ (Nat.mod_lt _ (by decide))
        _ = 2 ^ (shift + 7) := by ring
    have hlength : shift + 7 * (b :: further).length = shift + 7 + 7 * further.length := by
      rw [List.length_cons]
      ring
    rw [payload_cons, hlength]
    omega

/-- The reader takes the bytes up to the first without a mark. -/
theorem continued_eq_some_iff (shift : Nat) {count m : Nat} {bytes : List UInt8} :
    continued count (2 ^ shift) bytes = some m ↔
      ∃ further, 0 < further.length ∧ further.length ≤ count ∧ Marked further ∧
        further <+: bytes ∧ payload shift further = m := by
  induction count generalizing shift m bytes with
  | zero =>
    refine ⟨fun h => (by cases h), ?_⟩
    rintro ⟨further, hpos, hle, -⟩
    omega
  | succ count ih =>
    cases bytes with
    | nil =>
      refine ⟨fun h => (by cases h), ?_⟩
      rintro ⟨further, hpos, -, -, hfront, -⟩
      rw [List.prefix_nil.mp hfront] at hpos
      exact absurd hpos (Nat.lt_irrefl 0)
    | cons b bytes =>
      have hweight : 2 ^ shift * 128 = 2 ^ (shift + 7) := by ring
      simp only [continued, hweight]
      split_ifs with hmark
      · rw [Option.map_eq_some_iff]
        constructor
        · rintro ⟨rest, hrest, rfl⟩
          obtain ⟨further, hpos, hle, hmarked, hfront, rfl⟩ := (ih _).mp hrest
          refine ⟨b :: further, Nat.succ_pos _, Nat.succ_le_succ hle, ?_, ?_, payload_cons shift b further⟩
          · exact marked_cons.mpr ⟨iff_of_true hmark hpos, hmarked⟩
          · exact List.cons_prefix_cons.mpr ⟨rfl, hfront⟩
        · rintro ⟨further, hpos, hle, hmarked, hfront, rfl⟩
          obtain ⟨a, further, rfl⟩ := List.exists_cons_of_length_pos hpos
          obtain ⟨rfl, hrest⟩ := List.cons_prefix_cons.mp hfront
          obtain ⟨hfirst, hmarked⟩ := marked_cons.mp hmarked
          refine ⟨payload (shift + 7) further, ?_, (payload_cons shift a further).symm⟩
          exact (ih _).mpr ⟨further, hfirst.mp hmark, Nat.le_of_succ_le_succ hle, hmarked, hrest, rfl⟩
      · constructor
        · intro h
          obtain rfl := Option.some.inj h
          refine ⟨[b], Nat.one_pos, Nat.succ_le_succ (Nat.zero_le _), ?_, ?_, ?_⟩
          · exact marked_cons.mpr ⟨iff_of_false hmark (Nat.lt_irrefl 0), marked_nil⟩
          · exact List.cons_prefix_cons.mpr ⟨rfl, List.nil_prefix⟩
          · rw [payload_cons, payload_nil, Nat.add_zero]
        · rintro ⟨further, hpos, -, hmarked, hfront, rfl⟩
          obtain ⟨a, further, rfl⟩ := List.exists_cons_of_length_pos hpos
          obtain ⟨rfl, -⟩ := List.cons_prefix_cons.mp hfront
          obtain ⟨hfirst, -⟩ := marked_cons.mp hmarked
          have hlast : further = [] := List.eq_nil_of_length_eq_zero (Nat.eq_zero_of_not_pos (hmark ∘ hfirst.mpr))
          rw [hlast, payload_cons, payload_nil, Nat.add_zero]

/-! Reading a group. -/

theorem Group.value_eq (g : Group) :
    g.value = if 128 ≤ g.first.toNat then -(g.magnitude : Int) else g.magnitude := by
  unfold value
  simp only [testBit_seven]
  split_ifs <;> ring

/-- A number outside 32 bits is refused, any other is given as it is. -/
theorem inRange_eq_some_iff {value : Int} {v : Int32} :
    (if Int32.minValue.toInt ≤ value ∧ value ≤ Int32.maxValue.toInt then some (Int32.ofInt value) else none) =
      some v ↔ value = v.toInt := by
  have hmin : Int32.minValue.toInt = -2 ^ 31 := by decide
  have hmax : Int32.maxValue.toInt = 2 ^ 31 - 1 := by decide
  rw [hmin, hmax]
  constructor
  · intro h
    split_ifs at h with hrange
    rw [← Option.some.inj h, Int32.toInt_ofInt_of_le hrange.1 (by omega)]
  · rintro rfl
    rw [if_pos ⟨v.le_toInt, Int.le_sub_one_of_lt v.toInt_lt⟩, Int32.ofInt_toInt]

theorem magnitude_eq_some_iff {b : UInt8} {bytes : List UInt8} {m : Nat} :
    (if 64 ≤ b.toNat % 128 then (continued 4 64 bytes).map (b.toNat % 64 + ·) else some (b.toNat % 64)) = some m ↔
      ∃ g : Group, g.bytes <+: b :: bytes ∧ g.magnitude = m := by
  split_ifs with hopen
  · rw [Option.map_eq_some_iff]
    constructor
    · rintro ⟨rest, hrest, rfl⟩
      obtain ⟨further, hpos, hle, hmarked, hfront, rfl⟩ := (continued_eq_some_iff 6).mp hrest
      refine ⟨⟨b, further, hle, iff_of_true ((testBit_six b).mpr hopen) hpos, hmarked⟩, ?_, ?_⟩
      · exact List.cons_prefix_cons.mpr ⟨rfl, hfront⟩
      · exact congrArg (· + payload 6 further) (toNat_and_low_six b)
    · rintro ⟨g, hfront, rfl⟩
      obtain ⟨rfl, hrest⟩ := List.cons_prefix_cons.mp hfront
      refine ⟨payload 6 g.further, ?_, congrArg (· + payload 6 g.further) (toNat_and_low_six g.first).symm⟩
      refine (continued_eq_some_iff 6).mpr ⟨g.further, ?_, g.atMostFour, g.marked, hrest, rfl⟩
      exact g.opened.mp ((testBit_six g.first).mpr hopen)
  · have hclosed : b.toNat.testBit 6 = true ↔ 0 < ([] : List UInt8).length :=
      iff_of_false (hopen ∘ (testBit_six b).mp) (Nat.lt_irrefl 0)
    constructor
    · intro h
      obtain rfl := Option.some.inj h
      refine ⟨⟨b, [], Nat.zero_le 4, hclosed, marked_nil⟩, ?_, ?_⟩
      · exact List.cons_prefix_cons.mpr ⟨rfl, List.nil_prefix⟩
      · exact toNat_and_low_six b
    · rintro ⟨g, hfront, rfl⟩
      obtain ⟨rfl, -⟩ := List.cons_prefix_cons.mp hfront
      have hnone : g.further = [] :=
        List.eq_nil_of_length_eq_zero (Nat.eq_zero_of_not_pos (hopen ∘ (testBit_six g.first).mp ∘ g.opened.mpr))
      rw [Group.magnitude, hnone, payload_nil, Nat.add_zero, toNat_and_low_six]

/-- A number is read exactly where a group of its value starts. -/
theorem read_eq_some_iff {bytes : List UInt8} {v : Int32} :
    read bytes = some v ↔ ∃ g : Group, g.bytes <+: bytes ∧ g.value = v.toInt := by
  cases bytes with
  | nil =>
    refine ⟨fun h => (by cases h), ?_⟩
    rintro ⟨g, hfront, -⟩
    cases List.prefix_nil.mp hfront
  | cons b bytes =>
    have hread : read (b :: bytes) = some v ↔ ∃ m : Nat,
        (if 64 ≤ b.toNat % 128 then (continued 4 64 bytes).map (b.toNat % 64 + ·) else some (b.toNat % 64)) = some m ∧
        (if 128 ≤ b.toNat then -(m : Int) else m) = v.toInt := by
      simp only [← inRange_eq_some_iff (v := v), ← Option.bind_eq_some_iff]
      by_cases hopen : 64 ≤ b.toNat % 128
      · simp only [read, if_pos hopen, bind]
      · simp only [read, if_neg hopen, bind]
    rw [hread]
    constructor
    · rintro ⟨m, hm, hvalue⟩
      obtain ⟨g, hfront, rfl⟩ := magnitude_eq_some_iff.mp hm
      obtain ⟨rfl, -⟩ := List.cons_prefix_cons.mp hfront
      exact ⟨g, hfront, g.value_eq.trans hvalue⟩
    · rintro ⟨g, hfront, hvalue⟩
      refine ⟨g.magnitude, magnitude_eq_some_iff.mpr ⟨g, hfront, rfl⟩, ?_⟩
      obtain ⟨rfl, -⟩ := List.cons_prefix_cons.mp hfront
      exact g.value_eq.symm.trans hvalue

/-! Writing a number. -/

/-- The next byte of a magnitude of which `n` is left: seven bits, and the mark when they are
not all. -/
def nextByte (n : Nat) : UInt8 := UInt8.ofNat (n % 128 + if n < 128 then 0 else 128)

/-- The further bytes of a magnitude of which `n` is left, up to `count` of them. -/
def furtherOf : Nat → Nat → List UInt8
  | 0, _ => []
  | count + 1, n => if n = 0 then [] else nextByte n :: furtherOf count (n / 128)

/-- The first byte of a number. -/
def firstOf (v : Int32) : UInt8 :=
  let n := v.toInt.natAbs
  UInt8.ofNat (n % 64 + (if n < 64 then 0 else 64) + if v.toInt < 0 then 128 else 0)

theorem toNat_nextByte (n : Nat) : (nextByte n).toNat = n % 128 + if n < 128 then 0 else 128 :=
  UInt8.toNat_ofNat_of_lt' (by rw [UInt8.size]; split <;> omega)

theorem nextByte_marked_iff (n : Nat) : 128 ≤ (nextByte n).toNat ↔ 0 < n / 128 := by
  rw [toNat_nextByte]
  split <;> omega

theorem toNat_nextByte_mod (n : Nat) : (nextByte n).toNat % 128 = n % 128 := by
  rw [toNat_nextByte]
  split <;> omega

theorem length_furtherOf_le (count n : Nat) : (furtherOf count n).length ≤ count := by
  induction count generalizing n with
  | zero => exact Nat.le_refl 0
  | succ count ih =>
    rw [furtherOf]
    split
    · exact Nat.zero_le _
    · exact Nat.succ_le_succ (ih (n / 128))

theorem length_furtherOf_pos {count n : Nat} (h : n < 128 ^ count) : 0 < (furtherOf count n).length ↔ 0 < n := by
  cases count with
  | zero =>
    obtain rfl : n = 0 := Nat.lt_one_iff.mp h
    exact iff_of_false (Nat.lt_irrefl 0) (Nat.lt_irrefl 0)
  | succ count =>
    rw [furtherOf]
    split
    · next hn => exact iff_of_false (Nat.lt_irrefl 0) (Nat.not_lt.mpr (Nat.le_of_eq hn))
    · next hn => exact iff_of_true (Nat.succ_pos _) (Nat.pos_of_ne_zero hn)

theorem div_lt_pow {count n : Nat} (h : n < 128 ^ (count + 1)) : n / 128 < 128 ^ count :=
  Nat.div_lt_of_lt_mul (by rwa [← Nat.pow_succ'])

theorem marked_furtherOf {count n : Nat} (h : n < 128 ^ count) : Marked (furtherOf count n) := by
  induction count generalizing n with
  | zero => exact marked_nil
  | succ count ih =>
    have hrest := div_lt_pow h
    rw [furtherOf]
    split
    · exact marked_nil
    · exact marked_cons.mpr ⟨(nextByte_marked_iff n).trans (length_furtherOf_pos hrest).symm, ih hrest⟩

theorem payload_furtherOf {count n : Nat} (shift : Nat) (h : n < 128 ^ count) :
    payload shift (furtherOf count n) = n * 2 ^ shift := by
  induction count generalizing n shift with
  | zero =>
    obtain rfl : n = 0 := Nat.lt_one_iff.mp h
    rw [Nat.zero_mul]
    rfl
  | succ count ih =>
    rw [furtherOf]
    split
    · next hn =>
      rw [hn, Nat.zero_mul]
      rfl
    · rw [payload_cons, toNat_nextByte_mod, ih (shift + 7) (div_lt_pow h)]
      calc n % 128 * 2 ^ shift + n / 128 * 2 ^ (shift + 7)
          = (n % 128 + 128 * (n / 128)) * 2 ^ shift := by ring
        _ = n * 2 ^ shift := by rw [Nat.mod_add_div]

/-- A byte is added only where those before it cannot hold the magnitude. -/
theorem le_of_lt_length_furtherOf {count n k : Nat} (h : k < (furtherOf count n).length) : 128 ^ k ≤ n := by
  induction count generalizing n k with
  | zero => exact absurd h (Nat.not_lt_zero _)
  | succ count ih =>
    rw [furtherOf] at h
    split at h
    · exact absurd h (Nat.not_lt_zero _)
    · next hn =>
      cases k with
      | zero => exact Nat.pos_of_ne_zero hn
      | succ k =>
        rw [Nat.pow_succ]
        exact (Nat.le_div_iff_mul_le (by decide)).mp (ih (Nat.lt_of_succ_lt_succ h))

theorem toNat_firstOf (v : Int32) : (firstOf v).toNat =
    v.toInt.natAbs % 64 + (if v.toInt.natAbs < 64 then 0 else 64) + if v.toInt < 0 then 128 else 0 :=
  UInt8.toNat_ofNat_of_lt' (by rw [UInt8.size]; split_ifs <;> omega)

theorem natAbs_div_lt (v : Int32) : v.toInt.natAbs / 64 < 128 ^ 4 := by
  have hmin := v.le_toInt
  have hmax := v.toInt_lt
  omega

namespace Group

/-- A shortest group of a number. -/
def ofIndex (v : Int32) : Group where
  first := firstOf v
  further := furtherOf 4 (v.toInt.natAbs / 64)
  atMostFour := length_furtherOf_le 4 _
  opened := by
    rw [testBit_six, toNat_firstOf, length_furtherOf_pos (natAbs_div_lt v)]
    split_ifs <;> omega
  marked := marked_furtherOf (natAbs_div_lt v)

theorem magnitude_lt (g : Group) : g.magnitude < 2 ^ (6 + 7 * g.further.length) := by
  have hfirst : (g.first &&& 0x3F).toNat < 2 ^ 6 := by
    rw [toNat_and_low_six]
    exact Nat.mod_lt _ (by decide)
  have hfurther := payload_add_le 6 g.further
  unfold magnitude
  omega

theorem magnitude_ofIndex (v : Int32) : (ofIndex v).magnitude = v.toInt.natAbs := by
  have hfirst : (firstOf v).toNat % 64 = v.toInt.natAbs % 64 := by
    rw [toNat_firstOf]
    split_ifs <;> omega
  have hfurther := payload_furtherOf 6 (natAbs_div_lt v)
  show (firstOf v &&& 0x3F).toNat + payload 6 (furtherOf 4 (v.toInt.natAbs / 64)) = v.toInt.natAbs
  rw [toNat_and_low_six, hfirst, hfurther]
  omega

theorem value_ofIndex (v : Int32) : (ofIndex v).value = v.toInt := by
  have hsign : 128 ≤ (ofIndex v).first.toNat ↔ v.toInt < 0 := by
    show 128 ≤ (firstOf v).toNat ↔ v.toInt < 0
    rw [toNat_firstOf]
    split_ifs <;> omega
  rw [value_eq, magnitude_ofIndex]
  simp only [hsign]
  split_ifs <;> omega

theorem isShortest_ofIndex (v : Int32) : (ofIndex v).IsShortest v := by
  refine ⟨value_ofIndex v, fun other hvalue => Nat.succ_le_succ (Nat.le_of_not_lt fun hlt => ?_)⟩
  -- Fewer bytes hold only smaller magnitudes.
  have hmagnitude : other.magnitude = v.toInt.natAbs := by
    rw [value_eq] at hvalue
    split_ifs at hvalue <;> omega
  have hle := le_of_lt_length_furtherOf hlt
  have hless := other.magnitude_lt
  rw [hmagnitude, Nat.pow_add, Nat.pow_mul, show 2 ^ 7 = 128 from rfl] at hless
  omega

end Group

/-- Reading compact indices. A number is read at an offset exactly where a group of bytes starts
that has this value. So every number has a shortest group, and each of its shortest groups is
read back, whatever bytes stand before it and behind it. -/
theorem readAt_eq_some_iff :
    (∀ (bytes : List UInt8) (offset : Nat) (v : Int32), readAt bytes offset = some v ↔
      ∃ g : Group, g.bytes <+: bytes.drop offset ∧ g.value = v.toInt) ∧
    ∀ v : Int32, (Group.ofIndex v).IsShortest v ∧
      ∀ g : Group, g.IsShortest v → ∀ front back : List UInt8,
        readAt (front ++ g.bytes ++ back) front.length = some v := by
  refine ⟨fun bytes offset v => read_eq_some_iff, fun v => ⟨Group.isShortest_ofIndex v, ?_⟩⟩
  intro g hshortest front back
  refine read_eq_some_iff.mpr ⟨g, ?_, hshortest.value_eq⟩
  rw [List.append_assoc, List.drop_left]
  exact List.prefix_append g.bytes back

/-- The least number takes all five bytes; its magnitude is one more than that of the greatest. -/
theorem readAt_eq_some_iff_leastIndex :
    (Group.ofIndex Int32.minValue).IsShortest Int32.minValue ∧
    (Group.ofIndex Int32.minValue).bytes = [0xC0, 0x80, 0x80, 0x80, 0x10] ∧
    readAt [7, 0xC0, 0x80, 0x80, 0x80, 0x10, 9] 1 = some Int32.minValue := by
  have hshortest := Group.isShortest_ofIndex Int32.minValue
  exact ⟨hshortest, by decide, (readAt_eq_some_iff.2 Int32.minValue).2 _ hshortest [7] [9]⟩

end ScriptLift.CompactIndex
