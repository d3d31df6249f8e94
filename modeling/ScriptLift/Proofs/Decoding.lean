import ScriptLift.Json.Decode
import ScriptLift.Proofs.JsonText

/- Decoders and the values written for them.

   `Reads read j a`: the value `j` is written as it is read, and `read` gives `a` for it once
   it may open as many containers as `j` nests. A list, a table, a value that may be null and
   a record read what their parts read. `ReadsFields` goes through the fields of a record in
   the order in which they are written and asked for: each step takes the first field that
   is left. -/
namespace ScriptLift

/-! Whole numbers. -/

namespace Number

theorem gather_append {m n : Nat} {ds es : List Digit} (h : gather m ds = (n, [])) :
    gather m (ds ++ es) = gather n es := by
  induction ds generalizing m with
  | nil =>
    obtain rfl : m = n := (Prod.mk.inj h).1
    rfl
  | cons d ds ih =>
    rw [gather] at h
    split at h
    · next hfits => rw [List.cons_append, gather, if_pos hfits, ih h]
    · cases h

theorem gather_digitsOf {n : Nat} (h : n < UInt64.size) : gather 0 (digitsOf n) = (n, []) := by
  induction n using Nat.strongRecOn with
  | ind n ih =>
    rcases Nat.lt_or_ge n 10 with hn | hn
    · have hdigit : 10 * 0 + (Fin.ofNat 10 n).val = n := by simp [Nat.mod_eq_of_lt hn]
      rw [digitsOf_of_lt hn, gather, hdigit, if_pos h, gather]
    · have hless : n / 10 < n := Nat.div_lt_self (by omega) (by decide)
      have hdigit : 10 * (n / 10) + (Fin.ofNat 10 n).val = n := by simp; omega
      rw [digitsOf_of_le hn, gather_append (ih _ hless (by omega)), gather, hdigit, if_pos h, gather]

end Number

/-- A whole number that fits is denoted by its digits. -/
theorem NumberLiteral.value_int {i : Int} (hlow : -0x8000000000000000 ≤ i) (hhigh : i < UInt64.size) :
    (⟨decide (i < 0), digitsOf i.natAbs, [], none⟩ : NumberLiteral).value = some (.integer i) := by
  have hsize : i.natAbs < UInt64.size := by
    simp only [UInt64.size] at hhigh ⊢
    omega
  simp only [NumberLiteral.value, Number.gather_digitsOf hsize]
  by_cases hi : i < 0
  · have hrange : ¬ (i.natAbs = 0 ∨ 0x8000000000000000 < i.natAbs) := by omega
    have hneg : -(i.natAbs : Int) = i := by omega
    simp only [hi, hrange, hneg]
    rfl
  · have hpos : (i.natAbs : Int) = i := by omega
    simp only [hi, hpos]
    rfl

namespace Json

theorem nat_eq_int (n : Nat) : nat n = int n := by
  have hsign : decide ((n : Int) < 0) = false := by simp
  rw [nat, int, hsign, Int.natAbs_natCast]

theorem proper_int (i : Int) : (int i).Proper := by
  rw [int, Proper]
  exact NumberLiteral.proper_digitsOf _ _ (by simp)

theorem asIntIn?_int {low high i : Int} (hlow : -0x8000000000000000 ≤ low) (hhigh : high < UInt64.size)
    (h : low ≤ i ∧ i ≤ high) : (int i).asIntIn? low high = some i := by
  rw [int, asIntIn?, NumberLiteral.value_int (by omega) (by omega)]
  exact if_pos h

/-! How far a value nests. -/

mutual

/-- How many arrays and objects are open at once, at most, in the value. -/
def depth : Json → Nat
  | .array es => elementsDepth es + 1
  | .object ms => membersDepth ms + 1
  | _ => 0

def elementsDepth : List Json → Nat
  | [] => 0
  | v :: vs => max (depth v) (elementsDepth vs)

def membersDepth : List (Option String × Json) → Nat
  | [] => 0
  | (_, v) :: ms => max (depth v) (membersDepth ms)

end

theorem elementsDepth_le {es : List Json} {n : Nat} : elementsDepth es ≤ n ↔ ∀ e ∈ es, e.depth ≤ n := by
  induction es with
  | nil => simp [elementsDepth]
  | cons v vs ih => simp [elementsDepth, ih]

theorem membersDepth_le {ms : List (Option String × Json)} {n : Nat} :
    membersDepth ms ≤ n ↔ ∀ m ∈ ms, m.2.depth ≤ n := by
  induction ms with
  | nil => simp [membersDepth]
  | cons m ms ih => simp [membersDepth, ih]

/-- An array takes a container, and leaves the others to its elements. -/
theorem depth_array_le {es : List Json} {n : Nat} (h : (array es).depth ≤ n) :
    ∃ m, n = m + 1 ∧ ∀ e ∈ es, e.depth ≤ m := by
  rw [depth] at h
  cases n with
  | zero => omega
  | succ n =>
    rw [Nat.add_le_add_iff_right, elementsDepth_le] at h
    exact ⟨n, rfl, h⟩

/-- A record takes a container, and leaves the others to its fields. -/
theorem depth_record_le {ms : List (String × Json)} {n : Nat} (h : (record ms).depth ≤ n) :
    ∃ m, n = m + 1 ∧ ∀ x ∈ ms, x.2.depth ≤ m := by
  rw [record, depth] at h
  cases n with
  | zero => omega
  | succ n =>
    rw [Nat.add_le_add_iff_right, membersDepth_le, List.forall_mem_map] at h
    exact ⟨n, rfl, h⟩

/-! Written values and their decoders. -/

theorem mapM_map {α β : Type} {read : β → Option α} {write : α → β} {as : List α}
    (h : ∀ a ∈ as, read (write a) = some a) : (as.map write).mapM read = some as := by
  induction as with
  | nil => rfl
  | cons a as ih =>
    rw [List.forall_mem_cons] at h
    rw [List.map_cons, List.mapM_cons, h.1, ih h.2]
    rfl

theorem named?_record (ms : List (String × Json)) :
    named? (ms.map fun (name, value) => (some name, value)) = some ms :=
  mapM_map fun _ _ => rfl

theorem tagged?_record (tag : String) (content : Json) : tagged? (record [(tag, content)]) = some (tag, content) := rfl

theorem record_ne_null (ms : List (String × Json)) : record ms ≠ .null := nofun

theorem unitTag?_record {tag : String} {content : Json} (h : content ≠ .null) :
    unitTag? (record [(tag, content)]) = none := by
  unfold record unitTag?
  split
  · next heq => cases heq
  · next heq => simp_all
  · rfl

/-- The value is written as it is read, and the decoder reads it as `a` whenever it may open the
containers the value has. -/
structure Reads {α : Type} (read : Decoder α) (j : Json) (a : α) : Prop where
  proper : j.Proper
  read : ∀ {n : Nat}, j.depth ≤ n → read n j = some a

namespace Reads

variable {α β : Type} {read : Decoder α} {j : Json} {a : α}

theorem str (s : String) : Reads (fun _ => asString?) (.str s) s where
  proper := by simp [Json.str, Proper]
  read _ := rfl

theorem bool (b : Bool) : Reads (fun _ => asBool?) (.bool b) b where
  proper := by simp [Proper]
  read _ := rfl

theorem map (h : Reads read j a) (f : α → β) : Reads (fun n j => (read n j).map f) j (f a) where
  proper := h.proper
  read hn := by rw [h.read hn, Option.map_some]

theorem int {low high i : Int} (hlow : -0x8000000000000000 ≤ low) (hhigh : high < UInt64.size)
    (h : low ≤ i ∧ i ≤ high) : Reads (fun _ => asIntIn? low high) (.int i) i where
  proper := proper_int i
  read _ := asIntIn?_int hlow hhigh h

theorem nat {size n : Nat} (hsize : size ≤ UInt64.size) (h : n < size) (f : Nat → α) :
    Reads (fun _ j => (j.asIntIn? 0 (size - 1)).map fun i => f i.toNat) (.nat n) (f n) := by
  rw [nat_eq_int]
  exact (Reads.int (by decide) (by omega) ⟨by omega, by omega⟩).map fun i => f i.toNat

theorem uint8 (x : UInt8) : Reads (fun _ => asUInt8?) (.nat x.toNat) x := by
  have h := Reads.nat (by decide) x.toNat_lt UInt8.ofNat
  rwa [UInt8.ofNat_toNat] at h

theorem uint16 (x : UInt16) : Reads (fun _ => asUInt16?) (.nat x.toNat) x := by
  have h := Reads.nat (by decide) x.toNat_lt UInt16.ofNat
  rwa [UInt16.ofNat_toNat] at h

theorem uint32 (x : UInt32) : Reads (fun _ => asUInt32?) (.nat x.toNat) x := by
  have h := Reads.nat (by decide) x.toNat_lt UInt32.ofNat
  rwa [UInt32.ofNat_toNat] at h

theorem int32 (x : Int32) : Reads (fun _ => asInt32?) (.int x.toInt) x := by
  have hrange : Int32.minValue.toInt ≤ x.toInt ∧ x.toInt ≤ Int32.maxValue.toInt :=
    ⟨x.minValue_le_toInt, x.toInt_le⟩
  have h := (Reads.int (by decide) (by decide) hrange).map Int32.ofInt
  rwa [Int32.ofInt_toInt] at h

/-! Values made of values. -/

/-- A decoder that refuses null reads no null. -/
theorem ne_null (h : Reads read j a) (hnull : ∀ n, read n .null = none) : j ≠ .null := by
  rintro rfl
  have hread := h.read (Nat.le_refl _)
  rw [hnull] at hread
  cases hread

theorem null : Reads (fun n => Json.orNull (read n)) .null none := ⟨by simp [Proper], fun _ => rfl⟩

theorem orNull (h : Reads read j a) (hnull : ∀ n, read n .null = none) :
    Reads (fun n => Json.orNull (read n)) j (some a) where
  proper := h.proper
  read hn := by
    rw [Json.orNull, h.read hn, Option.map_some]
    exact h.ne_null hnull

theorem option {o : Option α} {write : α → Json} (hnull : ∀ n, read n .null = none)
    (h : ∀ a ∈ o, Reads read (write a) a) : Reads (fun n => Json.orNull (read n)) ((o.map write).getD .null) o := by
  cases o with
  | none => exact .null
  | some a => exact (h a rfl).orNull hnull

theorem list {as : List α} {write : α → Json} (h : ∀ a ∈ as, Reads read (write a) a) :
    Reads (listOf read) (.array (as.map write)) as where
  proper := by
    rw [proper_array, List.forall_mem_map]
    exact fun a ha => (h a ha).proper
  read hn := by
    obtain ⟨n, rfl, hparts⟩ := depth_array_le hn
    rw [List.forall_mem_map] at hparts
    exact mapM_map fun a ha => (h a ha).read (hparts a ha)

theorem table {es : List (String × α)} {write : α → Json} (h : ∀ e ∈ es, Reads read (write e.2) e.2) :
    Reads (tableOf read) (record (es.map fun (name, a) => (name, write a))) es where
  proper := by
    rw [proper_record, List.forall_mem_map]
    exact fun e he => (h e he).proper
  read hn := by
    obtain ⟨n, rfl, hparts⟩ := depth_record_le hn
    rw [List.forall_mem_map] at hparts
    rw [tableOf, record, membersWith, named?_record, Option.bind_eq_bind, Option.bind_some]
    refine mapM_map fun e he => ?_
    show (read n (write e.2)).map (e.1, ·) = some e
    rw [(h e he).read (hparts e he)]
    rfl

/-- An alternative with content is read where its content is, one container further in. -/
theorem tagged {tag : String} {content : Json} (hproper : content.Proper)
    (h : ∀ n, content.depth ≤ n → read (n + 1) (record [(tag, content)]) = some a) :
    Reads read (record [(tag, content)]) a where
  proper := by
    rw [proper_record, List.forall_mem_singleton]
    exact hproper
  read hn := by
    obtain ⟨n, rfl, hparts⟩ := depth_record_le hn
    rw [List.forall_mem_singleton] at hparts
    exact h n hparts

/-- An alternative whose content another decoder reads. -/
theorem alternative {tag : String} {inner : Decoder β} {b : β} {make : β → α} (h : Reads inner j b)
    (heq : ∀ n, read (n + 1) (record [(tag, j)]) = (inner n j).map make) :
    Reads read (record [(tag, j)]) (make b) :=
  .tagged h.proper fun n hn => by rw [heq, h.read hn, Option.map_some]

end Reads

/-! Records. -/

/-- The fields in `left`, all of them in the record `r`, are written as they are read, and `read`
gives `a` for the record whenever it may open the containers these fields have. -/
structure ReadsFields {α : Type} (r left : Record) (read : Nat → Record → Option α) (a : α) : Prop where
  proper : ∀ m ∈ left, m.2.Proper
  read : ∀ {n : Nat}, (∀ m ∈ left, m.2.depth ≤ n) → read n r = some a

namespace ReadsFields

variable {α β : Type} {r left : Record} {name : String} {j : Json} {read : Decoder α} {a : α}
  {next : α → Nat → Record → Option β} {b : β}

theorem done : ReadsFields r [] (fun _ _ => pure a) a := ⟨by simp, fun _ => rfl⟩

/-- The next field is read, and the rest as `next` reads it. -/
theorem step {get : Nat → Record → Option α} (hget : ∀ n, get n r = read n j) (h : Reads read j a)
    (hnext : ReadsFields r left (next a) b) :
    ReadsFields r ((name, j) :: left) (fun n r => get n r >>= fun a => next a n r) b where
  proper := List.forall_mem_cons.mpr ⟨h.proper, hnext.proper⟩
  read hn := by
    rw [List.forall_mem_cons] at hn
    rw [hget, h.read hn.1, Option.bind_eq_bind, Option.bind_some, hnext.read hn.2]

theorem required (hlook : r.lookup name = some j) (h : Reads read j a) (hnext : ReadsFields r left (next a) b) :
    ReadsFields r ((name, j) :: left) (fun n r => r.required name (read n) >>= fun a => next a n r) b :=
  step (fun n => by rw [Record.required, hlook, Option.bind_some]) h hnext

theorem defaulted {default : α} (hlook : r.lookup name = some j) (h : Reads read j a)
    (hnext : ReadsFields r left (next a) b) :
    ReadsFields r ((name, j) :: left) (fun n r => r.defaulted name default (read n) >>= fun a => next a n r) b :=
  step (fun n => by rw [Record.defaulted, hlook]) h hnext

theorem map {get : Nat → Record → Option α} {f : α → β}
    (h : ReadsFields r left (fun n r => get n r >>= fun a => pure (f a)) b) :
    ReadsFields r left (fun n r => (get n r).map f) b where
  proper := h.proper
  read hn := by
    rw [Option.map_eq_bind]
    exact h.read hn

end ReadsFields

theorem fields?_record {ms : Record} {names : List String} (hnames : ms.map (·.1) = names) (hnodup : names.Nodup) :
    fields? names (record ms) = some ms := by
  have hknown : (ms.filter fun m => names.contains m.1) = ms := by
    refine List.filter_eq_self.mpr fun m hm => ?_
    rw [List.contains_iff_mem, ← hnames]
    exact List.mem_map_of_mem hm
  rw [record, fields?, named?_record, Option.bind_eq_bind, Option.bind_some, hknown]
  exact if_pos (hnames ▸ hnodup)

/-- A record is read by its fields. -/
theorem Reads.record {α : Type} {ms : Record} {names : List String} {read : Nat → Record → Option α} {a : α}
    (hnames : ms.map (·.1) = names) (hnodup : names.Nodup) (h : ReadsFields ms ms read a) :
    Reads (recordOf names read) (record ms) a where
  proper := proper_record.mpr h.proper
  read hn := by
    obtain ⟨n, rfl, hparts⟩ := depth_record_le hn
    rw [recordOf, fields?_record hnames hnodup, Option.bind_eq_bind, Option.bind_some, h.read hparts]

end Json

end ScriptLift
