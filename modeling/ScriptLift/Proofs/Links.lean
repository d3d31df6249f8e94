import Mathlib.Data.List.Nodup
import Mathlib.Data.List.Perm.Subperm
import Mathlib.Data.Nat.Find

/- Following links.

   An object may have a link to a next one, that one to a third, and so on; objects and names
   of a package are chained in this way by their outer objects and by their parents. What is
   followed here is any partial function. Where only the objects of a list have a link, what
   can be reached is reached in as many steps as the list is long (`exists_follow_le`): a
   shortest way meets no object twice. So a walk that is longer never ends
   (`le_length_of_follow`). -/
namespace ScriptLift

variable {α : Type} {next : α → Option α} {a b : α}

/-- Where `n` links lead, if there are so many. -/
def follow (next : α → Option α) : Nat → α → Option α
  | 0, a => some a
  | n + 1, a => (next a).bind (follow next n)

theorem follow_add (m n : Nat) (a : α) : follow next (m + n) a = (follow next m a).bind (follow next n) := by
  induction m generalizing a with
  | zero => rw [Nat.zero_add]; rfl
  | succ m ih =>
    rw [Nat.succ_add, follow, follow, Option.bind_assoc]
    exact congrArg (next a).bind (funext ih)

/-- The way is the same up to each of its places, and goes on from there. -/
theorem follow_through {m n : Nat} (h : follow next n a = some b) (hm : m ≤ n) :
    ∃ c, follow next m a = some c ∧ follow next (n - m) c = some b := by
  rw [← Nat.add_sub_cancel' hm, follow_add] at h
  exact Option.bind_eq_some_iff.mp h

theorem follow_one (h : next a = some b) : follow next 1 a = some b := by
  rw [follow, h]
  rfl

/-- From an object without a link no step leads on. -/
theorem follow_of_end (h : next a = none) {n : Nat} (hn : 0 < n) : follow next n a = none := by
  obtain ⟨n, rfl⟩ := Nat.exists_eq_add_of_lt hn
  rw [Nat.zero_add, follow, h]
  rfl

/-- A walk comes to an end or goes on for ever. -/
theorem ends_or_endless (next : α → Option α) (a : α) :
    (∃ n b, follow next n a = some b ∧ next b = none) ∨ ∀ n, ∃ b, follow next n a = some b := by
  by_cases hends : ∃ n b, follow next n a = some b ∧ next b = none
  · exact .inl hends
  refine .inr fun n => ?_
  induction n with
  | zero => exact ⟨a, rfl⟩
  | succ n ih =>
    obtain ⟨b, hb⟩ := ih
    cases hnext : next b with
    | none => exact absurd ⟨n, b, hb, hnext⟩ hends
    | some c => exact ⟨c, by rw [follow_add, hb]; exact follow_one hnext⟩

section Finite
variable {l : List α} (hl : ∀ a b, next a = some b → a ∈ l)

include hl

/-- What can be reached is reached in as many steps as there are objects with a link. -/
theorem exists_follow_le {n : Nat} (h : follow next n a = some b) :
    ∃ m, m ≤ l.length ∧ follow next m a = some b := by
  classical
  -- The shortest way: were an object met on it twice, the part in between could be left out.
  have hex : ∃ n, follow next n a = some b := ⟨n, h⟩
  refine ⟨Nat.find hex, ?_, Nat.find_spec hex⟩
  generalize hk : Nat.find hex = k
  have hreach : follow next k a = some b := hk ▸ Nat.find_spec hex
  have hshort : ∀ m, follow next m a = some b → k ≤ m := fun m hm => hk ▸ Nat.find_min' hex hm
  have honce : ∀ i j, i < j → j < k → follow next i a ≠ follow next j a := by
    intro i j hij hjk heq
    have hcut : follow next (i + (k - j)) a = some b := by
      rw [follow_add, heq, ← follow_add, Nat.add_sub_cancel' (Nat.le_of_lt hjk), hreach]
    have := hshort _ hcut
    omega
  have hnodup : ((List.range k).map (follow next · a)).Nodup := by
    refine List.Nodup.map_on (fun i hi j hj heq => ?_) List.nodup_range
    rw [List.mem_range] at hi hj
    rcases Nat.lt_trichotomy i j with hij | hij | hij
    · exact absurd heq (honce i j hij hj)
    · exact hij
    · exact absurd heq.symm (honce j i hij hi)
  have hsub : (List.range k).map (follow next · a) ⊆ l.map some := by
    intro place hplace
    obtain ⟨i, hi, rfl⟩ := List.mem_map.mp hplace
    obtain ⟨c, hc, hrest⟩ := follow_through hreach (Nat.le_of_lt (List.mem_range.mp hi))
    cases hnext : next c with
    | none =>
      rw [follow_of_end hnext (Nat.sub_pos_of_lt (List.mem_range.mp hi))] at hrest
      cases hrest
    | some d => exact hc ▸ List.mem_map_of_mem (hl c d hnext)
  simpa using (hnodup.subperm hsub).length_le

/-- A walk that comes to an end has no more steps than there are objects with a link. -/
theorem le_length_of_follow {n : Nat} (h : follow next n a = some b) (hend : next b = none) :
    n ≤ l.length := by
  obtain ⟨m, hm, hreach⟩ := exists_follow_le hl h
  refine Nat.le_trans (Nat.le_of_not_lt fun hlt => ?_) hm
  obtain ⟨c, hc, hrest⟩ := follow_through h (Nat.le_of_lt hlt)
  obtain rfl : b = c := Option.some.inj (hreach.symm.trans hc)
  rw [follow_of_end hend (Nat.sub_pos_of_lt hlt)] at hrest
  cases hrest

end Finite

end ScriptLift
