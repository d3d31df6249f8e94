import Mathlib.Data.List.Sort
import ScriptLift.Proofs.FlatCode
import ScriptLift.Proofs.Collapse

/- Which case labels a switch takes.

   A switch takes what follows it up to the first jump for which the last label in front
   is that of the default. It does not follow the links of the labels. So it takes all
   labels up to the first default (`mem_of_switchExtent`), and nothing behind a jump with
   a default as the last label in front (`switchExtent_le`). Where these are the labels
   that the links lead to, the cases of the switch are these labels
   (`splitArms_keys_eq`). -/
namespace ScriptLift

/-- The offsets of the case labels that the links lead to, from the first label to that
of the default. -/
inductive Linked (code : UInt32 → Option Token) : List UInt32 → Prop where
  | default {here : UInt32} {value : Option Token}
      (label : code here = some (.case Token.defaultLink value)) : Linked code [here]
  | link {here next : UInt32} {link : UInt16} {value : Option Token} {rest : List UInt32}
      (label : code here = some (.case link value)) (more : link ≠ Token.defaultLink)
      (leads : link.toUInt32 = next) (ahead : here < next) (tail : Linked code (next :: rest)) :
      Linked code (here :: next :: rest)

namespace Linked

variable {code : UInt32 → Option Token} {labels : List UInt32}

theorem case_of_mem (h : Linked code labels) {k : UInt32} (hk : k ∈ labels) :
    ∃ next value, code k = some (.case next value) := by
  induction h with
  | default label =>
    obtain rfl := List.mem_singleton.mp hk
    exact ⟨_, _, label⟩
  | link label more leads ahead tail ih =>
    rcases List.mem_cons.mp hk with rfl | hk
    · exact ⟨_, _, label⟩
    · exact ih hk

theorem ascending (h : Linked code labels) : labels.Pairwise (· < ·) := by
  induction h with
  | default => simp
  | @link here next link value rest label more leads ahead tail ih =>
    refine List.pairwise_cons.mpr ⟨fun k hk => ?_, ih⟩
    rcases List.mem_cons.mp hk with rfl | hk
    · exact ahead
    · exact UInt32.lt_trans ahead ((List.pairwise_cons.mp ih).1 k hk)

/-- The label of the default is the last one. -/
theorem le_default (h : Linked code labels) {last : UInt32} {value : Option Token}
    (hlast : last ∈ labels) (hdefault : code last = some (.case Token.defaultLink value)) :
    ∀ k ∈ labels, k ≤ last := by
  induction h with
  | default label =>
    obtain rfl := List.mem_singleton.mp hlast
    simp
  | @link here next link _ rest label more leads ahead tail ih =>
    have hmem : last ∈ next :: rest := by
      rcases List.mem_cons.mp hlast with rfl | hmem
      · rw [label] at hdefault
        simp only [Option.some.injEq, Token.case.injEq] at hdefault
        exact absurd hdefault.1 more
      · exact hmem
    have hrest := ih hmem
    refine List.forall_mem_cons.mpr ⟨?_, hrest⟩
    exact UInt32.le_trans (UInt32.le_of_lt ahead) (hrest next (by simp))

theorem exists_default (h : Linked code labels) :
    ∃ last ∈ labels, ∃ value, code last = some (.case Token.defaultLink value) := by
  induction h with
  | default label => exact ⟨_, by simp, _, label⟩
  | link label more leads ahead tail ih =>
    obtain ⟨last, hlast, hdefault⟩ := ih
    exact ⟨last, List.mem_cons_of_mem _ hlast, hdefault⟩

theorem ne_nil (h : Linked code labels) : labels ≠ [] := by cases h <;> simp

end Linked

namespace Stmt

def isLabel : Stmt → Bool
  | .plain (.case _ _) => true
  | _ => false

theorem isLabel_iff {s : Stmt} : s.isLabel = true ↔ ∃ next value, s = .plain (.case next value) := by
  unfold isLabel
  split <;> simp_all

end Stmt

namespace Rule

open Block

/-- The cases of a switch stand at the labels among its statements. -/
theorem splitArms_keys (own : Block) :
    (splitArms own).2.map (·.offset) = keys (own.filter (·.item.isLabel)) := by
  fun_induction splitArms own with
  | case1 => rfl
  | case2 here rest body arms hrest next value ih =>
    rw [hrest] at ih
    simp [Stmt.isLabel, ih]
  | case3 here rest body arms hrest s hs ih =>
    rw [hrest] at ih
    have hlabel : ¬ s.isLabel = true := fun h => by
      obtain ⟨next, value, rfl⟩ := Stmt.isLabel_iff.mp h
      exact hs next value rfl
    simp [hlabel, ih]

/-- A switch takes everything up to the first label of a default. -/
theorem mem_of_switchExtent {after : Block} {x : Placed Stmt} (hasc : Ascending after)
    (hx : x ∈ after)
    (hfirst : ∀ k value, ⟨k, .plain (.case Token.defaultLink value)⟩ ∈ after → x.offset ≤ k) :
    x ∈ (switchExtent false after).1 := by
  induction after with
  | nil => simp at hx
  | cons e rest ih =>
    obtain ⟨hlt, hrest⟩ := ascending_cons.mp hasc
    have hlater : ∀ k value, ⟨k, .plain (.case Token.defaultLink value)⟩ ∈ rest → x.offset ≤ k :=
      fun k value hk => hfirst k value (List.mem_cons_of_mem _ hk)
    rcases List.mem_cons.mp hx with rfl | hmem
    · unfold switchExtent
      split <;> simp
    · have hrec := ih hrest hmem hlater
      unfold switchExtent
      split
      · simp [hrec]
      · next next value hitem =>
        -- A default here would stand in front of `x`.
        have hmore : (Token.case next value).isDefaultCase = false := by
          refine beq_eq_false_iff_ne.mpr fun hnext => ?_
          have hle := hfirst e.offset value (by rw [← hnext, ← hitem]; simp)
          exact absurd (hlt x hmem) (UInt32.not_lt.mpr hle)
        simp [hmore, hrec]
      · simp [hrec]

/-- Once in the default, a switch takes nothing behind the first jump. -/
theorem switchExtent_default_le {after : Block} {exit target : UInt32} (hasc : Ascending after)
    (hexit : ⟨exit, .plain (.jump target)⟩ ∈ after)
    (hlabels : ∀ k next value, ⟨k, .plain (.case next value)⟩ ∈ after → exit < k) :
    ∀ x ∈ (switchExtent true after).1, x.offset ≤ exit := by
  induction after with
  | nil => simp at hexit
  | cons e rest ih =>
    obtain ⟨hlt, hrest⟩ := ascending_cons.mp hasc
    rcases List.mem_cons.mp hexit with rfl | hmem
    · simp [switchExtent]
    · have hhead : e.offset ≤ exit := UInt32.le_of_lt (hlt _ hmem)
      have hown := ih hrest hmem fun k next value hk => hlabels k next value (List.mem_cons_of_mem _ hk)
      unfold switchExtent
      split
      · simpa using hhead
      · next next value hitem =>
        have hbehind := hlabels e.offset next value (by rw [← hitem]; simp)
        exact absurd hhead (UInt32.not_le.mpr hbehind)
      · simpa using ⟨hhead, hown⟩

/-- A switch takes nothing behind a jump, when the last label in front of the jump is
that of a default. -/
theorem switchExtent_le {isDefault : Bool} {after : Block} {last exit target : UInt32}
    {value : Option Token} (hasc : Ascending after)
    (hlast : ⟨last, .plain (.case Token.defaultLink value)⟩ ∈ after)
    (hexit : ⟨exit, .plain (.jump target)⟩ ∈ after) (hahead : last < exit)
    (hlabels : ∀ k next value, ⟨k, .plain (.case next value)⟩ ∈ after → k ≤ last ∨ exit < k) :
    ∀ x ∈ (switchExtent isDefault after).1, x.offset ≤ exit := by
  induction after generalizing isDefault with
  | nil => simp at hexit
  | cons e rest ih =>
    obtain ⟨hlt, hrest⟩ := ascending_cons.mp hasc
    have hlabels' : ∀ k next value, ⟨k, .plain (.case next value)⟩ ∈ rest → k ≤ last ∨ exit < k :=
      fun k next value hk => hlabels k next value (List.mem_cons_of_mem _ hk)
    have hexit' : ⟨exit, .plain (.jump target)⟩ ∈ rest := by
      rcases List.mem_cons.mp hexit with rfl | hmem
      · rcases List.mem_cons.mp hlast with heq | hmem
        · simp at heq
        · exact absurd (UInt32.lt_trans hahead (hlt _ hmem)) (UInt32.lt_irrefl _)
      · exact hmem
    have hhead : e.offset ≤ exit := UInt32.le_of_lt (hlt _ hexit')
    rcases List.mem_cons.mp hlast with rfl | hlast
    · -- The labels that follow are behind the default, so behind the jump.
      have hdefault : (Token.case Token.defaultLink value).isDefaultCase = true := rfl
      have hown := switchExtent_default_le hrest hexit' fun k next v hk =>
        (hlabels' k next v hk).resolve_left (UInt32.not_le.mpr (hlt _ hk))
      simpa [switchExtent, hdefault] using ⟨hhead, hown⟩
    · have hown := fun flag => @ih flag hrest hlast hexit' hlabels'
      unfold switchExtent
      split
      · split
        · simpa using hhead
        · simpa using ⟨hhead, hown isDefault⟩
      · simpa using ⟨hhead, hown _⟩
      · simpa using ⟨hhead, hown isDefault⟩

/-- The cases of a switch stand at these labels, when they are the ones it took. -/
theorem splitArms_keys_eq {own : Block} {labels : List UInt32} (hasc : Ascending own)
    (hlabels : labels.Pairwise (· < ·))
    (hmem : ∀ k, k ∈ labels ↔ ∃ next value, ⟨k, .plain (.case next value)⟩ ∈ own) :
    (splitArms own).2.map (·.offset) = labels := by
  rw [splitArms_keys]
  have hkeys : (keys (own.filter (·.item.isLabel))).Sublist (keys own) :=
    List.filter_sublist.map _
  refine (List.Pairwise.sublist hkeys hasc).eq_of_mem_iff hlabels fun k => ?_
  rw [hmem, mem_keys]
  constructor
  · rintro ⟨⟨here, s⟩, he, rfl⟩
    obtain ⟨hown, hlabel⟩ := List.mem_filter.mp he
    obtain ⟨next, value, rfl⟩ := Stmt.isLabel_iff.mp hlabel
    exact ⟨next, value, hown⟩
  · rintro ⟨next, value, hk⟩
    exact ⟨_, List.mem_filter.mpr ⟨hk, rfl⟩, rfl⟩

end Rule

end ScriptLift
