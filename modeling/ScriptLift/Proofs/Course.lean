import Mathlib.Data.List.Basic
import ScriptLift.Proofs.Termination

/- The course of regrouping.

   `Reached code rule before after` says that some pass of `rule` comes to the place
   between `before` and `after` while `code` is regrouped, be it a pass over the code
   itself or over a block that was handed on. What has to be known of every application
   of a rule is proved along this relation, and can then be used where an application is
   shown to keep something (`Reached.regroup_rel`).

   A new round follows every round here. Regrouping stops after a round that applied no
   rule, and then the round that would follow applies none either. -/
namespace ScriptLift

namespace Rule

open Block

/-- The rule of the next pass; after the last one a new round starts. -/
def next : Rule → Rule
  | .forEach => .doUntil
  | .doUntil => .ifElse
  | .ifElse => .whileLoop
  | .whileLoop => .forLoop
  | .forLoop => .plainIf
  | .plainIf => .switch
  | .switch => .forEach

/-- The places that passes come to while `code` is regrouped: the rule of the pass, the
statements before the place, nearest first, and those still to come. -/
inductive Reached (code : Block) : Rule → Block → Block → Prop where
  | start : Reached code .forEach [] code
  | skip {rule : Rule} {before after : Block} {here : UInt32} {s : Stmt}
      (reached : Reached code rule before (⟨here, s⟩ :: after))
      (fails : rule.apply regroup before here s after = none) :
      Reached code rule (⟨here, s⟩ :: before) after
  | take {rule : Rule} {before after before' after' : Block} {here : UInt32} {s : Stmt}
      (reached : Reached code rule before (⟨here, s⟩ :: after))
      (applies : rule.apply regroup before here s after = some (before', after')) :
      Reached code rule before' after'
  | body {rule : Rule} {before after before' after' c : Block} {here : UInt32} {s : Stmt}
      (reached : Reached code rule before (⟨here, s⟩ :: after))
      (applies : rule.apply regroup before here s after = some (before', after'))
      (handed : c ∈ rule.handedOn before s after) : Reached code .forEach [] c
  | turn {rule : Rule} {before : Block} (reached : Reached code rule before []) :
      Reached code rule.next [] before.reverse

namespace Reached

variable {code : Block}

/-- A pass comes to the end of what it makes of the block. -/
theorem scanFrom_end {rule : Rule} {fuel : Nat} {before after : Block}
    (h : Reached code rule before after) (hfuel : after.length ≤ fuel) :
    Reached code rule (rule.scanFrom regroup fuel before after).1.reverse [] := by
  fun_induction scanFrom regroup rule fuel before after with
  | case1 before after =>
    obtain rfl : after = [] := by simpa using hfuel
    simpa using h
  | case2 _ before => simpa using h
  | case3 fuel before here s after happly ih => exact ih (h.skip happly) (by simpa using hfuel)
  | case4 fuel before here s after before' after' happly ih =>
    have hlen := (apply_suffix happly).length_le
    simp only [List.length_cons] at hfuel
    exact ih (h.take happly) (by omega)

theorem scan_turn {rule : Rule} {b : Block} (h : Reached code rule [] b) :
    Reached code rule.next [] (rule.scan regroup b).1 := by
  have hend := (h.scanFrom_end (Nat.le_refl b.length)).turn
  rwa [List.reverse_reverse] at hend

theorem scanAll_turn {rule : Rule} {rules : List Rule} {b : Block}
    (hchain : (rule :: rules).IsChain fun r r' => r.next = r') (h : Reached code rule [] b) :
    Reached code ((rule :: rules).getLast (by simp)).next [] (scanAll regroup (rule :: rules) b).1 := by
  induction rules generalizing rule b with
  | nil => exact h.scan_turn
  | cons r rules ih =>
    obtain ⟨rfl, hrest⟩ := List.isChain_cons_cons.mp hchain
    exact ih hrest h.scan_turn

theorem order_isChain : order.IsChain fun r r' => r.next = r' := by simp [order, next]

/-- A round over a block that is regrouped leads to the next. -/
theorem round {b : Block} (h : Reached code .forEach [] b) :
    Reached code .forEach [] (scanAll regroup order b).1 :=
  scanAll_turn order_isChain h

/-- Regrouping comes to its result, and to the results of all blocks handed on. -/
theorem regroup {b : Block} (h : Reached code .forEach [] b) :
    Reached code .forEach [] (Block.regroup b) := by
  induction hcount : plainCount b using Nat.strongRecOn generalizing b with
  | ind count ih =>
    subst hcount
    rw [regroup_eq b]
    split
    · next hchanged => exact ih _ (plainCount_scanAll_lt plainCount_regroup_le hchanged) h.round rfl
    · exact h

/-! Runs. -/

section Runs
variable {R : Block → Block → Prop} (refl : ∀ b, R b b)
  (trans : ∀ {a b c}, R a b → R b c → R a c)

/-- `R` holds between a block and what an application at a place that is reached makes of
it, when bodies are regrouped by `inner`. -/
def Steps (code : Block) (R : Block → Block → Prop) (inner : Block → Block) : Prop :=
  ∀ {rule : Rule} {before after before' after' : Block} {here : UInt32} {s : Stmt},
    Reached code rule before (⟨here, s⟩ :: after) →
    rule.apply inner before here s after = some (before', after') →
    R (before.reverse ++ ⟨here, s⟩ :: after) (before'.reverse ++ after')

include refl trans

theorem scanFrom_rel {inner : Block → Block} {bound : Nat}
    (hinner : ∀ c, Reached code .forEach [] c → plainCount c < bound → Block.regroup c = inner c)
    (step : Steps code R inner) {rule : Rule} (fuel : Nat) {before after : Block}
    (h : Reached code rule before after) (hbound : plainCount (before.reverse ++ after) ≤ bound) :
    R (before.reverse ++ after) (rule.scanFrom Block.regroup fuel before after).1 := by
  fun_induction scanFrom Block.regroup rule fuel before after with
  | case1 => exact refl _
  | case2 _ before => simpa using refl before.reverse
  | case3 fuel before here s after happly ih =>
    simpa using ih (h.skip happly) (by simpa using hbound)
  | case4 fuel before here s after before' after' happly ih =>
    have hlt := (apply_collapse happly).plainCount_lt plainCount_regroup_le
    have hsame : rule.apply Block.regroup before here s after = rule.apply inner before here s after :=
      apply_congr_handedOn fun c hc => hinner c (h.body happly hc)
        (Nat.lt_of_lt_of_le (plainCount_handedOn_lt hc) hbound)
    exact trans (step h (hsame ▸ happly)) (ih (h.take happly) (by omega))

theorem scanAll_rel {inner : Block → Block} {bound : Nat}
    (hinner : ∀ c, Reached code .forEach [] c → plainCount c < bound → Block.regroup c = inner c)
    (step : Steps code R inner) {rule : Rule} {rules : List Rule}
    (hchain : (rule :: rules).IsChain fun r r' => r.next = r') {b : Block}
    (h : Reached code rule [] b) (hbound : plainCount b ≤ bound) :
    R b (scanAll Block.regroup (rule :: rules) b).1 := by
  induction rules generalizing rule b with
  | nil => exact scanFrom_rel refl trans hinner step b.length h hbound
  | cons r rules ih =>
    obtain ⟨rfl, hrest⟩ := List.isChain_cons_cons.mp hchain
    have hfirst : R b (rule.scan Block.regroup b).1 :=
      scanFrom_rel refl trans hinner step b.length h hbound
    have hle : plainCount (rule.scan Block.regroup b).1 ≤ plainCount b :=
      plainCount_scanFrom_le plainCount_regroup_le b.length [] b
    exact trans hfirst (ih hrest h.scan_turn (Nat.le_trans hle hbound))

/-- What regrouping keeps, from what the applications keep that it comes to, while bodies
are regrouped in the same way. -/
theorem regroup_rel
    (step : ∀ inner : Block → Block, (∀ c, R c (inner c)) → Steps code R inner) {b : Block}
    (h : Reached code .forEach [] b) : R b (Block.regroup b) := by
  induction hcount : plainCount b using Nat.strongRecOn generalizing b with
  | ind count ih =>
    subst hcount
    -- Only smaller blocks that are reached are handed on, so that the others may stay.
    let inner : Block → Block := open Classical in fun c =>
      if Reached code .forEach [] c ∧ plainCount c < plainCount b then Block.regroup c else c
    have hsmall : ∀ c, Reached code .forEach [] c → plainCount c < plainCount b →
        Block.regroup c = inner c := fun c hc hlt => (if_pos ⟨hc, hlt⟩).symm
    have hkeeps : ∀ c, R c (inner c) := by
      intro c
      by_cases hc : Reached code .forEach [] c ∧ plainCount c < plainCount b
      · rw [← hsmall c hc.1 hc.2]
        exact ih _ hc.2 hc.1 rfl
      · simp only [inner, if_neg hc]
        exact refl c
    have hround : R b (scanAll Block.regroup order b).1 :=
      scanAll_rel refl trans hsmall (step inner hkeeps) order_isChain h (Nat.le_refl _)
    rw [regroup_eq b]
    split
    · next hchanged =>
      exact trans hround (ih _ (plainCount_scanAll_lt plainCount_regroup_le hchanged) h.round rfl)
    · exact refl b

end Runs

end Reached

end Rule

end ScriptLift
