import Mathlib.Data.List.Chain
import Mathlib.Data.List.Nodup
import Mathlib.Data.List.Perm.Subperm
import Mathlib.Logic.Relation
import ScriptLift.Proofs.BlockPlaces
import ScriptLift.Proofs.DirectoryErrors
import ScriptLift.Proofs.Fitting
import ScriptLift.Proofs.OneLine

/- How deep blocks stand inside one another.

   The block of an object has in it the blocks of the objects that its settings export
   (`Package.Holds`), so writing it ends only where following these references does. Blocks
   are written with a budget for their depth; what the budget cuts off is seen by the error
   that it leaves behind (`Settles`). One step of the writing asks only for the blocks of the
   objects held (`Context.blockWith_congr`, `Context.settles_blockWith`), so a budget that is
   longer than every chain of objects is never used up. Without a cycle no chain has an
   object twice, and there are only as many objects as exports. -/
namespace ScriptLift

/-- The object is written with its settings: it is one of the package and no brush. -/
structure Package.Opens (p : Package) (r : Reference) (e : Export) (o : ObjectInstance) (className : String) :
    Prop where
  found : p.exportOf r = .ok e
  classed : p.className (.exported e) = .ok className
  stored : e.payload = some (.object o)
  plain : sameName className brushClass = false

/-- The block of the object at `r` has the block of the object at `s` in it. -/
def Package.Holds (p : Package) (r s : Reference) : Prop :=
  ∃ e o className, p.Opens r e o className ∧
    ∃ a ∈ o.settings.flatMap Setting.assignments, ∃ v, a.value = some v ∧ v.Exported p a.template s

/-- No object that is reached from `r` is reached from itself. -/
def Package.AcyclicFrom (p : Package) (r : Reference) : Prop :=
  ∀ s, Relation.ReflTransGen p.Holds r s → ¬ Relation.TransGen p.Holds s s

/-- The block of an exported object from a line at `indent`, with the blocks inside it
written by `block`. -/
def Context.blockWith (c : Context) (block : Nat → Reference → Except Error Text) (indent : Nat)
    (r : Reference) : Except Error Text := do
  let e ← c.package.exportOf r
  let className ← c.package.className (.exported e)
  match e.payload with
  | some (.object o) =>
    if sameName className brushClass then c.package.brushText r e o indent
    else
      let word ← c.package.blockWord e
      let body ← Setting.text c (block (indent + 1)) (indent + 1) o.settings
      return Text.lit ("Begin " ++ word ++ " Class=" ++ className ++ " Name=" ++ e.name) ++
        Text.line (indent + 1) ++ body ++ Text.lineOf indent ("End " ++ word)
  | _ => throw (.notFound .object (← c.package.fullName r))

/-- Writing with a budget is writing the blocks inside with one less. -/
theorem Context.objectBlock_succ (c : Context) (budget indent : Nat) (r : Reference) :
    c.objectBlock (budget + 1) indent r = c.blockWith (c.objectBlock budget) indent r := rfl

/-! Only the blocks of exported values are asked for. -/

section Asked
variable {c : Context} {block block' : Reference → Except Error Text}

theorem bind_congr_of_ok {α β : Type} {x : Except Error α} {f g : α → Except Error β}
    (h : ∀ a, x = .ok a → f a = g a) : x >>= f = x >>= g := by
  cases x with
  | error e => rfl
  | ok a => exact h a rfl

theorem Package.needsExport_eq_true {p : Package} {template : Property} {r : Reference}
    (h : p.needsExport template r = .ok true) : (Value.object r).Exported p template r := by
  unfold needsExport at h
  obtain ⟨found, hentry, hexports⟩ := bind_eq_ok.mp h
  match found with
  | none => simp [pure, Except.pure] at hexports
  | some (.imported i) => simp [pure, Except.pure] at hexports
  | some (.exported e) => exact ⟨rfl, ⟨e, hentry⟩, Property.exports_iff.mp (Except.ok.inj hexports)⟩

theorem Value.exportBlock_congr {p : Package} {template : Property} {v : Value}
    (h : ∀ r, v.Exported p template r → block r = block' r) :
    v.exportBlock p block template = v.exportBlock p block' template := by
  cases v with
  | object r =>
    refine bind_congr_of_ok fun needed hneeded => ?_
    cases needed with
    | false => rfl
    | true => rw [h r (Package.needsExport_eq_true hneeded)]
  | _ => rfl

theorem Assignment.pieces_congr {a : Assignment}
    (h : ∀ v, a.value = some v → ∀ r, v.Exported c.package a.template r → block r = block' r) :
    a.pieces c block = a.pieces c block' := by
  obtain ⟨name, template, value⟩ := a
  cases value with
  | none => rfl
  | some v =>
    simp only [Assignment.pieces, Value.lines]
    rw [Value.exportBlock_congr (h v rfl)]

theorem Assignment.listPieces_congr {as : List Assignment}
    (h : ∀ a ∈ as, a.pieces c block = a.pieces c block') : listPieces c block as = listPieces c block' as := by
  induction as with
  | nil => rfl
  | cons a as ih =>
    obtain ⟨hfirst, hrest⟩ := List.forall_mem_cons.mp h
    rw [listPieces, listPieces, hfirst, ih hrest]

/-- One step of the writing depends on the blocks of the objects held and on no others. -/
theorem Context.blockWith_congr {block block' : Nat → Reference → Except Error Text} {indent : Nat}
    {r : Reference} (h : ∀ s, c.package.Holds r s → block (indent + 1) s = block' (indent + 1) s) :
    c.blockWith block indent r = c.blockWith block' indent r := by
  unfold blockWith
  refine bind_congr_of_ok fun e hfound => bind_congr_of_ok fun className hclassed => ?_
  split
  · next o hstored =>
    split
    · rfl
    · next hbrush =>
      have hopens : c.package.Opens r e o className :=
        ⟨hfound, hclassed, hstored, Bool.eq_false_iff.mpr hbrush⟩
      have hlines : Setting.lines c (block (indent + 1)) o.settings =
          Setting.lines c (block' (indent + 1)) o.settings := by
        rw [Setting.lines_eq, Setting.lines_eq]
        refine Assignment.listPieces_congr fun a ha => Assignment.pieces_congr fun v hv s hs => ?_
        exact h s ⟨e, o, className, hopens, a, ha, v, hv, hs⟩
      simp only [Setting.text, hlines]
  · rfl

end Asked

/-! Failures for want of budget. -/

/-- The computation does not fail for want of budget. -/
abbrev Settles {α : Type} (x : Except Error α) : Prop := FailsWith (fun e => ∀ r, e ≠ .cyclicExport r) x

theorem FailsWith.settles {α : Type} {x : Except Error α} (h : FailsWith Error.OfDirectory x) : Settles x := by
  refine h.mono fun e he r => ?_
  cases he <;> simp

theorem Package.settles_brushText (p : Package) (r : Reference) (e : Export) (o : ObjectInstance) (indent : Nat) :
    Settles (p.brushText r e o indent) := by
  unfold brushText
  split
  · exact .error (by simp)
  · exact (p.failsWith_listText (indent + 2) _).settles.bind fun _ _ => .pure _

namespace Context

variable {c : Context}

/-- What is wrong at a slot or value is never a matter of budget. -/
theorem settles_literal (template : Property) (v : Value) : Settles (v.literal c template) := by
  have hfault : ∀ (site : Site) (r : Reference), site.fault c ≠ some (.cyclicExport r) := by
    intro ⟨template, value⟩ r
    have hlink : ∀ s, failure (c.link s) ≠ some (.cyclicExport r) :=
      fun s h => (c.failsWith_link s).settles _ (failure_eq_some.mp h) r rfl
    cases value with
    | none =>
      simp only [Site.fault]
      split <;> simp
    | some v =>
      simp only [Site.fault, Package.ordinalFault]
      grind
  rintro e he r rfl
  have hfirst := v.failure_literal_eq_fault c template
  rw [failure_eq_some.mpr he] at hfirst
  obtain ⟨site, -, hsite⟩ := List.exists_of_findSome?_eq_some hfirst.symm
  exact hfault site r hsite

theorem settles_pieces {block : Reference → Except Error Text} {a : Assignment}
    (h : ∀ v, a.value = some v → ∀ r, v.Exported c.package a.template r → Settles (block r)) :
    Settles (a.pieces c block) := by
  obtain ⟨name, template, value⟩ := a
  cases value with
  | none =>
    simp only [Assignment.pieces]
    split
    · exact .pure _
    · exact .error (by simp)
  | some v =>
    refine FailsWith.bind ?_ fun _ _ => (settles_literal template v).bind fun _ _ => .pure _
    cases v with
    | object r =>
      have hneeds : Settles (c.package.needsExport template r) := by
        refine (c.package.failsWith_entry r).settles.bind fun entry _ => ?_
        split <;> exact .pure _
      refine hneeds.bind fun needed hneeded => ?_
      cases needed with
      | false => exact .pure _
      | true => exact (h _ rfl r (Package.needsExport_eq_true hneeded)).bind fun _ _ => .pure _
    | _ => exact .pure _

theorem settles_listPieces {block : Reference → Except Error Text} {as : List Assignment}
    (h : ∀ a ∈ as, Settles (a.pieces c block)) : Settles (Assignment.listPieces c block as) := by
  induction as with
  | nil => exact .pure _
  | cons a as ih =>
    obtain ⟨hfirst, hrest⟩ := List.forall_mem_cons.mp h
    exact hfirst.bind fun _ _ => (ih hrest).bind fun _ _ => .pure _

/-- A block is not cut off where the blocks in it are not. -/
theorem settles_blockWith {block : Nat → Reference → Except Error Text} {indent : Nat} {r : Reference}
    (h : ∀ s, c.package.Holds r s → Settles (block (indent + 1) s)) : Settles (c.blockWith block indent r) := by
  refine (c.package.failsWith_exportOf r).settles.bind fun e hfound => ?_
  refine (c.package.failsWith_className (.exported e)).settles.bind fun className hclassed => ?_
  split
  · next o hstored =>
    split
    · exact c.package.settles_brushText r e o indent
    · next hbrush =>
      have hopens : c.package.Opens r e o className :=
        ⟨hfound, hclassed, hstored, Bool.eq_false_iff.mpr hbrush⟩
      have hlines : Settles (Setting.lines c (block (indent + 1)) o.settings) := by
        rw [Setting.lines_eq]
        refine settles_listPieces fun a ha => settles_pieces fun v hv s hs => ?_
        exact h s ⟨e, o, className, hopens, a, ha, v, hv, hs⟩
      have hbody : Settles (Setting.text c (block (indent + 1)) (indent + 1) o.settings) :=
        hlines.bind fun _ _ => .pure _
      exact (c.package.failsWith_blockWord e).settles.bind fun _ _ => hbody.bind fun _ _ => .pure _
  · exact (c.package.failsWith_fullName r).settles.bind fun _ _ => .error (by simp)

/-- A budget longer than every chain of objects is not used up, and more of it changes nothing. -/
theorem objectBlock_of_chains {budget : Nat} {r : Reference}
    (h : ∀ l, (r :: l).IsChain c.package.Holds → l.length < budget) (indent : Nat) :
    Settles (c.objectBlock budget indent r) ∧
      ∀ more, budget ≤ more → c.objectBlock more indent r = c.objectBlock budget indent r := by
  induction budget generalizing r indent with
  | zero => exact absurd (h [] (.singleton r)) (Nat.not_lt_zero _)
  | succ budget ih =>
    have hinner : ∀ s, c.package.Holds r s → ∀ l, (s :: l).IsChain c.package.Holds → l.length < budget := by
      intro s hs l hl
      exact Nat.lt_of_succ_lt_succ (h (s :: l) (List.isChain_cons_cons.mpr ⟨hs, hl⟩))
    refine ⟨settles_blockWith fun s hs => (ih (hinner s hs) (indent + 1)).1, fun more hmore => ?_⟩
    obtain ⟨more, rfl⟩ := Nat.exists_eq_add_of_lt (Nat.lt_of_lt_of_le (Nat.succ_pos budget) hmore)
    rw [Nat.zero_add, objectBlock_succ, objectBlock_succ]
    exact blockWith_congr fun s hs => (ih (hinner s hs) (indent + 1)).2 more (by omega)

end Context

/-! Chains without a cycle. -/

namespace Reference

/-- The place of an export in the directory. -/
def position (r : Reference) : Nat := r.index.toInt.toNat - 1

theorem eq_of_position {r s : Reference} (hr : 0 < r.index.toInt) (hs : 0 < s.index.toInt)
    (h : r.position = s.position) : r = s := by
  have hindex : r.index.toInt = s.index.toInt := by
    unfold position at h
    omega
  obtain ⟨i⟩ := r
  obtain ⟨j⟩ := s
  exact congrArg mk (Int32.toInt_inj.mp hindex)

end Reference

namespace Package

variable {p : Package} {r s : Reference}

theorem position_of_entry {e : Export} (h : p.entry r = .ok (some (.exported e))) :
    0 < r.index.toInt ∧ r.position < p.exports.length := by
  unfold entry at h
  unfold Reference.position
  grind

theorem Holds.entry_left (h : p.Holds r s) : ∃ e, p.entry r = .ok (some (.exported e)) := by
  obtain ⟨e, _, _, hopens, -⟩ := h
  exact ⟨e, entry_of_exportOf hopens.found⟩

theorem Holds.entry_right (h : p.Holds r s) : ∃ e, p.entry s = .ok (some (.exported e)) := by
  obtain ⟨_, _, _, _, _, _, _, _, -, hentry, -⟩ := h
  exact hentry

theorem pairwise_of_chain {l : List Reference} (hchain : (r :: l).IsChain p.Holds) :
    (r :: l).Pairwise (Relation.TransGen p.Holds) :=
  (hchain.imp fun _ _ => Relation.TransGen.single).pairwise

/-- A chain meets no object twice. -/
theorem AcyclicFrom.nodup (h : p.AcyclicFrom r) {l : List Reference} (hchain : (r :: l).IsChain p.Holds) :
    (r :: l).Nodup := by
  have hpairwise := pairwise_of_chain hchain
  have hreached : ∀ s ∈ r :: l, Relation.ReflTransGen p.Holds r s := by
    intro s hs
    rcases List.mem_cons.mp hs with rfl | hs
    · exact .refl
    · exact (List.rel_of_pairwise_cons hpairwise hs).to_reflTransGen
  refine hpairwise.imp_of_mem fun {a b} ha _ hab => ?_
  rintro rfl
  exact h a (hreached a ha) hab

/-- A chain of more than one object has no more than there are exports. -/
theorem AcyclicFrom.length_le (h : p.AcyclicFrom r) {l : List Reference} (hchain : (r :: l).IsChain p.Holds) :
    l = [] ∨ (r :: l).length ≤ p.exports.length := by
  cases l with
  | nil => exact .inl rfl
  | cons s l =>
    right
    have hentries : ∀ t ∈ r :: s :: l, ∃ e, p.entry t = .ok (some (.exported e)) := by
      intro t ht
      rcases List.mem_cons.mp ht with rfl | ht
      · exact (List.isChain_cons_cons.mp hchain).1.entry_left
      · have hreached := List.rel_of_pairwise_cons (pairwise_of_chain hchain) ht
        obtain ⟨u, -, hu⟩ := Relation.TransGen.tail'_iff.mp hreached
        exact hu.entry_right
    have hnodup : ((r :: s :: l).map Reference.position).Nodup := by
      refine List.Nodup.map_on (fun t ht u hu heq => ?_) (h.nodup hchain)
      obtain ⟨_, het⟩ := hentries t ht
      obtain ⟨_, heu⟩ := hentries u hu
      exact Reference.eq_of_position (position_of_entry het).1 (position_of_entry heu).1 heq
    have hsub : (r :: s :: l).map Reference.position ⊆ List.range p.exports.length := by
      intro n hn
      obtain ⟨t, ht, rfl⟩ := List.mem_map.mp hn
      obtain ⟨_, het⟩ := hentries t ht
      exact List.mem_range.mpr (position_of_entry het).2
    have hle := (hnodup.subperm hsub).length_le
    rwa [List.length_map, List.length_range] at hle

end Package

/-- Blocks without a cycle. Where no object reached from `r` is reached from itself, the
block of `r` is written with at most as many calls inside one another as there are exports
(one, when there is none): any budget from there on gives the same text or the same error,
it is not an error of the budget, and it is what writing without a budget gives. -/
theorem Context.objectBlock_of_acyclic (c : Context) {r : Reference} (h : c.package.AcyclicFrom r)
    (indent : Nat) {budget : Nat} (hpos : 0 < budget) (hbudget : c.package.exports.length ≤ budget) :
    c.objectBlock budget indent r = c.exportText indent r ∧
    (∀ s, c.exportText indent r ≠ .error (.cyclicExport s)) ∧
    c.exportText indent r = c.blockWith c.exportText indent r := by
  have hchains : ∀ budget, 0 < budget → c.package.exports.length ≤ budget →
      ∀ l, (r :: l).IsChain c.package.Holds → l.length < budget := by
    intro budget hpos hbudget l hl
    rcases h.length_le hl with rfl | hle
    · exact hpos
    · exact Nat.lt_of_lt_of_le hle hbudget
  have hends := objectBlock_of_chains (hchains c.package.blockBudget (by simp [Package.blockBudget])
    (by simp [Package.blockBudget])) indent
  have hlarge : c.objectBlock (c.package.blockBudget + 1) indent r = c.exportText indent r :=
    hends.2 _ (Nat.le_succ _)
  refine ⟨?_, fun s h => hends.1 _ h s rfl, hlarge.symm⟩
  calc c.objectBlock budget indent r
      = c.objectBlock (c.package.blockBudget + budget) indent r :=
        ((objectBlock_of_chains (hchains budget hpos hbudget) indent).2 _ (Nat.le_add_left ..)).symm
    _ = c.exportText indent r := hends.2 _ (Nat.le_add_right ..)

namespace Package

/-- A hall with a room and a lamp in it, and the lamp in the room as well. -/
def sharedLamp : Package :=
  { Package.named "Maps" with
    exports :=
      [ ⟨"Hall", ⟨0⟩, ⟨0⟩, ⟨0⟩, ⟨0⟩, some (.object ⟨[⟨⟨"Parts", .array ⟨"Parts", .object "Thing", .exportObject, ⟨0⟩, 1, none⟩,
          ⟨0⟩, ⟨0⟩, 1, none⟩, [some (.array [.object ⟨2⟩, .object ⟨3⟩])]⟩], []⟩)⟩
      , ⟨"Room", ⟨0⟩, ⟨0⟩, ⟨1⟩, ⟨0⟩, some (.object ⟨[⟨⟨"Light", .object "Lamp", .editInlineNotify, ⟨0⟩, 1, none⟩,
          [some (.object ⟨3⟩)]⟩], []⟩)⟩
      , ⟨"Lamp", ⟨0⟩, ⟨0⟩, ⟨1⟩, ⟨0⟩, some (.object ⟨[⟨⟨"Power", .int, ⟨0⟩, ⟨0⟩, 1, none⟩,
          [some (.int 7)]⟩], []⟩)⟩ ] }

/-- Each of these objects holds only objects behind it in the directory. -/
theorem holds_sharedLamp {r s : Reference} (h : sharedLamp.Holds r s) : r.index.toInt < s.index.toInt := by
  obtain ⟨e, o, className, hopens, a, ha, v, hv, rfl, -, -⟩ := h
  obtain ⟨hpos, hlt⟩ := position_of_entry (entry_of_exportOf hopens.found)
  have hfew : r.position = 0 ∨ r.position = 1 ∨ r.position = 2 := by
    have hlength : sharedLamp.exports.length = 3 := rfl
    omega
  have hr : r = ⟨1⟩ ∨ r = ⟨2⟩ ∨ r = ⟨3⟩ :=
    hfew.imp (Reference.eq_of_position hpos (by decide))
      (.imp (Reference.eq_of_position hpos (by decide)) (Reference.eq_of_position hpos (by decide)))
  have hvalue : some (.object s) ∈ (o.settings.flatMap Setting.assignments).map Assignment.value :=
    hv ▸ List.mem_map_of_mem ha
  rcases hr with rfl | rfl | rfl
  all_goals
    obtain rfl := Except.ok.inj hopens.found
    obtain rfl := Payload.object.inj (Option.some.inj hopens.stored)
  · have hparts : some (.object s) ∈ [some (Value.object ⟨2⟩), some (.object ⟨3⟩)] := hvalue
    have hs : s = ⟨2⟩ ∨ s = ⟨3⟩ := by simpa using hparts
    rcases hs with rfl | rfl <;> decide
  · have hlight : some (.object s) ∈ [some (Value.object ⟨3⟩)] := hvalue
    obtain rfl : s = ⟨3⟩ := by simpa using hlight
    decide
  · have hpower : some (.object s) ∈ [some (Value.int 7)] := hvalue
    simp at hpower

end Package

/-- Three calls inside one another are enough for the three objects. -/
theorem Context.objectBlock_of_acyclic_sharedLamp :
    Package.sharedLamp.AcyclicFrom ⟨1⟩ ∧
    (⟨Package.sharedLamp, true⟩ : Context).objectBlock 3 0 ⟨1⟩ =
      (⟨Package.sharedLamp, true⟩ : Context).exportText 0 ⟨1⟩ ∧
    ((⟨Package.sharedLamp, true⟩ : Context).exportText 0 ⟨1⟩).toOption.map (Text.render .lf) = some
      ("Begin Object Class=Class Name=Hall\n" ++
        "\tBegin Object Class=Class Name=Room\n" ++
        "\t\tBegin Object Class=Class Name=Lamp\n\t\t\tPower=7\n\t\tEnd Object\n" ++
        "\t\tLight=Class'myLevel.Hall.Lamp'\n\tEnd Object\n\tParts(0)=Class'myLevel.Hall.Room'\n" ++
        "\tBegin Object Class=Class Name=Lamp\n\t\tPower=7\n\tEnd Object\n" ++
        "\tParts(1)=Class'myLevel.Hall.Lamp'\nEnd Object") := by
  have hlater : ∀ r s, Relation.TransGen Package.sharedLamp.Holds r s → r.index.toInt < s.index.toInt := by
    intro r s h
    induction h with
    | single h => exact Package.holds_sharedLamp h
    | tail _ h ih => exact Int.lt_trans ih (Package.holds_sharedLamp h)
  have hacyclic : Package.sharedLamp.AcyclicFrom ⟨1⟩ :=
    fun s _ hcycle => Int.lt_irrefl _ (hlater s s hcycle)
  refine ⟨hacyclic, ?_, by decide +kernel⟩
  exact (objectBlock_of_acyclic ⟨Package.sharedLamp, true⟩ hacyclic 0 (by decide) (by decide)).1

end ScriptLift
