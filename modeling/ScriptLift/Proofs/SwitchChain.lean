import ScriptLift.Proofs.Stability
import ScriptLift.Proofs.SwitchExtent

/- The cases of a switch are the labels that its links lead to, where no rule divides
   them.

   The rules for branches and loops cut stretches out of the code and do not look at the
   labels in them. A switch keeps its labels when every such stretch takes all of them or
   none (`Undivided.whole`), and takes no others when no second switch begins before its
   default is left (`Undivided.alone`).

   The invariant: as long as such a switch is a plain instruction of a block, its labels
   and the jump that leaves its default are plain instructions of the same block, and its
   first label comes next (`Whole`). An application of a rule keeps that, in what it cuts
   out and in what it leaves behind (`Intact.cut`), until the switch itself is regrouped,
   with exactly its labels (`Opened.arms_eq`). And it is regrouped in the end, for no
   rule applies to a block of the tree. -/
namespace ScriptLift

/-- A switch of the code: its offset, the offsets of its labels, and that of the jump
that leaves its default, when there is one. -/
structure Chain where
  here : UInt32
  cases : List UInt32
  exit : Option UInt32

/-- The offsets that have to stay together. -/
def Chain.marks (c : Chain) : List UInt32 := c.here :: (c.cases ++ c.exit.toList)

/-- The stretches of the code from `low` up to `high` that rules cut out: what a branch
skips, what a branch back repeats, what a jump out of the part that a branch skips skips
in turn, and what an iterator repeats. -/
inductive Cut (code : UInt32 → Option Token) : UInt32 → UInt32 → Prop where
  | ahead {k target : UInt32} {condition : Token}
      (branch : code k = some (.jumpIfNot target condition)) : Cut code k target
  | back {k target : UInt32} {condition : Token}
      (branch : code k = some (.jumpIfNot target condition)) : Cut code target k
  | other {k jump target destination : UInt32} {condition : Token}
      (branch : code k = some (.jumpIfNot target condition))
      (leaves : code jump = some (.jump destination)) (inside : k < jump ∧ jump < target) :
      Cut code target destination
  | loop {k last : UInt32} {expression : Token}
      (iterator : code k = some (.iterator expression last)) : Cut code k last

/-- A switch whose labels are linked from the one right behind it to that of a default,
and which the other instructions of the code leave in one piece. -/
structure Undivided (code : UInt32 → Option Token) (c : Chain) : Prop where
  switch : ∃ subject, code c.here = some (.switch subject)
  linked : Linked code c.cases
  opens : ∀ first ∈ c.cases.head?, c.here < first ∧ ∀ k, c.here < k → k < first → code k = none
  /-- The jump at the exit goes forward, and not beyond the target of a branch over it. -/
  leaves : ∀ exit ∈ c.exit, (∀ k ∈ c.cases, k < exit) ∧
    ∃ destination, code exit = some (.jump destination) ∧ exit < destination ∧
      ∀ k target condition, code k = some (.jumpIfNot target condition) → k < exit →
        exit < target → destination ≤ target
  /-- All other switches and labels behind it are behind its exit. -/
  alone : ∀ k, c.here < k → ((∃ subject, code k = some (.switch subject)) ∨
    ∃ next value, code k = some (.case next value)) → k ∈ c.cases ∨ ∃ exit ∈ c.exit, exit < k
  whole : ∀ low high, Cut code low high →
    (∀ m ∈ c.marks, low ≤ m ∧ m < high) ∨ ∀ m ∈ c.marks, ¬ (low ≤ m ∧ m < high)
  ends : ∀ k expression last, code k = some (.iterator expression last) → last ∉ c.marks
  /-- No loop behind a label counts on the value of the label. -/
  uncounted : ∀ k ∈ c.cases, ∀ header step back label token, k < header → header < step →
    step < back → code back = some (.jump header) → code k = some label →
    code step = some token → Rule.sharesOneOperand label token = false

namespace Undivided

variable {code : UInt32 → Option Token} {c : Chain}

/-- What stands at the offsets of a switch. -/
theorem mark (h : Undivided code c) {m : UInt32} (hm : m ∈ c.marks) :
    (m = c.here ∧ ∃ subject, code m = some (.switch subject)) ∨
    (m ∈ c.cases ∧ ∃ next value, code m = some (.case next value)) ∨
    (m ∈ c.exit ∧ ∃ destination, code m = some (.jump destination)) := by
  rcases List.mem_cons.mp hm with rfl | hm
  · exact .inl ⟨rfl, h.switch⟩
  · rcases List.mem_append.mp hm with hm | hm
    · exact .inr (.inl ⟨hm, h.linked.case_of_mem hm⟩)
    · have hexit : m ∈ c.exit := by simpa using hm
      obtain ⟨-, destination, hjump, -⟩ := h.leaves m hexit
      exact .inr (.inr ⟨hexit, destination, hjump⟩)

theorem here_lt_case (h : Undivided code c) {k : UInt32} (hk : k ∈ c.cases) : c.here < k := by
  have hasc := h.linked.ascending
  have hopens := h.opens
  cases hcases : c.cases with
  | nil => exact absurd hcases h.linked.ne_nil
  | cons first rest =>
    rw [hcases] at hk hasc hopens
    obtain ⟨hfirst, -⟩ := hopens first rfl
    rcases List.mem_cons.mp hk with rfl | hk
    · exact hfirst
    · exact UInt32.lt_trans hfirst ((List.pairwise_cons.mp hasc).1 k hk)

theorem here_lt_exit (h : Undivided code c) {exit : UInt32} (hexit : exit ∈ c.exit) :
    c.here < exit := by
  obtain ⟨k, hk, -⟩ := h.linked.exists_default
  exact UInt32.lt_trans (h.here_lt_case hk) ((h.leaves exit hexit).1 k hk)

theorem here_le (h : Undivided code c) {m : UInt32} (hm : m ∈ c.marks) : c.here ≤ m := by
  rcases h.mark hm with ⟨rfl, -⟩ | ⟨hcase, -⟩ | ⟨hexit, -⟩
  · exact UInt32.le_refl _
  · exact UInt32.le_of_lt (h.here_lt_case hcase)
  · exact UInt32.le_of_lt (h.here_lt_exit hexit)

theorem le_exit (h : Undivided code c) {exit : UInt32} (hexit : exit ∈ c.exit) {m : UInt32}
    (hm : m ∈ c.marks) : m ≤ exit := by
  rcases h.mark hm with ⟨rfl, -⟩ | ⟨hcase, -⟩ | ⟨hm, -⟩
  · exact UInt32.le_of_lt (h.here_lt_exit hexit)
  · exact UInt32.le_of_lt ((h.leaves exit hexit).1 m hcase)
  · rw [Option.mem_unique hm hexit]
    exact UInt32.le_refl _

/-- A second switch stands behind the exit. -/
theorem exit_lt_switch (h : Undivided code c) {k : UInt32} {subject : Token} (hlt : c.here < k)
    (hk : code k = some (.switch subject)) : ∃ exit ∈ c.exit, exit < k := by
  refine (h.alone k hlt (.inl ⟨subject, hk⟩)).resolve_left fun hcase => ?_
  obtain ⟨next, value, hlabel⟩ := h.linked.case_of_mem hcase
  simp [hk] at hlabel

/-- Only switches, labels and jumps stand at the offsets of a switch. -/
theorem not_mark (h : Undivided code c) {k : UInt32} {token : Token} (hk : code k = some token)
    (hswitch : ∀ subject, token ≠ .switch subject) (hcase : ∀ next value, token ≠ .case next value)
    (hjump : ∀ destination, token ≠ .jump destination) : k ∉ c.marks := by
  intro hm
  rcases h.mark hm with ⟨-, s, hs⟩ | ⟨-, next, value, hs⟩ | ⟨-, destination, hs⟩
  · exact hswitch s (Option.some.inj (hk.symm.trans hs))
  · exact hcase next value (Option.some.inj (hk.symm.trans hs))
  · exact hjump destination (Option.some.inj (hk.symm.trans hs))

theorem not_mark_branch (h : Undivided code c) {k target : UInt32} {condition : Token}
    (hk : code k = some (.jumpIfNot target condition)) : k ∉ c.marks :=
  h.not_mark hk (by simp) (by simp) (by simp)

/-- A jump at the offsets of a switch is its exit. -/
theorem mem_exit (h : Undivided code c) {k destination : UInt32}
    (hk : code k = some (.jump destination)) (hm : k ∈ c.marks) : k ∈ c.exit := by
  rcases h.mark hm with ⟨-, s, hs⟩ | ⟨-, next, value, hs⟩ | ⟨hexit, -⟩
  · simp [hk] at hs
  · simp [hk] at hs
  · exact hexit

theorem not_mark_back (h : Undivided code c) {k header : UInt32}
    (hk : code k = some (.jump header)) (hback : header < k) : k ∉ c.marks := by
  intro hm
  obtain ⟨-, destination, hjump, hahead, -⟩ := h.leaves k (h.mem_exit hk hm)
  obtain rfl : header = destination := by simpa [hk] using hjump
  exact UInt32.lt_asymm hback hahead

theorem not_mark_further (h : Undivided code c) {k jump target destination : UInt32}
    {condition : Token} (hk : code k = some (.jumpIfNot target condition))
    (hjump : code jump = some (.jump destination)) (hinside : k < jump ∧ jump < target)
    (hfurther : target < destination) : jump ∉ c.marks := by
  intro hm
  obtain ⟨-, d, hd, -, hover⟩ := h.leaves jump (h.mem_exit hjump hm)
  obtain rfl : destination = d := by simpa [hjump] using hd
  have hle := hover k target condition hk hinside.1 hinside.2
  exact absurd hfurther (UInt32.not_lt.mpr hle)

end Undivided

namespace Rule

open Block

/-! Switches in one piece. -/

/-- The parts of a switch are plain instructions of the block, and its first label comes
next. -/
structure Whole (c : Chain) (b : Block) : Prop where
  marks : ∀ m ∈ c.marks, ∃ token, ⟨m, .plain token⟩ ∈ b
  opens : ∀ first ∈ c.cases.head?, ∀ k ∈ keys b, c.here < k → first ≤ k

/-- The switches among the plain instructions are in one piece. -/
def Intact (chains : Chain → Prop) (b : Block) : Prop :=
  ∀ c, chains c → ∀ token, ⟨c.here, .plain token⟩ ∈ b → Whole c b

/-- None of the switches is a plain instruction of the block. -/
def Clear (chains : Chain → Prop) (b : Block) : Prop :=
  ∀ c, chains c → ∀ token, ⟨c.here, .plain token⟩ ∉ b

/-- What follows a switch in one piece. -/
structure Opened (code : UInt32 → Option Token) (c : Chain) (after : Block) : Prop where
  ascending : Ascending after
  above : ∀ e ∈ after, c.here < e.offset
  sourced : ∀ k token, ⟨k, .plain token⟩ ∈ after → code k = some token
  marks : ∀ m ∈ c.marks, c.here < m → ∃ token, ⟨m, .plain token⟩ ∈ after

section Opened
variable {code : UInt32 → Option Token} {c : Chain}

theorem Whole.opened {pre after : Block} {s : Stmt} (h : Whole c (pre ++ ⟨c.here, s⟩ :: after))
    (hlaid : WellLaid code (pre ++ ⟨c.here, s⟩ :: after)) : Opened code c after := by
  obtain ⟨-, hhere, hpre⟩ := ascending_append.mp hlaid.every.1.ascending
  obtain ⟨habove, hasc⟩ := ascending_cons.mp hhere
  refine ⟨hasc, habove, fun k token hk => ?_, fun m hm hlt => ?_⟩
  · exact hlaid.plain k token (by simp [hk])
  · obtain ⟨token, htoken⟩ := h.marks m hm
    refine ⟨token, ?_⟩
    rcases List.mem_append.mp htoken with hin | hin
    · exact absurd (hpre _ hin ⟨c.here, s⟩ (by simp)) (UInt32.lt_asymm hlt)
    · rcases List.mem_cons.mp hin with heq | hin
      · simp only [Placed.mk.injEq] at heq
        exact absurd hlt (heq.1 ▸ UInt32.lt_irrefl _)
      · exact hin

theorem Opened.label {after : Block} (h : Opened code c after) (hc : Undivided code c) {k : UInt32}
    (hk : k ∈ c.cases) {next : UInt16} {value : Option Token}
    (hcase : code k = some (.case next value)) : ⟨k, .plain (.case next value)⟩ ∈ after := by
  obtain ⟨token, htoken⟩ := h.marks k (by simp [Chain.marks, hk]) (hc.here_lt_case hk)
  obtain rfl : token = .case next value := Option.some.inj ((h.sourced k token htoken).symm.trans hcase)
  exact htoken

theorem Opened.label_cases {after : Block} (h : Opened code c after) (hc : Undivided code c)
    {k : UInt32} {next : UInt16} {value : Option Token}
    (hk : ⟨k, .plain (.case next value)⟩ ∈ after) : k ∈ c.cases ∨ ∃ exit ∈ c.exit, exit < k :=
  hc.alone k (h.above _ hk) (.inr ⟨next, value, h.sourced k _ hk⟩)

/-- A switch in one piece takes nothing behind its exit. -/
theorem Opened.le_exit {after : Block} (h : Opened code c after) (hc : Undivided code c)
    {exit : UInt32} (hexit : exit ∈ c.exit) :
    ∀ x ∈ (switchExtent false after).1, x.offset ≤ exit := by
  obtain ⟨last, hlast, value, hdefault⟩ := hc.linked.exists_default
  obtain ⟨hcases, destination, hjump, -⟩ := hc.leaves exit hexit
  obtain ⟨token, htoken⟩ := h.marks exit (by simp [Chain.marks, Option.mem_def.mp hexit])
    (hc.here_lt_exit hexit)
  obtain rfl : token = .jump destination :=
    Option.some.inj ((h.sourced exit token htoken).symm.trans hjump)
  refine switchExtent_le h.ascending (h.label hc hlast hdefault) htoken (hcases last hlast) ?_
  intro k next v hk
  rcases h.label_cases hc hk with hcase | ⟨exit', hexit', hlt⟩
  · exact .inl (hc.linked.le_default hlast hdefault k hcase)
  · exact .inr (Option.mem_unique hexit hexit' ▸ hlt)

/-- A switch in one piece takes its own labels and no others. -/
theorem Opened.arms_eq {after : Block} (h : Opened code c after) (hc : Undivided code c) :
    (splitArms (switchExtent false after).1).2.map (·.offset) = c.cases := by
  have hown := switchExtent_sublist false after
  refine splitArms_keys_eq (h.ascending.of_keys_sublist (hown.map _)) hc.linked.ascending fun k => ?_
  constructor
  · intro hk
    obtain ⟨next, value, hcase⟩ := hc.linked.case_of_mem hk
    refine ⟨next, value, mem_of_switchExtent h.ascending (h.label hc hk hcase) ?_⟩
    intro d v hd
    rcases h.label_cases hc hd with hmem | ⟨exit, hexit, hlt⟩
    · exact hc.linked.le_default hmem (h.sourced d _ hd) k hk
    · exact UInt32.le_of_lt (UInt32.lt_trans ((hc.leaves exit hexit).1 k hk) hlt)
  · rintro ⟨next, value, hk⟩
    refine (h.label_cases hc (hown.subset hk)).resolve_right ?_
    rintro ⟨exit, hexit, hlt⟩
    exact absurd hlt (UInt32.not_lt.mpr (h.le_exit hc hexit _ hk))

/-- The first label is the statement right behind its switch. -/
theorem Whole.next {front rest : Block} {s : Stmt} (h : Whole c (front ++ ⟨c.here, s⟩ :: rest))
    (hc : Undivided code c) (hlaid : WellLaid code (front ++ ⟨c.here, s⟩ :: rest)) :
    ∃ j next value rest', rest = ⟨j, .plain (.case next value)⟩ :: rest' := by
  have hafter := h.opened hlaid
  obtain ⟨first, hfirst⟩ : ∃ first, c.cases.head? = some first :=
    Option.ne_none_iff_exists'.mp (by simpa using hc.linked.ne_nil)
  have hmem : first ∈ c.cases := List.mem_of_head? hfirst
  obtain ⟨next, value, hcase⟩ := hc.linked.case_of_mem hmem
  have hlabel := hafter.label hc hmem hcase
  refine ⟨first, next, value, ?_⟩
  cases rest with
  | nil => simp at hlabel
  | cons e rest' =>
    have hle := h.opens first hfirst e.offset (by simp) (hafter.above e (by simp))
    rcases List.mem_cons.mp hlabel with rfl | hin
    · exact ⟨rest', rfl⟩
    · exact absurd ((ascending_cons.mp hafter.ascending).1 _ hin) (UInt32.not_lt.mpr hle)

end Opened

section Intact
variable {code : UInt32 → Option Token} {chains : Chain → Prop}

theorem Intact.of_subset {b c : Block} (hb : Intact chains b) (hsub : c ⊆ b)
    (hmarks : ∀ d, chains d → Whole d b → ∀ t, ⟨d.here, .plain t⟩ ∈ c → ∀ m ∈ d.marks, ∀ token,
      ⟨m, .plain token⟩ ∈ b → ⟨m, .plain token⟩ ∈ c) : Intact chains c := by
  intro d hd t ht
  have hwhole := hb d hd t (hsub ht)
  refine ⟨fun m hm => ?_, fun first hfirst k hk => ?_⟩
  · obtain ⟨token, htoken⟩ := hwhole.marks m hm
    exact ⟨token, hmarks d hd hwhole t ht m hm token htoken⟩
  · obtain ⟨e, he, rfl⟩ := mem_keys.mp hk
    exact hwhole.opens first hfirst e.offset (mem_keys.mpr ⟨e, hsub he, rfl⟩)

/-- A stretch that takes all of a switch or nothing of it leaves it in one piece, inside
or outside, when none of what goes with the stretch is a part of the switch. -/
theorem Intact.cut (hcode : ∀ d, chains d → Undivided code d) (front back : Block)
    {pre body post : Block} {low high : UInt32}
    (hb : Intact chains (pre ++ (front ++ (body ++ (back ++ post)))))
    (hcut : Cut code low high) (hpre : ∀ e ∈ pre, e.offset < low)
    (hbody : ∀ e ∈ body, low ≤ e.offset ∧ e.offset < high) (hpost : ∀ e ∈ post, high ≤ e.offset)
    (hgone : ∀ d, chains d → ∀ m ∈ d.marks, ∀ token, ⟨m, .plain token⟩ ∉ front ++ back) :
    Intact chains body ∧ Intact chains (pre ++ post) := by
  have hout : ∀ e ∈ pre ++ post, ¬ (low ≤ e.offset ∧ e.offset < high) := by
    intro e he hin
    rcases List.mem_append.mp he with he | he
    · exact absurd (hpre e he) (UInt32.not_lt.mpr hin.1)
    · exact absurd hin.2 (UInt32.not_lt.mpr (hpost e he))
  have hsplit : ∀ d, chains d → ∀ m ∈ d.marks, ∀ token,
      ⟨m, .plain token⟩ ∈ pre ++ (front ++ (body ++ (back ++ post))) →
      ⟨m, .plain token⟩ ∈ body ∨ ⟨m, .plain token⟩ ∈ pre ++ post := by
    intro d hd m hm token htoken
    have hkept := hgone d hd m hm token
    simp only [List.mem_append] at htoken hkept ⊢
    grind
  constructor
  · refine hb.of_subset (fun e he => by simp [he]) fun d hd _ t ht m hm token htoken => ?_
    have hall := ((hcode d hd).whole low high hcut).resolve_right fun hnone =>
      hnone d.here List.mem_cons_self (hbody _ ht)
    exact (hsplit d hd m hm token htoken).resolve_right fun hin => hout _ hin (hall m hm)
  · refine hb.of_subset (fun e he => ?_) fun d hd _ t ht m hm token htoken => ?_
    · rcases List.mem_append.mp he with he | he <;> simp [he]
    · have hnone := ((hcode d hd).whole low high hcut).resolve_left fun hall =>
        hout _ ht (hall d.here List.mem_cons_self)
      exact (hsplit d hd m hm token htoken).resolve_left fun hin => hnone m hm (hbody _ hin)

/-- A new statement leaves the switches around it in one piece, when it does not come
between one of them and its first label. -/
theorem Intact.insert {pre post : Block} {e : Placed Stmt} (h : Intact chains (pre ++ post))
    (hplain : ∀ token, e.item ≠ .plain token)
    (hopens : ∀ c, chains c → Whole c (pre ++ post) → ∀ first ∈ c.cases.head?,
      c.here < e.offset → first ≤ e.offset) : Intact chains (pre ++ e :: post) := by
  intro c hc token htoken
  have hmem : ⟨c.here, .plain token⟩ ∈ pre ++ post := by
    simp only [List.mem_append, List.mem_cons] at htoken ⊢
    rcases htoken with hpre | rfl | hpost
    · exact .inl hpre
    · exact absurd rfl (hplain token)
    · exact .inr hpost
  have hwhole := h c hc token hmem
  refine ⟨fun m hm => ?_, fun first hfirst k hk => ?_⟩
  · obtain ⟨t, ht⟩ := hwhole.marks m hm
    refine ⟨t, ?_⟩
    simp only [List.mem_append, List.mem_cons] at ht ⊢
    exact ht.imp_right .inr
  · simp only [keys_append, keys_cons, List.mem_append, List.mem_cons] at hk
    rcases hk with hk | rfl | hk
    · exact hwhole.opens first hfirst k (by simp [hk])
    · exact hopens c hc hwhole first hfirst
    · exact hwhole.opens first hfirst k (by simp [hk])

/-- No switch in one piece is left in a block to which no rule applies. -/
theorem Intact.clear (hcode : ∀ d, chains d → Undivided code d) {b : Block}
    (h : Intact chains b) (hlaid : WellLaid code b) (hidle : Idle b) : Clear chains b := by
  intro c hc token htoken
  obtain ⟨front, rest, rfl⟩ := List.append_of_mem htoken
  obtain ⟨subject, hswitch⟩ := (hcode c hc).switch
  have hhere := hlaid.plain c.here token htoken
  obtain rfl : token = .switch subject := Option.some.inj (hhere.symm.trans hswitch)
  obtain ⟨j, next, value, rest', rfl⟩ := (h c hc _ htoken).next (hcode c hc) hlaid
  exact hidle.switch rfl

end Intact

end Rule

end ScriptLift
