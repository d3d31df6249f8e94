import Mathlib.Data.List.Basic
import ScriptLift.Script.Regroup

/- Flat code: the block of a list of instructions.

   `Block.ofInstructions` puts the instructions in the order of their offsets and
   keeps the last of several at one offset. Its block is ascending, holds only
   plain instructions of the list, and has an entry at exactly the offsets of the
   list; `Block.tokenAt` reads the instruction at an offset back from it. -/
namespace ScriptLift

namespace Block

/-- The offsets under which the statements of a block stand. -/
def keys (block : Block) : List UInt32 := block.map (·.offset)

/-- The statements stand at strictly increasing offsets. -/
def Ascending (block : Block) : Prop := block.keys.Pairwise (· < ·)

/-- Every statement is a plain instruction. -/
def Flat (block : Block) : Prop := ∀ e ∈ block, ∃ token, e.item = .plain token

/-- The instruction at an offset. -/
def tokenAt (block : Block) (offset : UInt32) : Option Token :=
  block.findSome? fun e =>
    match e.item with
    | .plain token => if e.offset = offset then some token else none
    | _ => none

@[simp] theorem keys_nil : keys [] = [] := rfl

@[simp] theorem keys_cons (e : Placed Stmt) (rest : Block) :
    keys (e :: rest) = e.offset :: keys rest := rfl

@[simp] theorem keys_append (a b : Block) : keys (a ++ b) = keys a ++ keys b := by simp [keys]

theorem mem_keys {block : Block} {k : UInt32} : k ∈ keys block ↔ ∃ e ∈ block, e.offset = k := by
  simp [keys]

theorem ascending_cons {e : Placed Stmt} {rest : Block} :
    Ascending (e :: rest) ↔ (∀ x ∈ rest, e.offset < x.offset) ∧ Ascending rest := by
  simp [Ascending, mem_keys]

theorem ascending_append {a b : Block} :
    Ascending (a ++ b) ↔
      Ascending a ∧ Ascending b ∧ ∀ x ∈ a, ∀ y ∈ b, x.offset < y.offset := by
  simp [Ascending, List.pairwise_append, mem_keys]

theorem Ascending.of_keys_sublist {b c : Block} (h : Ascending b) (hc : (keys c).Sublist (keys b)) :
    Ascending c :=
  List.Pairwise.sublist hc h

theorem Ascending.lt_of_last {block : Block} (h : Ascending block) {limit : UInt32}
    (hlast : ∀ e ∈ block.getLast?, e.offset < limit) : ∀ e ∈ block, e.offset < limit := by
  intro e he
  rcases List.eq_nil_or_concat block with rfl | ⟨front, last, rfl⟩
  · simp at he
  · have hlimit := hlast last (by simp)
    rw [List.concat_eq_append] at h he
    obtain ⟨-, -, hlt⟩ := ascending_append.mp h
    rcases List.mem_append.mp he with he | he
    · exact UInt32.lt_trans (hlt e he last (by simp)) hlimit
    · obtain rfl : e = last := by simpa using he
      exact hlimit

theorem Ascending.le_of_head {block : Block} (h : Ascending block) {limit : UInt32}
    (hhead : ∀ e ∈ block.head?, limit ≤ e.offset) : ∀ e ∈ block, limit ≤ e.offset := by
  intro e he
  cases block with
  | nil => simp at he
  | cons first rest =>
    have hfirst := hhead first (by simp)
    rcases List.mem_cons.mp he with rfl | he
    · exact hfirst
    · exact UInt32.le_trans hfirst (UInt32.le_of_lt ((ascending_cons.mp h).1 e he))

/-- The first statement at or after an offset of the block is the one there. -/
theorem Ascending.onward_of_mem_keys {block : Block} (h : Ascending block) {k : UInt32}
    (hk : k ∈ keys block) : ∃ s rest, Rule.onward k block = ⟨k, s⟩ :: rest := by
  induction block with
  | nil => simp at hk
  | cons e rest ih =>
    obtain ⟨hlt, hrest⟩ := ascending_cons.mp h
    unfold Rule.onward
    rw [List.dropWhile_cons]
    split
    · next hek =>
      have hne : k ≠ e.offset := by
        rintro rfl
        simp at hek
      exact ih hrest (by simpa [hne] using hk)
    · next hek =>
      have hle : k ≤ e.offset := by simpa using hek
      rcases List.mem_cons.mp hk with rfl | hk
      · exact ⟨e.item, rest, rfl⟩
      · obtain ⟨x, hx, hxk⟩ := mem_keys.mp hk
        exact absurd (hlt x hx) (by rw [hxk]; exact UInt32.not_lt.mpr hle)

/-- The offsets of flat code are the offsets of its instructions. -/
theorem Flat.offsets_eq {block : Block} (h : Flat block) : offsets block = keys block := by
  induction block with
  | nil => rfl
  | cons e rest ih =>
    obtain ⟨k, s⟩ := e
    obtain ⟨token, rfl⟩ := h ⟨k, s⟩ (by simp)
    have hrest : Flat rest := fun x hx => h x (by simp [hx])
    simp [Block.offsets, Stmt.offsets, ih hrest]

theorem tokenAt_of_mem {block : Block} (h : Ascending block) {k : UInt32} {token : Token}
    (hm : ⟨k, .plain token⟩ ∈ block) : block.tokenAt k = some token := by
  induction block with
  | nil => simp at hm
  | cons e rest ih =>
    obtain ⟨hlt, hrest⟩ := ascending_cons.mp h
    rcases List.mem_cons.mp hm with rfl | hm
    · simp [tokenAt]
    · have hne : e.offset ≠ k := fun hek => UInt32.lt_irrefl k (by simpa [hek] using hlt _ hm)
      have ih := ih hrest hm
      unfold tokenAt at ih ⊢
      rw [List.findSome?_cons]
      split
      · next t ht =>
        split at ht <;> simp [hne] at ht
      · exact ih

theorem mem_of_tokenAt {block : Block} {k : UInt32} {token : Token}
    (h : block.tokenAt k = some token) : ⟨k, .plain token⟩ ∈ block := by
  obtain ⟨⟨here, s⟩, he, htoken⟩ := List.exists_of_findSome?_eq_some h
  split at htoken
  · split at htoken
    · next hitem hk =>
      simp only at hitem hk
      subst hitem hk
      simpa [← Option.some.inj htoken] using he
    · simp at htoken
  · simp at htoken

/-! Insertion. -/

theorem mem_insert {offset : UInt32} {s : Stmt} {block : Block} {x : Placed Stmt}
    (h : x ∈ insert offset s block) : x = ⟨offset, s⟩ ∨ x ∈ block := by
  induction block with
  | nil => simpa [insert] using h
  | cons e rest ih =>
    unfold insert at h
    split at h
    · simpa using h
    · split at h
      · rcases List.mem_cons.mp h with rfl | h
        · exact .inl rfl
        · exact .inr (by simp [h])
      · rcases List.mem_cons.mp h with rfl | h
        · exact .inr (by simp)
        · rcases ih h with rfl | h
          · exact .inl rfl
          · exact .inr (by simp [h])

theorem ascending_insert (offset : UInt32) (s : Stmt) {block : Block} (h : Ascending block) :
    Ascending (insert offset s block) := by
  induction block with
  | nil => simp [insert, Ascending]
  | cons e rest ih =>
    obtain ⟨hlt, hrest⟩ := ascending_cons.mp h
    unfold insert
    split
    · next hoe =>
      refine ascending_cons.mpr ⟨fun x hx => ?_, h⟩
      rcases List.mem_cons.mp hx with rfl | hx
      · exact hoe
      · exact UInt32.lt_trans hoe (hlt x hx)
    · next hoe =>
      split
      · next heq => exact ascending_cons.mpr ⟨fun x hx => by simpa [heq] using hlt x hx, hrest⟩
      · next hne =>
        refine ascending_cons.mpr ⟨fun x hx => ?_, ih hrest⟩
        rcases mem_insert hx with rfl | hx
        · exact UInt32.lt_of_le_of_ne (UInt32.not_lt.mp hoe) (Ne.symm hne)
        · exact hlt x hx

theorem mem_keys_insert {offset k : UInt32} {s : Stmt} {block : Block} :
    k ∈ keys (insert offset s block) ↔ k = offset ∨ k ∈ keys block := by
  induction block with
  | nil => simp [insert]
  | cons e rest ih =>
    unfold insert
    split
    · simp
    · split
      · next heq => simp [heq]
      · simp only [keys_cons, List.mem_cons, ih]
        exact or_left_comm

/-! The code of a list of instructions. -/

/-- What holds of every insertion holds of the code of a list. -/
theorem ofInstructions_induction {motive : Block → Prop} (code : List Instruction)
    (nil : motive []) (insert : ∀ i ∈ code, ∀ block, motive block →
      motive (Block.insert i.offset (.plain i.item) block)) :
    motive (ofInstructions code) := by
  suffices h : ∀ block, motive block →
      motive (code.foldl (fun block i => Block.insert i.offset (.plain i.item) block) block) from
    h [] nil
  induction code with
  | nil => exact fun block h => h
  | cons i rest ih =>
    intro block h
    exact ih (fun j hj => insert j (by simp [hj])) _ (insert i (by simp) block h)

theorem ascending_ofInstructions (code : List Instruction) : Ascending (ofInstructions code) :=
  ofInstructions_induction code (by simp [Ascending])
    (fun _ _ _ h => ascending_insert _ _ h)

theorem mem_ofInstructions {code : List Instruction} {e : Placed Stmt}
    (h : e ∈ ofInstructions code) : ∃ i ∈ code, e = ⟨i.offset, .plain i.item⟩ := by
  refine ofInstructions_induction
    (motive := fun block => ∀ e ∈ block, ∃ i ∈ code, e = ⟨i.offset, .plain i.item⟩)
    code (by simp) ?_ e h
  intro i hi block ih x hx
  rcases mem_insert hx with rfl | hx
  · exact ⟨i, hi, rfl⟩
  · exact ih x hx

theorem mem_code_of_tokenAt {code : List Instruction} {k : UInt32} {token : Token}
    (h : tokenAt (ofInstructions code) k = some token) : ⟨k, token⟩ ∈ code := by
  obtain ⟨i, hi, heq⟩ := mem_ofInstructions (mem_of_tokenAt h)
  obtain ⟨rfl, rfl⟩ : k = i.offset ∧ token = i.item := by simpa using heq
  exact hi

theorem flat_ofInstructions (code : List Instruction) : Flat (ofInstructions code) := by
  intro e he
  obtain ⟨i, -, rfl⟩ := mem_ofInstructions he
  exact ⟨i.item, rfl⟩

/-- Only the return at the end goes. -/
theorem dropReturn_subset (block : Block) : dropReturn block ⊆ block := by
  unfold dropReturn
  split
  · split
    · exact List.dropLast_subset _
    · exact List.Subset.refl _
  · exact List.Subset.refl _

theorem mem_keys_ofInstructions {code : List Instruction} {k : UInt32} :
    k ∈ keys (ofInstructions code) ↔ ∃ i ∈ code, i.offset = k := by
  suffices h : ∀ block : Block, k ∈ keys (code.foldl
      (fun block i => insert i.offset (.plain i.item) block) block) ↔
      k ∈ keys block ∨ ∃ i ∈ code, i.offset = k by
    simpa [ofInstructions] using h []
  induction code with
  | nil => simp
  | cons i rest ih =>
    intro block
    rw [List.foldl_cons, ih, mem_keys_insert]
    simp only [List.exists_mem_cons_iff]
    rw [eq_comm, or_assoc, or_left_comm]

end Block

end ScriptLift
