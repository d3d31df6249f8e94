/- Tables keyed by name. The entries are kept in the order of their names, so
   equal tables have equal entries and "the first entry" has a meaning. -/
namespace ScriptLift

/-- Entries with strictly increasing names. -/
structure Table (α : Type) where
  entries : List (String × α)
  sorted : entries.Pairwise (fun a b => a.1 < b.1)

namespace Table

variable {α : Type}

def empty : Table α := ⟨[], .nil⟩

/-- Puts a value under a name, in place of the one that was there. -/
def insertEntry (name : String) (value : α) : List (String × α) → List (String × α)
  | [] => [(name, value)]
  | (n, v) :: rest =>
    if name < n then (name, value) :: (n, v) :: rest
    else if n < name then (n, v) :: insertEntry name value rest
    else (name, value) :: rest

theorem mem_insertEntry {name : String} {value : α} {l : List (String × α)} {e : String × α}
    (h : e ∈ insertEntry name value l) : e.1 = name ∨ e ∈ l := by
  induction l with
  | nil => simp_all [insertEntry]
  | cons a rest ih =>
    simp only [insertEntry] at h
    split at h
    · rcases List.mem_cons.1 h with rfl | h
      · exact .inl rfl
      · exact .inr h
    · split at h
      · rcases List.mem_cons.1 h with rfl | h
        · exact .inr (List.mem_cons_self ..)
        · exact (ih h).imp id (List.mem_cons_of_mem _)
      · rcases List.mem_cons.1 h with rfl | h
        · exact .inl rfl
        · exact .inr (List.mem_cons_of_mem _ h)

theorem sorted_insertEntry (name : String) (value : α) {l : List (String × α)}
    (h : l.Pairwise (fun a b => a.1 < b.1)) :
    (insertEntry name value l).Pairwise (fun a b => a.1 < b.1) := by
  induction l with
  | nil => simp [insertEntry]
  | cons a rest ih =>
    obtain ⟨ha, hrest⟩ := List.pairwise_cons.1 h
    simp only [insertEntry]
    split
    · rename_i lt
      refine List.pairwise_cons.2 ⟨fun e he => ?_, h⟩
      rcases List.mem_cons.1 he with rfl | he
      · exact lt
      · exact String.lt_trans lt (ha e he)
    · split
      · rename_i lt
        refine List.pairwise_cons.2 ⟨fun e he => ?_, ih hrest⟩
        rcases mem_insertEntry he with eq | he
        · exact eq ▸ lt
        · exact ha e he
      · rename_i nlt ngt
        have eq : a.1 = name := String.le_antisymm (String.not_lt.1 nlt) (String.not_lt.1 ngt)
        exact List.pairwise_cons.2 ⟨fun e he => eq ▸ ha e he, hrest⟩

def insert (t : Table α) (name : String) (value : α) : Table α :=
  ⟨insertEntry name value t.entries, sorted_insertEntry name value t.sorted⟩

/-- The table of these entries; of several under one name the last counts. -/
def ofList (l : List (String × α)) : Table α :=
  l.foldl (fun t e => t.insert e.1 e.2) empty

def get? (t : Table α) (name : String) : Option α := t.entries.lookup name

def size (t : Table α) : Nat := t.entries.length

theorem lookup_eq_some_iff {l : List (String × α)} (h : l.Pairwise (fun a b => a.1 < b.1)) {name : String}
    {value : α} : l.lookup name = some value ↔ (name, value) ∈ l := by
  induction l with
  | nil => simp
  | cons e rest ih =>
    obtain ⟨hfirst, hrest⟩ := List.pairwise_cons.1 h
    obtain ⟨n, v⟩ := e
    by_cases hn : name = n
    · subst hn
      have hlater : (name, value) ∉ rest := fun hmem => String.lt_irrefl name (hfirst _ hmem)
      simp [hlater, eq_comm]
    · have hne : (name == n) = false := beq_eq_false_iff_ne.2 hn
      simp [List.lookup_cons, hne, hn, ih hrest]

/-- A name is looked up exactly, and has at most one value. -/
theorem get?_eq_some_iff {t : Table α} {name : String} {value : α} :
    t.get? name = some value ↔ (name, value) ∈ t.entries := lookup_eq_some_iff t.sorted

end Table

instance {α : Type} : Inhabited (Table α) := ⟨.empty⟩

end ScriptLift
