import ScriptLift.Package.Lookup
import ScriptLift.Proofs.PathBytes

/- Which enum is found.

   A declared enum has a place: the position of its class in the directory, the position of a
   member in the class, and in a struct or a state again the position of a member
   (`Package.enumAt?`). Places are compared as numbers are, from the front, so an enum comes
   before another when depth-first reading comes to it earlier. The search goes through lists
   that have all enums in the order of their places, or of their keys (`Enumerates`), and so
   finds the foremost one whose path ends in the name (`findEnum_eq_iff`). -/
namespace ScriptLift

/-! Lists in the order of keys. -/

section Keys
variable {κ γ δ : Type} [LT κ]

/-- The list has the values of a partial function in the order of their keys. -/
structure Enumerates (f : κ → Option γ) (l : List (κ × γ)) : Prop where
  ordered : l.Pairwise fun a b => a.1 < b.1
  mem_iff : ∀ {k x}, (k, x) ∈ l ↔ f k = some x

/-- The value with the property that has the least key. -/
def Foremost (f : κ → Option γ) (P : γ → Prop) (x : γ) : Prop :=
  ∃ k, f k = some x ∧ P x ∧ ∀ k' y, f k' = some y → P y → ¬ k' < k

namespace Enumerates

variable {f : κ → Option γ} {l : List (κ × γ)}

theorem empty : Enumerates (fun _ : κ => (none : Option γ)) [] := ⟨.nil, by simp⟩

theorem map (h : Enumerates f l) (g : γ → δ) :
    Enumerates (fun k => (f k).map g) (l.map fun e => (e.1, g e.2)) := by
  refine ⟨List.pairwise_map.mpr h.ordered, fun {k y} => ?_⟩
  simp only [Option.map_eq_some_iff, ← h.mem_iff, List.mem_map, Prod.mk.injEq]
  constructor
  · rintro ⟨⟨k', x⟩, hmem, rfl, hy⟩
    exact ⟨x, hmem, hy⟩
  · rintro ⟨x, hmem, hy⟩
    exact ⟨(k, x), hmem, rfl, hy⟩

/-- The first of the values that passes a test is the foremost one. -/
theorem find?_eq_some_iff [Std.Asymm (α := κ) (· < ·)] (h : Enumerates f l) {q : γ → Bool} {x : γ} :
    (l.map Prod.snd).find? q = some x ↔ Foremost f (q · = true) x := by
  rw [List.find?_map, Option.map_eq_some_iff]
  constructor
  · rintro ⟨⟨k, x⟩, hfind, rfl⟩
    obtain ⟨hx, before, after, rfl, hbefore⟩ := List.find?_eq_some_iff_append.mp hfind
    have hordered := (List.pairwise_append.mp h.ordered).2.1
    refine ⟨k, h.mem_iff.mp (by simp), hx, fun k' y hy hq => ?_⟩
    -- What passes is the first match or stands behind it, and there the keys are greater.
    rcases List.mem_append.mp (h.mem_iff.mpr hy) with hmem | hmem
    · simpa [hq] using hbefore _ hmem
    · rcases List.mem_cons.mp hmem with heq | hmem
      · cases heq
        exact Std.Irrefl.irrefl k
      · exact Std.Asymm.asymm _ _ (List.rel_of_pairwise_cons hordered hmem)
  · rintro ⟨k, hx, hq, hleast⟩
    have hmem := h.mem_iff.mpr hx
    cases hfind : l.find? (q ∘ Prod.snd) with
    | none => exact absurd hq (List.find?_eq_none.mp hfind _ hmem)
    | some found =>
      obtain ⟨hy, before, after, rfl, hbefore⟩ := List.find?_eq_some_iff_append.mp hfind
      have hordered := (List.pairwise_append.mp h.ordered).2.1
      rcases List.mem_append.mp hmem with hmem | hmem
      · simpa [hq] using hbefore _ hmem
      · rcases List.mem_cons.mp hmem with heq | hmem
        · exact ⟨found, rfl, heq ▸ rfl⟩
        · exact absurd (List.rel_of_pairwise_cons hordered hmem)
            (hleast found.1 found.2 (h.mem_iff.mp (by simp)) hy)

theorem find?_eq_none_iff (h : Enumerates f l) {q : γ → Bool} :
    (l.map Prod.snd).find? q = none ↔ ∀ k x, f k = some x → ¬ q x = true := by
  simp only [List.find?_eq_none, ← h.mem_iff, List.forall_mem_map, Prod.forall]

end Enumerates

/-- The entries of a table are in the order of their names. -/
theorem Table.enumerates (t : Table γ) :
    Enumerates (fun name => (t.get? name).map (name, ·)) (t.entries.map fun e => (e.1, e)) := by
  refine ⟨List.pairwise_map.mpr t.sorted, fun {k x} => ?_⟩
  simp only [Option.map_eq_some_iff, Table.get?_eq_some_iff, List.mem_map, Prod.mk.injEq]
  constructor
  · rintro ⟨⟨name, value⟩, hmem, rfl, rfl⟩
    exact ⟨value, hmem, rfl⟩
  · rintro ⟨value, hmem, rfl⟩
    exact ⟨(k, value), hmem, rfl, rfl⟩

end Keys

/-! Places in a list of things that have places in them. -/

section Places
variable {α γ : Type} {f : α → List Nat → Option γ}

/-- A position in the list, and a place in what stands there. -/
def atPosition (f : α → List Nat → Option γ) (l : List α) : List Nat → Option γ
  | [] => none
  | i :: place => l[i]?.bind (f · place)

/-- The same place with one more in front of the list. -/
def nextPlace : List Nat → List Nat
  | [] => []
  | i :: place => (i + 1) :: place

namespace Enumerates

theorem nil : Enumerates (atPosition f []) [] :=
  ⟨.nil, fun {k} => by cases k <;> simp [atPosition]⟩

variable {a : α} {l : List α} {xs ys : List (List Nat × γ)}

/-- A place in a list has a position in it. -/
theorem exists_position (hy : Enumerates (atPosition f l) ys) {e : List Nat × γ} (he : e ∈ ys) :
    ∃ i place, e.1 = i :: place := by
  obtain ⟨k, x⟩ := e
  cases k with
  | nil => cases hy.mem_iff.mp he
  | cons i place => exact ⟨i, place, rfl⟩

theorem mem_front_iff (hx : Enumerates (f a) xs) {k : List Nat} {x : γ} :
    (k, x) ∈ xs.map (fun e => (0 :: e.1, e.2)) ↔ ∃ place, k = 0 :: place ∧ f a place = some x := by
  simp only [← hx.mem_iff, List.mem_map]
  constructor
  · rintro ⟨⟨place, y⟩, he, heq⟩
    cases heq
    exact ⟨place, rfl, he⟩
  · rintro ⟨place, rfl, he⟩
    exact ⟨(place, x), he, rfl⟩

theorem mem_behind_iff (hy : Enumerates (atPosition f l) ys) {k : List Nat} {x : γ} :
    (k, x) ∈ ys.map (fun e => (nextPlace e.1, e.2)) ↔
      ∃ i place, k = (i + 1) :: place ∧ atPosition f l (i :: place) = some x := by
  simp only [← hy.mem_iff, List.mem_map]
  constructor
  · rintro ⟨⟨k, y⟩, he, heq⟩
    obtain ⟨i, place, rfl⟩ : ∃ i place, k = i :: place := hy.exists_position he
    cases heq
    exact ⟨i, place, rfl, he⟩
  · rintro ⟨i, place, rfl, he⟩
    exact ⟨(i :: place, x), he, rfl⟩

/-- Of a list, first comes what is in its first thing, in order, then what is behind it. -/
theorem cons (hx : Enumerates (f a) xs) (hy : Enumerates (atPosition f l) ys) :
    Enumerates (atPosition f (a :: l))
      (xs.map (fun e => (0 :: e.1, e.2)) ++ ys.map fun e => (nextPlace e.1, e.2)) := by
  constructor
  · refine List.pairwise_append.mpr ⟨?_, ?_, ?_⟩
    · exact List.pairwise_map.mpr (hx.ordered.imp List.cons_lt_cons_self.mpr)
    · refine List.pairwise_map.mpr (hy.ordered.imp_of_mem fun {a b} ha hb hlt => ?_)
      obtain ⟨i, place, hi⟩ := hy.exists_position ha
      obtain ⟨j, place', hj⟩ := hy.exists_position hb
      rw [hi, hj, List.cons_lt_cons_iff] at hlt
      rw [hi, hj, nextPlace, nextPlace, List.cons_lt_cons_iff]
      simpa using hlt
    · rintro ⟨k, x⟩ hfront ⟨k', y⟩ hbehind
      obtain ⟨place, rfl, -⟩ := hx.mem_front_iff.mp hfront
      obtain ⟨i, place', rfl, -⟩ := hy.mem_behind_iff.mp hbehind
      exact List.cons_lt_cons_iff.mpr (.inl (Nat.succ_pos i))
  · intro k x
    rw [List.mem_append, hx.mem_front_iff, hy.mem_behind_iff]
    match k with
    | [] => simp [atPosition]
    | 0 :: place => simp [atPosition]
    | (i + 1) :: place => simp [atPosition]

end Enumerates

end Places

/-! Places of enums. -/

/-- The enum at a place in a member, with the names on the way to it. -/
def Member.enumAt? : List Nat → Member → Option (List String × EnumDecl)
  | [], .enum e => some ([e.name], e)
  | i :: place, .struct s | i :: place, .state s =>
    (s.members[i]?.bind (enumAt? place)).map fun found => (s.name :: found.1, found.2)
  | _, _ => none

/-- The enum at a place among the members of something of this name. -/
def Member.enumWithin? (name : String) (members : List Member) (place : List Nat) :
    Option (List String × EnumDecl) :=
  (atPosition (fun m place => m.enumAt? place) members place).map fun found => (name :: found.1, found.2)

/-- The enum at a place in an export. -/
def Export.enumAt? (x : Export) (place : List Nat) : Option (List String × EnumDecl) :=
  match x.payload with
  | some (.classDecl c) => Member.enumWithin? c.name c.members place
  | _ => none

/-- The enum at a place in the directory, with its path: the names of the package, the class,
the structs and states on the way, and the enum. -/
def Package.enumAt? (p : Package) (place : List Nat) : Option (String × EnumDecl) :=
  (atPosition Export.enumAt? p.exports place).map fun found => (".".intercalate (p.name :: found.1), found.2)

/-- The enum of another package under a key, with the key. -/
def Package.enumUnder? (p : Package) (key : String) : Option (String × EnumDecl) :=
  (p.enums.get? key).map (key, ·)

theorem Member.enumAt?_struct (s : Scope) :
    (fun place => (Member.struct s).enumAt? place) = enumWithin? s.name s.members :=
  funext fun place => by cases place <;> rfl

theorem Member.enumAt?_state (s : Scope) :
    (fun place => (Member.state s).enumAt? place) = enumWithin? s.name s.members :=
  funext fun place => by cases place <;> rfl

/-- A path goes on with the names behind its last one. -/
theorem intercalate_extendPath (path name : String) (names : List String) :
    ".".intercalate (extendPath path name :: names) = ".".intercalate (path :: name :: names) := by
  cases names with
  | nil => simp only [String.intercalate_singleton, String.intercalate_cons_cons, extendPath]
  | cons next names => simp only [String.intercalate_cons_cons, extendPath, String.append_assoc]

/-- The enums at all places, in the order of places, with paths that go on from `path`. -/
def InPlaces (at? : List Nat → Option (List String × EnumDecl)) (path : String)
    (enums : List (String × EnumDecl)) : Prop :=
  ∃ l, Enumerates at? l ∧ enums = l.map fun e => (".".intercalate (path :: e.2.1), e.2.2)

namespace InPlaces

theorem empty (path : String) : InPlaces (fun _ => none) path [] := ⟨[], .empty, rfl⟩

theorem nil {α : Type} (f : α → List Nat → Option (List String × EnumDecl)) (path : String) :
    InPlaces (atPosition f []) path [] := ⟨[], .nil, rfl⟩

/-- What is collected from a list: first what its first thing has, then the rest. -/
theorem cons {α : Type} {f : α → List Nat → Option (List String × EnumDecl)} {a : α} {l : List α}
    {path : String} {here later : List (String × EnumDecl)} (hhere : InPlaces (f a) path here)
    (hlater : InPlaces (atPosition f l) path later) : InPlaces (atPosition f (a :: l)) path (here ++ later) := by
  obtain ⟨xs, hx, rfl⟩ := hhere
  obtain ⟨ys, hy, rfl⟩ := hlater
  refine ⟨_, hx.cons hy, ?_⟩
  rw [List.map_append, List.map_map, List.map_map]
  rfl

/-- What is collected from the members of something has its name on the paths. -/
theorem within {name path : String} {members : List Member} {enums : List (String × EnumDecl)}
    (h : InPlaces (atPosition (fun m place => m.enumAt? place) members) (extendPath path name) enums) :
    InPlaces (Member.enumWithin? name members) path enums := by
  obtain ⟨l, hl, rfl⟩ := h
  refine ⟨_, hl.map _, ?_⟩
  simp only [List.map_map, Function.comp_def, intercalate_extendPath]

end InPlaces

namespace Package

mutual

theorem memberEnums_inPlaces (path : String) : ∀ m : Member,
    InPlaces (fun place => m.enumAt? place) path (memberEnums path m)
  | .enum e => by
    refine ⟨[([], [e.name], e)], ⟨List.pairwise_singleton .., fun {k x} => ?_⟩, ?_⟩
    · cases k <;> simp [Member.enumAt?, eq_comm]
    · rw [memberEnums, List.map_singleton, ← intercalate_extendPath, String.intercalate_singleton]
  | .struct s => by
    rw [Member.enumAt?_struct, memberEnums]
    exact scopeEnums_inPlaces path s
  | .state s => by
    rw [Member.enumAt?_state, memberEnums]
    exact scopeEnums_inPlaces path s
  | .const _ | .property _ | .function _ => by
    refine ⟨[], ⟨.nil, fun {k x} => ?_⟩, by simp [memberEnums]⟩
    cases k <;> simp [Member.enumAt?]

theorem scopeEnums_inPlaces (path : String) : ∀ s : Scope,
    InPlaces (Member.enumWithin? s.name s.members) path (scopeEnums path s)
  | ⟨name, _, members⟩ => by
    rw [scopeEnums]
    exact (membersEnums_inPlaces (extendPath path name) members).within

theorem membersEnums_inPlaces (path : String) : ∀ ms : List Member,
    InPlaces (atPosition (fun m place => m.enumAt? place) ms) path (membersEnums path ms)
  | [] => by
    rw [membersEnums]
    exact .nil _ path
  | m :: ms => by
    rw [membersEnums]
    exact (memberEnums_inPlaces path m).cons (membersEnums_inPlaces path ms)

end

/-- The enums of an export: those of its class, if it is one. -/
def exportEnums (path : String) (x : Export) : List (String × EnumDecl) :=
  match x.payload with
  | some (.classDecl c) => membersEnums (extendPath path c.name) c.members
  | _ => []

theorem exportEnums_inPlaces (path : String) (x : Export) : InPlaces x.enumAt? path (exportEnums path x) := by
  unfold Export.enumAt? exportEnums
  split
  · exact (membersEnums_inPlaces _ _).within
  · exact .empty path

theorem declaredEnums_eq (p : Package) : p.declaredEnums = p.exports.flatMap (exportEnums p.name) := by
  rw [declaredEnums, classes]
  induction p.exports with
  | nil => rfl
  | cons x rest ih =>
    rw [List.flatMap_cons, ← ih, exportEnums]
    match hpayload : x.payload with
    | some (.classDecl c) => simp [hpayload]
    | some (.object _) | some (.polygons _) | none => simp [hpayload]

theorem declaredEnums_inPlaces (p : Package) :
    InPlaces (atPosition Export.enumAt? p.exports) p.name p.declaredEnums := by
  rw [declaredEnums_eq]
  induction p.exports with
  | nil => exact .nil _ p.name
  | cons x rest ih => exact (exportEnums_inPlaces p.name x).cons ih

/-! The search. -/

/-- The declared enums are searched in the order of their places. -/
theorem declaredEnums_enumerates (p : Package) :
    ∃ l, Enumerates p.enumAt? l ∧ p.declaredEnums = l.map Prod.snd := by
  obtain ⟨l, hl, heq⟩ := p.declaredEnums_inPlaces
  exact ⟨_, hl.map _, by rw [heq, List.map_map]; rfl⟩

/-- The enums of other packages are searched in the order of their keys. -/
theorem entries_enumerates (p : Package) :
    ∃ l, Enumerates p.enumUnder? l ∧ p.enums.entries = l.map Prod.snd :=
  ⟨_, p.enums.enumerates, by rw [List.map_map]; exact (List.map_id _).symm⟩

/-- The first path or key that ends in the name, with its enum. -/
def firstEnding? (p : Package) (name : String) : Option (String × EnumDecl) :=
  (p.declaredEnums ++ p.enums.entries).find? fun found => endsPath found.1 name

theorem findEnum_eq (p : Package) (name : String) : p.findEnum name =
    match p.firstEnding? name with
    | some (_, e) => .ok e
    | none => .error (.notFound .enum name) := rfl

theorem findEnum_eq_ok_iff {p : Package} {name : String} {e : EnumDecl} :
    p.findEnum name = .ok e ↔ ∃ path, p.firstEnding? name = some (path, e) := by
  rw [findEnum_eq]
  cases p.firstEnding? name with
  | none => simp
  | some found => simp [Prod.ext_iff]

theorem findEnum_eq_error_iff {p : Package} {name : String} {error : Error} :
    p.findEnum name = .error error ↔ error = .notFound .enum name ∧ p.firstEnding? name = none := by
  rw [findEnum_eq]
  cases p.firstEnding? name with
  | none => simp [eq_comm]
  | some found => simp

/-- The search for an enum. It gives the foremost declared enum whose path ends in the segments
of the name; where there is none, the enum of another package under the foremost key that does;
and it fails, naming what was looked for, exactly when there is no such key either. On encoded
strings, ending in the segments is ending in the bytes, from the start or from behind a dot. -/
theorem findEnum_eq_iff (p : Package) (name : String) :
    (∀ e, p.findEnum name = .ok e ↔
      (∃ path, Foremost p.enumAt? (fun found => EndsSegments found.1 name) (path, e)) ∨
      (∀ place found, p.enumAt? place = some found → ¬ EndsSegments found.1 name) ∧
        ∃ key, Foremost p.enumUnder? (fun found => EndsSegments found.1 name) (key, e)) ∧
    (∀ error, p.findEnum name = .error error ↔
      error = .notFound .enum name ∧
      (∀ place found, p.enumAt? place = some found → ¬ EndsSegments found.1 name) ∧
      ∀ key found, p.enumUnder? key = some found → ¬ EndsSegments found.1 name) ∧
    ∀ path, EndsSegments path name ↔ ∃ start, EndsBytes path name start := by
  obtain ⟨placed, hplaced, hdeclared⟩ := p.declaredEnums_enumerates
  obtain ⟨keyed, hkeyed, hentries⟩ := p.entries_enumerates
  refine ⟨fun e => ?_, fun error => ?_, fun path => endsSegments_iff_bytes⟩
  · simp only [findEnum_eq_ok_iff, firstEnding?, List.find?_append, hdeclared, hentries, Option.or_eq_some_iff,
      hplaced.find?_eq_some_iff, hplaced.find?_eq_none_iff, hkeyed.find?_eq_some_iff, endsPath_iff_segments,
      exists_or, exists_and_left]
  · simp only [findEnum_eq_error_iff, firstEnding?, List.find?_append, hdeclared, hentries,
      Option.or_eq_none_iff, hplaced.find?_eq_none_iff, hkeyed.find?_eq_none_iff, endsPath_iff_segments]

/-- A class with an enum in a struct, and one of the same name behind the struct. -/
def twoModes : Package :=
  { Package.named "Maps" with
    exports := [⟨"Weapon", ⟨0⟩, ⟨0⟩, ⟨0⟩, ⟨0⟩, some (.classDecl ⟨"Weapon", none,
      [.struct ⟨"Slot", none, [.enum ⟨"EMode", ["Inner"]⟩]⟩, .enum ⟨"EMode", ["Outer"]⟩], []⟩)⟩] }

example : (twoModes.findEnum "EMode").toOption = some ⟨"EMode", ["Inner"]⟩ ∧
    (twoModes.findEnum "weapon.emode").toOption = some ⟨"EMode", ["Outer"]⟩ ∧
    (twoModes.findEnum "apon.EMode").toOption = none := by decide +kernel

end Package

end ScriptLift
