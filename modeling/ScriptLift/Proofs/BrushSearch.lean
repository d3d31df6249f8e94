import ScriptLift.Proofs.DirectoryErrors

/- Where a brush finds its polygons.

   The bytes behind the settings of a brush are read as a reference at every position but
   the first, from the end. What is read at a position may fail to be a reference, lead
   nowhere, to an import, to an object of another class, or to one that holds no polygons;
   each of these only passes the position over (`polygonsFrom_eq_some`). So the list that
   is found is the one at the greatest position with one (`findPolygons_eq_some`), and a
   brush is refused only where no position behind the first has one. -/
namespace ScriptLift

namespace Package

variable (p : Package)

/-- The bytes refer to a polygon list at a position. -/
def RefersTo (bytes : List UInt8) (position : Nat) (list : List Polygon) : Prop :=
  ∃ index e name, CompactIndex.readAt bytes position = some index ∧
    p.entry ⟨index⟩ = .ok (some (.exported e)) ∧ p.classFullName e = .ok name ∧
    sameName name polygonClass = true ∧ e.payload = some (.polygons list)

variable {p} {bytes : List UInt8} {position : Nat} {list : List Polygon}

theorem polygonsAt_eq_some {r : Reference} : p.polygonsAt r = some list ↔
    ∃ e name, p.entry r = .ok (some (.exported e)) ∧ p.classFullName e = .ok name ∧
      sameName name polygonClass = true ∧ e.payload = some (.polygons list) := by
  unfold polygonsAt
  constructor
  · intro h
    split at h
    · next e hentry =>
      split at h
      · next name hname =>
        split at h
        · next hsame =>
          split at h
          · next found hpayload => exact ⟨e, name, hentry, hname, hsame, hpayload.trans (by rw [Option.some.inj h])⟩
          · simp at h
        · simp at h
      · simp at h
    · simp at h
  · rintro ⟨e, name, hentry, hname, hsame, hpayload⟩
    simp only [hentry, hname, hsame, hpayload, if_true]

theorem polygonsFrom_eq_some : p.polygonsFrom bytes position = some list ↔
    p.RefersTo bytes position list := by
  unfold polygonsFrom RefersTo
  rw [Option.bind_eq_some_iff]
  constructor
  · rintro ⟨index, hread, hlist⟩
    obtain ⟨e, name, h⟩ := polygonsAt_eq_some.mp hlist
    exact ⟨index, e, name, hread, h⟩
  · rintro ⟨index, e, name, hread, h⟩
    exact ⟨index, hread, polygonsAt_eq_some.mpr ⟨e, name, h⟩⟩

theorem polygonsFrom_eq_none : p.polygonsFrom bytes position = none ↔
    ∀ list, ¬ p.RefersTo bytes position list := by
  rw [Option.eq_none_iff_forall_ne_some]
  exact forall_congr' fun list => not_congr polygonsFrom_eq_some

/-! The order of the search. -/

theorem mem_searchPositions {count : Nat} :
    position ∈ searchPositions count ↔ 0 < position ∧ position < count := by
  unfold searchPositions
  rw [List.mem_reverse, List.mem_drop_iff_getElem]
  simp only [List.getElem_range, List.length_range]
  constructor
  · rintro ⟨i, hlt, rfl⟩
    omega
  · rintro ⟨hpos, hlt⟩
    exact ⟨position - 1, by omega, by omega⟩

theorem searchPositions_descending (count : Nat) : (searchPositions count).Pairwise (· > ·) := by
  unfold searchPositions
  rw [List.pairwise_reverse]
  exact List.pairwise_lt_range.drop

/-- The list of a brush is the one that its bytes refer to at the greatest position behind
the first. -/
theorem findPolygons_eq_some : p.findPolygons bytes = some list ↔ ∃ position, 0 < position ∧
    position < bytes.length ∧ p.RefersTo bytes position list ∧
    ∀ later, position < later → later < bytes.length → ∀ other, ¬ p.RefersTo bytes later other := by
  have hdescending := searchPositions_descending bytes.length
  unfold findPolygons
  rw [List.findSome?_eq_some_iff]
  constructor
  · rintro ⟨front, position, back, hsplit, hat, hfront⟩
    obtain ⟨hpos, hlt⟩ := mem_searchPositions.mp (hsplit ▸ List.mem_append_right front List.mem_cons_self)
    refine ⟨position, hpos, hlt, polygonsFrom_eq_some.mp hat, fun later hgt hle => ?_⟩
    -- A later position was tried before.
    have hlater : later ∈ front := by
      have hmem := mem_searchPositions.mpr ⟨Nat.lt_trans hpos hgt, hle⟩
      rw [hsplit] at hmem hdescending
      obtain ⟨-, hback, -⟩ := List.pairwise_append.mp hdescending
      rcases List.mem_append.mp hmem with hmem | hmem
      · exact hmem
      · rcases List.mem_cons.mp hmem with rfl | hmem
        · omega
        · have hlt := List.rel_of_pairwise_cons hback hmem
          omega
    exact polygonsFrom_eq_none.mp (hfront later hlater)
  · rintro ⟨position, hpos, hlt, hat, hnone⟩
    obtain ⟨front, back, hsplit⟩ := List.append_of_mem (mem_searchPositions.mpr ⟨hpos, hlt⟩)
    refine ⟨front, position, back, hsplit, polygonsFrom_eq_some.mpr hat, fun later hmem => ?_⟩
    have hle := (mem_searchPositions.mp (hsplit ▸ List.mem_append_left _ hmem)).2
    rw [hsplit] at hdescending
    have hgt := (List.pairwise_append.mp hdescending).2.2 later hmem position List.mem_cons_self
    exact polygonsFrom_eq_none.mpr (hnone later hgt hle)

theorem findPolygons_eq_none : p.findPolygons bytes = none ↔ ¬ ∃ position list, 0 < position ∧
    position < bytes.length ∧ p.RefersTo bytes position list := by
  unfold findPolygons
  simp only [List.findSome?_eq_none_iff, mem_searchPositions, polygonsFrom_eq_none]
  constructor
  · rintro h ⟨position, list, hpos, hlt, hrefers⟩
    exact h position ⟨hpos, hlt⟩ list hrefers
  · intro h position hposition list hrefers
    exact h ⟨position, list, hposition.1, hposition.2, hrefers⟩

end Package

/-! The block of a brush. -/

/-- The computation does not fail for want of polygons. -/
def Spares {α : Type} (x : Except Error α) : Prop := ∀ object, x ≠ .error (.noPolygons object)

namespace Spares

variable {α β : Type} {x : Except Error α}

theorem pure (a : α) : Spares (Pure.pure a : Except Error α) := fun _ h => by cases h

theorem bind {f : α → Except Error β} (hx : Spares x) (hf : ∀ a, Spares (f a)) : Spares (x >>= f) := by
  intro object h
  cases x with
  | error e =>
    obtain rfl : e = .noPolygons object := Except.error.inj h
    exact hx object rfl
  | ok a => exact hf a object h

end Spares

namespace Package

variable (p : Package)

theorem spares_listText (indent : Nat) (polygons : List Polygon) :
    Spares (Polygon.listText p indent polygons) := by
  intro object h
  cases p.failsWith_listText indent polygons _ h

end Package

/-- The block of a brush that holds these polygons. -/
def Export.brushBlock (p : Package) (e : Export) (indent : Nat) (polygons : List Polygon) :
    Except Error Text := do
  return Text.lit ("Begin Brush Name=" ++ e.name) ++
    Text.lineOf (indent + 1) "Begin PolyList" ++
    (← Polygon.listText p (indent + 2) polygons) ++
    Text.lineOf (indent + 1) "End PolyList" ++
    Text.lineOf indent "End Brush"

/-- The polygons of a brush. A brush is refused exactly where its bytes refer to no polygon
list at any position behind the first; else its block has the polygons of the list at the
greatest such position. -/
theorem Context.exportText_brush (c : Context) (indent : Nat) {r : Reference} {e : Export}
    {o : ObjectInstance} {className : String} (hexport : c.package.exportOf r = .ok e)
    (hclass : c.package.className (.exported e) = .ok className)
    (hbrush : sameName className brushClass = true) (hobject : e.payload = some (.object o)) :
    ((∃ object, c.exportText indent r = .error (.noPolygons object)) ↔
      ¬ ∃ position list, 0 < position ∧ position < o.unread.length ∧
        c.package.RefersTo o.unread position list) ∧
    ∀ position list, 0 < position → position < o.unread.length →
      c.package.RefersTo o.unread position list →
      (∀ later, position < later → later < o.unread.length →
        ∀ other, ¬ c.package.RefersTo o.unread later other) →
      c.exportText indent r = e.brushBlock c.package indent list := by
  have hblock : c.exportText indent r = c.package.brushText r e o indent := by
    unfold exportText Package.blockBudget objectBlock
    simp only [hexport, hclass, hobject, bind, Except.bind, hbrush, if_true]
  have hfound : ∀ list, c.package.findPolygons o.unread = some list →
      c.exportText indent r = e.brushBlock c.package indent list := by
    intro list hlist
    rw [hblock, Package.brushText, hlist]
    rfl
  refine ⟨?_, fun position list hpos hlt hrefers hlast => ?_⟩
  · rw [← Package.findPolygons_eq_none]
    constructor
    · rintro ⟨object, herror⟩
      refine Option.eq_none_iff_forall_ne_some.mpr fun list hlist => ?_
      rw [hfound list hlist] at herror
      exact (c.package.spares_listText (indent + 2) list).bind (fun _ => .pure _) object herror
    · intro hnone
      rw [hblock, Package.brushText, hnone]
      exact ⟨_, rfl⟩
  · exact hfound list (Package.findPolygons_eq_some.mpr ⟨position, hpos, hlt, hrefers, hlast⟩)

/-- A face at the origin, with one corner above it. -/
def faceOf (item : String) : Polygon :=
  ⟨[⟨⟨0⟩, ⟨0⟩, ⟨0x42800000⟩⟩], ⟨⟨0⟩, ⟨0⟩, ⟨0⟩⟩, ⟨⟨0⟩, ⟨0⟩, ⟨0x3f800000⟩⟩, ⟨⟨0x3f800000⟩, ⟨0⟩, ⟨0⟩⟩,
    ⟨⟨0⟩, ⟨0xbf800000⟩, ⟨0⟩⟩, item, ⟨0⟩, 0, 0⟩

/-- A package with two polygon lists and a brush that has these bytes behind its settings. -/
def brushWith (bytes : List UInt8) : Package :=
  { Package.named "Maps" with
    imports :=
      [ ⟨"Engine", "Core", "Package", ⟨0⟩⟩, ⟨"Polys", "Core", "Class", ⟨-1⟩⟩
      , ⟨"Model", "Core", "Class", ⟨-1⟩⟩ ]
    exports :=
      [ ⟨"Polys0", ⟨-2⟩, ⟨0⟩, ⟨0⟩, ⟨0⟩, some (.polygons [faceOf "Floor"])⟩
      , ⟨"Polys1", ⟨-2⟩, ⟨0⟩, ⟨0⟩, ⟨0⟩, some (.polygons [faceOf "Roof"])⟩
      , ⟨"Model0", ⟨-3⟩, ⟨0⟩, ⟨0⟩, ⟨0⟩, some (.object ⟨[], bytes⟩)⟩ ] }

/-- The byte 1 refers to the list of the floor, but a brush does not see it in the first
position. Behind it the later reference counts, the one to the roof. -/
theorem Context.exportText_brush_firstByte :
    (brushWith [1]).RefersTo [1] 0 [faceOf "Floor"] ∧
    (∃ object, (⟨brushWith [1], false⟩ : Context).exportText 0 ⟨3⟩ = .error (.noPolygons object)) ∧
    (brushWith [0, 1, 2]).RefersTo [0, 1, 2] 1 [faceOf "Floor"] ∧
    (⟨brushWith [0, 1, 2], false⟩ : Context).exportText 0 ⟨3⟩ =
      .ok [.verbatim "Begin Brush Name=Model0", .lineBreak 1, .verbatim "Begin PolyList",
        .lineBreak 2, .verbatim "Begin Polygon Item=Roof Link=0",
        .lineBreak 3, .verbatim "Origin   +00000.000000,+00000.000000,+00000.000000",
        .lineBreak 3, .verbatim "Normal   +00000.000000,+00000.000000,+00001.000000",
        .lineBreak 3, .verbatim "TextureU +00001.000000,+00000.000000,+00000.000000",
        .lineBreak 3, .verbatim "TextureV +00000.000000,-00001.000000,+00000.000000",
        .lineBreak 3, .verbatim "Vertex   +00000.000000,+00000.000000,+00064.000000",
        .lineBreak 2, .verbatim "End Polygon",
        .lineBreak 1, .verbatim "End PolyList", .lineBreak 0, .verbatim "End Brush"] := by
  have hclass : ∀ bytes, (brushWith bytes).className
      (.exported ⟨"Model0", ⟨-3⟩, ⟨0⟩, ⟨0⟩, ⟨0⟩, some (.object ⟨[], bytes⟩)⟩) = .ok "Model" := fun _ => rfl
  have hbrush : sameName "Model" brushClass = true := by decide
  have hfloor : ∀ bytes position, CompactIndex.readAt bytes position = some 1 →
      (brushWith bytes).RefersTo bytes position [faceOf "Floor"] := by
    intro bytes position hread
    exact ⟨1, _, "Engine.Polys", hread, rfl, rfl, by decide, rfl⟩
  have hroof : (brushWith [0, 1, 2]).RefersTo [0, 1, 2] 2 [faceOf "Roof"] :=
    ⟨2, _, "Engine.Polys", rfl, rfl, rfl, by decide, rfl⟩
  refine ⟨hfloor [1] 0 rfl, ?_, hfloor [0, 1, 2] 1 rfl, ?_⟩
  · refine (exportText_brush ⟨brushWith [1], false⟩ 0 rfl (hclass [1]) hbrush rfl).1.mpr ?_
    rintro ⟨position, list, hpos, hlt, -⟩
    simp only [List.length_cons, List.length_nil] at hlt
    omega
  · refine ((exportText_brush ⟨brushWith [0, 1, 2], false⟩ 0 rfl (hclass [0, 1, 2]) hbrush rfl).2 2
      [faceOf "Roof"] ?_ ?_ hroof ?_).trans rfl
    · omega
    · decide
    · intro later hgt hle
      simp only [List.length_cons, List.length_nil] at hle
      omega

end ScriptLift
