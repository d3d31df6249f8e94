import ScriptLift.Proofs.PathSegments

/- Paths by their bytes.

   Encoded paths can be compared without decoding them, as long as no character is cut: the
   bytes of characters beyond ASCII have no case, and a byte that reads as a dot is one. So the
   bytes of a path end in those of a name, from the start or from behind a dot, exactly when the
   segments do (`endsSegments_iff_bytes`). -/
namespace ScriptLift

/-- The encoded string. -/
def utf8 (s : String) : List UInt8 := s.toByteArray.data.toList

/-- A byte with an ASCII letter in lower case. -/
def lowerByte (b : UInt8) : UInt8 := if 65 ≤ b.toNat ∧ b.toNat ≤ 90 then UInt8.ofNat (b.toNat + 32) else b

/-- From byte `start` on, the path is the name but for the case of ASCII letters; that is no
place inside a character, and it is the first one or stands behind a dot. -/
structure EndsBytes (path name : String) (start : Nat) : Prop where
  size : start + (utf8 name).length = (utf8 path).length
  boundary : String.Pos.Raw.IsValid path ⟨start⟩
  same : ((utf8 path).drop start).map lowerByte = (utf8 name).map lowerByte
  free : start = 0 ∨ (utf8 path)[start - 1]? = some 46

/-! Characters and bytes. -/

theorem encode_of_ascii {c : Char} (h : c.toNat < 128) : String.utf8EncodeChar c = [UInt8.ofNat c.toNat] :=
  if_pos (Nat.le_of_lt_succ h)

theorem high_of_mem_encode {c : Char} (h : 128 ≤ c.toNat) : ∀ b ∈ String.utf8EncodeChar c, 128 ≤ b.toNat := by
  rw [← Char.toNat_val] at h
  intro b hb
  unfold String.utf8EncodeChar at hb
  grind [UInt8.toNat_ofNat']

theorem map_lowerByte_encode (c : Char) :
    (String.utf8EncodeChar c).map lowerByte = String.utf8EncodeChar c.toLower := by
  have hlower := toNat_toLower c
  by_cases hascii : c.toNat < 128
  · rw [encode_of_ascii hascii, encode_of_ascii (by split at hlower <;> omega), hlower, List.map_singleton,
      lowerByte, UInt8.toNat_ofNat_of_lt' (Nat.lt_trans hascii (by decide))]
    split <;> rfl
  · have hsame : c.toLower = c := by
      rw [if_neg (by omega)] at hlower
      exact Char.toNat_inj.mp hlower
    rw [hsame]
    refine (List.map_congr_left fun b hb => ?_).trans (List.map_id _)
    have := high_of_mem_encode (Nat.le_of_not_lt hascii) b hb
    exact if_neg (by omega)

/-- A byte that reads as a dot at the end of a character is the dot. -/
theorem eq_dot_of_getLast_encode {c : Char} (h : (String.utf8EncodeChar c).getLast? = some 46) : c = '.' := by
  have hmem := List.mem_of_getLast? h
  have hascii : c.toNat < 128 := by
    refine Nat.lt_of_not_le fun hhigh => ?_
    have := high_of_mem_encode hhigh _ hmem
    exact absurd this (by decide)
  rw [encode_of_ascii hascii, List.mem_singleton] at hmem
  have hcode := congrArg UInt8.toNat hmem
  rw [UInt8.toNat_ofNat_of_lt' (Nat.lt_trans hascii (by decide))] at hcode
  exact Char.toNat_inj.mp hcode.symm

/-! Strings and bytes. -/

theorem utf8_eq (s : String) : utf8 s = s.toList.flatMap String.utf8EncodeChar := by
  rw [utf8, ← String.utf8Encode_toList, List.utf8Encode, List.data_toByteArray]

theorem utf8_append (a b : String) : utf8 (a ++ b) = utf8 a ++ utf8 b := by
  simp only [utf8_eq, String.toList_append, List.flatMap_append]

theorem utf8_inj {a b : String} (h : utf8 a = utf8 b) : a = b :=
  String.toByteArray_inj.mp (ByteArray.ext (Array.toList_inj.mp h))

theorem map_lowerByte_utf8 (s : String) : (utf8 s).map lowerByte = utf8 (String.ofList (foldCase s)) := by
  rw [utf8_eq, utf8_eq, String.toList_ofList, foldCase, List.map_flatMap, List.flatMap_map]
  simp only [map_lowerByte_encode]

theorem sameName_iff_bytes {a b : String} :
    sameName a b = true ↔ (utf8 a).map lowerByte = (utf8 b).map lowerByte := by
  rw [sameName_iff, map_lowerByte_utf8, map_lowerByte_utf8]
  exact ⟨fun h => by rw [h], fun h => String.ofList_injective (utf8_inj h)⟩

theorem utf8_getLast_dot_iff {s : String} : (utf8 s).getLast? = some 46 ↔ ∃ front, s = front ++ "." := by
  constructor
  · intro h
    rcases List.eq_nil_or_concat s.toList with hnil | ⟨front, c, hs⟩
    · rw [utf8_eq, hnil] at h
      cases h
    · rw [utf8_eq, hs, List.concat_eq_append, List.flatMap_append, List.flatMap_singleton,
        List.getLast?_append_of_ne_nil _ (String.utf8EncodeChar_ne_nil)] at h
      refine ⟨String.ofList front, String.toList_injective ?_⟩
      rw [hs, eq_dot_of_getLast_encode h, String.toList_append, String.toList_ofList, List.concat_eq_append]
      rfl
  · rintro ⟨front, rfl⟩
    rw [utf8_append]
    exact List.getLast?_concat

/-! Where a path is cut. -/

/-- A name that ends a path cuts it at the start or behind a dot. -/
theorem endsSegments_iff_cut {path name : String} : EndsSegments path name ↔
    ∃ front back, path = front ++ back ∧ sameName back name = true ∧
      (front = "" ∨ ∃ outer, front = outer ++ ".") := by
  rw [endsSegments_iff, splitOn_suffix_iff]
  constructor
  · rintro (hpath | ⟨front, hpath⟩)
    · exact ⟨"", path, String.empty_append.symm, sameName_iff.mpr hpath, .inl rfl⟩
    · obtain ⟨outer, rest, hsplit, -, hrest⟩ := List.map_eq_append_iff.mp hpath
      obtain ⟨c, back, rfl, hdot, hback⟩ := List.map_eq_cons_iff.mp hrest
      obtain rfl := toLower_eq_dot_iff.mp hdot
      refine ⟨String.ofList outer ++ ".", String.ofList back, String.toList_injective ?_, ?_, .inr ⟨_, rfl⟩⟩
      · simp [hsplit]
      · rw [sameName_iff, ← hback, foldCase, String.toList_ofList]
  · rintro ⟨front, back, rfl, hsame, rfl | ⟨outer, rfl⟩⟩
    · exact .inl (by rw [String.empty_append, sameName_iff.mp hsame])
    · refine .inr ⟨foldCase outer, ?_⟩
      rw [← sameName_iff.mp hsame]
      simp [foldCase]

theorem free_iff {front back : String} :
    ((utf8 front).length = 0 ∨ (utf8 (front ++ back))[(utf8 front).length - 1]? = some 46) ↔
      (front = "" ∨ ∃ outer, front = outer ++ ".") := by
  have hempty : (utf8 front).length = 0 ↔ front = "" := String.utf8ByteSize_eq_zero_iff
  by_cases hfront : front = ""
  · exact iff_of_true (.inl (hempty.mpr hfront)) (.inl hfront)
  · have hlast : (utf8 front).length - 1 < (utf8 front).length :=
      Nat.sub_one_lt (hfront ∘ hempty.mp)
    rw [hempty, utf8_append, List.getElem?_append_left hlast, ← List.getLast?_eq_getElem?, utf8_getLast_dot_iff]

/-- The segments of a name end a path exactly when its bytes do. -/
theorem endsSegments_iff_bytes {path name : String} :
    EndsSegments path name ↔ ∃ start, EndsBytes path name start := by
  rw [endsSegments_iff_cut]
  constructor
  · rintro ⟨front, back, rfl, hsame, hfree⟩
    have hbytes := sameName_iff_bytes.mp hsame
    refine ⟨(utf8 front).length, ?_, ?_, ?_, ?_⟩
    · have hlength := congrArg List.length hbytes
      rw [List.length_map, List.length_map] at hlength
      rw [utf8_append, List.length_append, hlength]
    · exact String.Pos.Raw.isValid_iff_exists_append.mpr ⟨front, back, rfl, rfl⟩
    · rw [utf8_append, List.drop_left, hbytes]
    · exact free_iff.mpr hfree
  · -- Where no character is cut, the bytes on both sides are those of two strings.
    rintro ⟨start, h⟩
    obtain ⟨front, back, rfl, hstart⟩ := String.Pos.Raw.isValid_iff_exists_append.mp h.boundary
    obtain rfl : start = (utf8 front).length := congrArg String.Pos.Raw.byteIdx hstart
    have hsame := h.same
    rw [utf8_append, List.drop_left] at hsame
    exact ⟨front, back, rfl, sameName_iff_bytes.mpr hsame, free_iff.mp h.free⟩

end ScriptLift
