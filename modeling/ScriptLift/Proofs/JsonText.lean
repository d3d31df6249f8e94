import Mathlib.Data.Fintype.Basic
import Mathlib.Tactic.FinCases
import Mathlib.Tactic.IntervalCases
import ScriptLift.Json.Reader
import ScriptLift.Json.Writer

/- Reading JSON text back.

   What is written for a value on one line is read as that value and leaves what follows it
   (`Json.Reader.value_compact`). A string is read character by character, each escape as
   the character it was written for; a number goes as far as its characters go, so nothing
   that continues a number may follow it; the elements of an array and the members of an
   object end at the comma or the closing bracket after them. The fuel of the reader is
   counted in characters: each call that nests has at least one of its own. -/
namespace ScriptLift

/-! Digits. -/

namespace Digit

theorem ofChar?_char (d : Digit) : ofChar? d.char = some d := by
  revert d
  decide

theorem char_ne_sign (d : Digit) : d.char ≠ '+' ∧ d.char ≠ '-' := by
  revert d
  decide

theorem prepend_append {fuel n : Nat} (h : n < fuel) (rest : List Digit) :
    prepend fuel n rest = digitsOf n ++ rest := by
  have hfuel : ∀ n fuel fuel' rest, n < fuel → n < fuel' → prepend fuel n rest = prepend fuel' n [] ++ rest := by
    intro n
    induction n using Nat.strongRecOn with
    | ind n ih =>
      intro fuel fuel' rest h h'
      match fuel, fuel', h, h' with
      | fuel + 1, fuel' + 1, h, h' =>
        simp only [prepend]
        split_ifs with hn
        · rfl
        · have hless : n / 10 < n := Nat.div_lt_self (by omega) (by decide)
          rw [ih _ hless fuel (n / 10 + 1) _ (by omega) (by omega),
            ih _ hless fuel' (n / 10 + 1) [_] (by omega) (by omega), List.append_assoc]
          rfl
  exact hfuel n fuel (n + 1) rest h (by omega)

end Digit

theorem digitsOf_of_lt {n : Nat} (h : n < 10) : digitsOf n = [Fin.ofNat 10 n] := by
  simp [digitsOf, Digit.prepend, h]

/-- The last digit apart. -/
theorem digitsOf_of_le {n : Nat} (h : 10 ≤ n) : digitsOf n = digitsOf (n / 10) ++ [Fin.ofNat 10 n] := by
  have hless : n / 10 < n := Nat.div_lt_self (by omega) (by decide)
  rw [digitsOf, Digit.prepend, if_neg (by omega), Digit.prepend_append hless]

theorem digitsOf_ne_nil (n : Nat) : digitsOf n ≠ [] := by
  rcases Nat.lt_or_ge n 10 with h | h
  · simp [digitsOf_of_lt h]
  · simp [digitsOf_of_le h]

/-- A positive number does not start with a zero. -/
theorem head_digitsOf {n : Nat} (h : 0 < n) : (digitsOf n).head? ≠ some 0 := by
  induction n using Nat.strongRecOn with
  | ind n ih =>
    rcases Nat.lt_or_ge n 10 with hn | hn
    · interval_cases n <;> decide
    · have hless : n / 10 < n := Nat.div_lt_self (by omega) (by decide)
      rw [digitsOf_of_le hn, List.head?_append_of_ne_nil _ (digitsOf_ne_nil _)]
      exact ih _ hless (by omega)

/-! Values that are written as they are read. -/

/-- The number has a digit before the point, no zero in front of others there, and a digit in
its exponent. -/
structure NumberLiteral.Proper (n : NumberLiteral) : Prop where
  whole : n.whole ≠ []
  leading : ∀ d ds, n.whole ≠ 0 :: d :: ds
  exponent : ∀ e ∈ n.exponent, e.2 ≠ []

theorem NumberLiteral.proper_digitsOf (negative : Bool) (n : Nat) {fraction : List Digit}
    {exponent : Option (Bool × List Digit)} (h : ∀ e ∈ exponent, e.2 ≠ []) :
    (⟨negative, digitsOf n, fraction, exponent⟩ : NumberLiteral).Proper where
  whole := digitsOf_ne_nil n
  leading := by
    intro d ds heq
    rcases Nat.eq_zero_or_pos n with rfl | hn
    · cases heq
    · exact head_digitsOf hn (by rw [show digitsOf n = _ from heq]; rfl)
  exponent := h

namespace Json

mutual

/-- All numbers in the value are proper, and all strings hold characters. -/
def Proper : Json → Prop
  | .number n => n.Proper
  | .string s => s.isSome
  | .array es => ProperElements es
  | .object ms => ProperMembers ms
  | _ => True

def ProperElements : List Json → Prop
  | [] => True
  | v :: vs => Proper v ∧ ProperElements vs

def ProperMembers : List (Option String × Json) → Prop
  | [] => True
  | (name, v) :: ms => name.isSome ∧ Proper v ∧ ProperMembers ms

end

theorem proper_array {es : List Json} : (Json.array es).Proper ↔ ∀ e ∈ es, e.Proper := by
  rw [Proper]
  induction es with
  | nil => simp [ProperElements]
  | cons v vs ih => simp [ProperElements, ih]

theorem proper_record {ms : List (String × Json)} : (record ms).Proper ↔ ∀ m ∈ ms, m.2.Proper := by
  rw [record, Proper]
  induction ms with
  | nil => simp [ProperMembers]
  | cons m ms ih => simp [ProperMembers, ih]

namespace Reader

/-! Numbers. -/

/-- What follows a number: nothing that could continue it. -/
def EndsNumber (rest : List Char) : Prop :=
  ∀ c ∈ rest.head?, Digit.ofChar? c = none ∧ c ≠ '.' ∧ c ≠ 'e' ∧ c ≠ 'E'

theorem digits_append (ds : List Digit) {rest : List Char} (h : ∀ c ∈ rest.head?, Digit.ofChar? c = none) :
    digits (ds.map Digit.char ++ rest) = (ds, rest) := by
  induction ds with
  | nil =>
    cases rest with
    | nil => rfl
    | cons c rest => simp [digits, h c (by simp)]
  | cons d ds ih => simp [digits, Digit.ofChar?_char, ih]

theorem someDigits_append {ds : List Digit} (hds : ds ≠ []) {rest : List Char}
    (h : ∀ c ∈ rest.head?, Digit.ofChar? c = none) : someDigits (ds.map Digit.char ++ rest) = some (ds, rest) := by
  unfold someDigits
  rw [digits_append ds h]
  cases ds with
  | nil => exact absurd rfl hds
  | cons d ds => rfl

theorem whole_append {ds : List Digit} (hds : ds ≠ []) (hlead : ∀ e es, ds ≠ 0 :: e :: es) {rest : List Char}
    (h : ∀ c ∈ rest.head?, Digit.ofChar? c = none) : whole (ds.map Digit.char ++ rest) = some (ds, rest) := by
  unfold whole
  rw [someDigits_append hds h, Option.bind_eq_bind, Option.bind_some]
  dsimp only
  split
  · exact absurd rfl (hlead _ _)
  · rfl

/-- The point and the digits after it as they are written. -/
def fractionText (ds : List Digit) : List Char := if ds.isEmpty then [] else '.' :: ds.map Digit.char

theorem fraction_append (ds : List Digit) {rest : List Char}
    (h : ∀ c ∈ rest.head?, Digit.ofChar? c = none ∧ c ≠ '.') :
    fraction (fractionText ds ++ rest) = some (ds, rest) := by
  cases ds with
  | nil =>
    simp only [fractionText, List.isEmpty_nil, if_true, List.nil_append]
    unfold fraction
    split
    · exact absurd rfl (h _ (by simp)).2
    · rfl
  | cons d ds => exact someDigits_append (by simp) fun c hc => (h c hc).1

/-- The exponent as it is written. -/
def exponentText : Option (Bool × List Digit) → List Char
  | none => []
  | some (negative, ds) => 'e' :: ((if negative then ['-'] else []) ++ ds.map Digit.char)

theorem exponentDigits_append (negative : Bool) {ds : List Digit} (hds : ds ≠ []) {rest : List Char}
    (h : ∀ c ∈ rest.head?, Digit.ofChar? c = none) :
    exponentDigits ((if negative then ['-'] else []) ++ (ds.map Digit.char ++ rest)) =
      some (some (negative, ds), rest) := by
  have hread := someDigits_append hds h
  unfold exponentDigits
  cases negative with
  | true => simp [hread]
  | false =>
    obtain ⟨d, ds, rfl⟩ := List.exists_cons_of_ne_nil hds
    simp only [Bool.false_eq_true, if_false, List.nil_append]
    split
    · next heq => exact absurd (List.cons.inj heq).1 d.char_ne_sign.1
    · next heq => exact absurd (List.cons.inj heq).1 d.char_ne_sign.2
    · rw [hread]; rfl

theorem exponent_append {e : Option (Bool × List Digit)} (he : ∀ x ∈ e, x.2 ≠ []) {rest : List Char}
    (h : EndsNumber rest) : exponent (exponentText e ++ rest) = some (e, rest) := by
  cases e with
  | none =>
    simp only [exponentText, List.nil_append]
    unfold exponent
    split
    · exact absurd rfl (h _ (by simp)).2.2.1
    · exact absurd rfl (h _ (by simp)).2.2.2
    · rfl
  | some x =>
    obtain ⟨negative, ds⟩ := x
    rw [exponentText, List.cons_append, List.append_assoc]
    exact exponentDigits_append negative (he _ rfl) fun c hc => (h c hc).1

theorem literalText_append (n : NumberLiteral) (rest : List Char) :
    literalText n ++ rest = (if n.negative then ['-'] else []) ++
      (n.whole.map Digit.char ++ (fractionText n.fraction ++ (exponentText n.exponent ++ rest))) := by
  obtain ⟨negative, ws, fs, e⟩ := n
  rcases e with _ | ⟨sign, ds⟩ <;> simp [literalText, fractionText, exponentText]

theorem number_literalText {n : NumberLiteral} (hn : n.Proper) {rest : List Char} (h : EndsNumber rest) :
    number (literalText n ++ rest) = some (n, rest) := by
  obtain ⟨negative, ws, fs, e⟩ := n
  obtain ⟨hws, hlead, he⟩ := hn
  rw [literalText_append]
  -- after the digits of a part comes the next part's own mark, or what follows the number
  have hexponent : ∀ c ∈ (exponentText e ++ rest).head?, Digit.ofChar? c = none ∧ c ≠ '.' := by
    intro c hc
    cases e with
    | none => exact ⟨(h c hc).1, (h c hc).2.1⟩
    | some x =>
      obtain rfl : 'e' = c := by simpa [exponentText] using hc
      decide
  have hfraction : ∀ c ∈ (fractionText fs ++ (exponentText e ++ rest)).head?, Digit.ofChar? c = none := by
    intro c hc
    cases fs with
    | nil => exact (hexponent c hc).1
    | cons f fs =>
      obtain rfl : '.' = c := by simpa [fractionText] using hc
      decide
  have hwhole := whole_append hws hlead hfraction
  unfold number
  cases negative with
  | true => simp [hwhole, fraction_append fs hexponent, exponent_append he h]
  | false =>
    obtain ⟨d, ds, rfl⟩ := List.exists_cons_of_ne_nil hws
    simp only [Bool.false_eq_true, if_false, List.nil_append]
    split
    · next heq => exact absurd (List.cons.inj heq).1 d.char_ne_sign.2
    · simp only [hwhole, fraction_append fs hexponent, exponent_append he h, Option.bind_eq_bind, Option.bind_some]
      rfl

/-! Strings. -/

theorem hexDigit?_hexChar {n : Nat} (h : n < 16) : hexDigit? (hexChar n) = some n := by
  interval_cases n <;> decide

/-- A control character is read from its code. -/
theorem hex4?_control {n : Nat} (h : n < 0x20) : hex4? '0' '0' (hexChar (n / 16)) (hexChar (n % 16)) = some n := by
  have hzero : hexDigit? '0' = some 0 := by decide
  have hhigh : hexDigit? (hexChar (n / 16)) = some (n / 16) := hexDigit?_hexChar (by omega)
  have hlow : hexDigit? (hexChar (n % 16)) = some (n % 16) := hexDigit?_hexChar (by omega)
  simp only [hex4?, hzero, hhigh, hlow, Option.pure_def, Option.bind_eq_bind, Option.bind_some]
  congr 1
  omega

/-- The marks after one that is read. -/
def Marks.cons (m : Mark) (found : List Mark × List Char) : List Mark × List Char := (m :: found.1, found.2)

theorem marks_letter {e c : Char} (h : escaped? e = some c) (rest : List Char) :
    marks ('\\' :: e :: rest) = (marks rest).map (Marks.cons (.char c)) := by
  have hu : e ≠ 'u' := by rintro rfl; cases h
  rw [marks]
  · rw [h]
    cases marks rest <;> rfl
  · intro a b c d rest heq
    exact absurd heq hu

theorem marks_code {a b c d : Char} {u : Nat} (h : hex4? a b c d = some u) (rest : List Char) :
    marks ('\\' :: 'u' :: a :: b :: c :: d :: rest) = (marks rest).map (Marks.cons (.unit u)) := by
  rw [marks, h]
  cases marks rest <;> rfl

theorem marks_plain {c : Char} (hquote : c ≠ '"') (hslash : c ≠ '\\') (hcontrol : ¬ c.toNat < 0x20)
    (rest : List Char) : marks (c :: rest) = (marks rest).map (Marks.cons (.char c)) := by
  rw [marks.eq_def]
  split
  · next heq => cases heq
  · next heq => exact absurd (List.cons.inj heq).1 hquote
  · next heq => exact absurd (List.cons.inj heq).1 hslash
  · next heq => exact absurd (List.cons.inj heq).1 hslash
  · next heq =>
    obtain ⟨rfl, rfl⟩ := List.cons.inj heq
    rw [if_neg (by simp [hslash, hcontrol])]
    cases marks rest <;> rfl

/-- The mark stands for the character wherever it is written. -/
def Mark.StandsFor (m : Mark) (c : Char) : Prop := ∀ ms, characters (m :: ms) = (characters ms).map (c :: ·)

theorem standsFor_char (c : Char) : (Mark.char c).StandsFor c := fun _ => rfl

theorem standsFor_unit {c : Char} (h : c.toNat < 0x20) : (Mark.unit c.toNat).StandsFor c := by
  intro ms
  have hhigh : isHighSurrogate c.toNat = false := by simp [isHighSurrogate]; omega
  have hlow : isLowSurrogate c.toNat = false := by simp [isLowSurrogate]; omega
  rw [characters.eq_def]
  simp [hhigh, hlow]

/-- What is written for a character is read as one mark that stands for it. -/
theorem marks_escape (c : Char) : ∃ m : Mark, m.StandsFor c ∧
    ∀ rest, marks (escape c ++ rest) = (marks rest).map (Marks.cons m) := by
  unfold escape
  split_ifs with hquote hslash hback hfeed hline hreturn htab hcontrol
  · exact ⟨_, standsFor_char c, marks_letter (by rw [eq_of_beq hquote]; rfl)⟩
  · exact ⟨_, standsFor_char c, marks_letter (by rw [eq_of_beq hslash]; rfl)⟩
  · exact ⟨_, standsFor_char c, marks_letter (by rw [eq_of_beq hback]; rfl)⟩
  · exact ⟨_, standsFor_char c, marks_letter (by rw [eq_of_beq hfeed]; rfl)⟩
  · exact ⟨_, standsFor_char c, marks_letter (by rw [eq_of_beq hline]; rfl)⟩
  · exact ⟨_, standsFor_char c, marks_letter (by rw [eq_of_beq hreturn]; rfl)⟩
  · exact ⟨_, standsFor_char c, marks_letter (by rw [eq_of_beq htab]; rfl)⟩
  · exact ⟨_, standsFor_unit hcontrol, marks_code (hex4?_control hcontrol)⟩
  · exact ⟨_, standsFor_char c, marks_plain (by simpa using hquote) (by simpa using hslash) hcontrol⟩

theorem marks_flatMap_escape (cs rest : List Char) :
    ∃ ms, marks (cs.flatMap escape ++ '"' :: rest) = some (ms, rest) ∧ characters ms = some cs := by
  induction cs with
  | nil => exact ⟨[], rfl, rfl⟩
  | cons c cs ih =>
    obtain ⟨m, hm, hread⟩ := marks_escape c
    obtain ⟨ms, hms, hcs⟩ := ih
    refine ⟨m :: ms, ?_, ?_⟩
    · rw [List.flatMap_cons, List.append_assoc, hread, hms]
      rfl
    · rw [hm, hcs]
      rfl

/-- A string is read up to its closing quote. -/
theorem string_flatMap_escape (s : String) (rest : List Char) :
    string (s.toList.flatMap escape ++ '"' :: rest) = some (some s, rest) := by
  obtain ⟨ms, hms, hcs⟩ := marks_flatMap_escape s.toList rest
  simp [string, hms, hcs]

theorem quote_append (s : String) (rest : List Char) :
    quote (some s) ++ rest = '"' :: (s.toList.flatMap escape ++ '"' :: rest) := by
  have hquote : quote (some s) = '"' :: s.toList.flatMap escape ++ ['"'] := rfl
  rw [hquote, List.cons_append, List.cons_append, List.append_assoc, List.singleton_append]

/-! Values. -/

theorem skipBlanks_cons {c : Char} (h : isBlank c = false) (cs : List Char) : skipBlanks (c :: cs) = c :: cs := by
  simp [skipBlanks, h]

/-- The first character of what is written for a number. -/
theorem literalText_eq_cons {n : NumberLiteral} (h : n.Proper) :
    ∃ c cs, literalText n = c :: cs ∧ (c = '-' ∨ ∃ d : Digit, c = d.char) := by
  obtain ⟨d, ds, hds⟩ := List.exists_cons_of_ne_nil h.whole
  cases hn : n.negative with
  | true =>
    have htext : literalText n =
        '-' :: (n.whole.map Digit.char ++ (fractionText n.fraction ++ exponentText n.exponent)) := by
      simpa [hn] using literalText_append n []
    exact ⟨'-', _, htext, .inl rfl⟩
  | false =>
    have htext : literalText n =
        d.char :: (ds.map Digit.char ++ (fractionText n.fraction ++ exponentText n.exponent)) := by
      simpa [hn, hds] using literalText_append n []
    exact ⟨d.char, _, htext, .inr ⟨d, rfl⟩⟩

theorem value_number {c : Char} (h : c = '-' ∨ ∃ d : Digit, c = d.char) (fuel : Nat) (cs : List Char) :
    value (fuel + 1) (c :: cs) = (number (c :: cs)).map fun (n, rest) => (.number n, rest) := by
  rcases h with rfl | ⟨d, rfl⟩
  · rfl
  · fin_cases d <;> rfl

theorem digit_opens (d : Digit) : isBlank d.char = false ∧ d.char ≠ ']' := by
  revert d
  decide

/-- What is written for a value starts with a character that neither is blank nor closes an array. -/
theorem compact_eq_cons {j : Json} (h : j.Proper) :
    ∃ c cs, compact j = c :: cs ∧ isBlank c = false ∧ c ≠ ']' := by
  cases j with
  | null => exact ⟨'n', _, rfl, by decide, by decide⟩
  | bool b =>
    cases b with
    | true => exact ⟨'t', _, rfl, by decide, by decide⟩
    | false => exact ⟨'f', _, rfl, by decide, by decide⟩
  | number n =>
    obtain ⟨c, cs, heq, hc⟩ := literalText_eq_cons (by simpa [Proper] using h)
    refine ⟨c, cs, by rw [compact, heq], ?_⟩
    rcases hc with rfl | ⟨d, rfl⟩
    · decide
    · exact digit_opens d
  | string s =>
    cases s with
    | none => simp [Proper] at h
    | some s => exact ⟨'"', _, (List.append_nil _).symm.trans (quote_append s []), by decide, by decide⟩
  | array es => exact ⟨'[', _, by rw [compact]; rfl, by decide, by decide⟩
  | object ms => exact ⟨'\x7b', _, by rw [compact]; rfl, by decide, by decide⟩

theorem compactElements_eq_cons {v : Json} (h : v.Proper) (vs : List Json) :
    ∃ c cs, compactElements (v :: vs) = c :: cs ∧ isBlank c = false ∧ c ≠ ']' := by
  obtain ⟨c, cs, heq, hc⟩ := compact_eq_cons h
  cases vs with
  | nil => exact ⟨c, cs, by rw [compactElements, heq], hc⟩
  | cons w vs => exact ⟨c, _, by rw [compactElements, heq]; rfl, hc⟩

theorem compactMembers_eq_cons (name : String) (v : Json) (ms : List (Option String × Json)) :
    ∃ cs, compactMembers ((some name, v) :: ms) = '"' :: cs := by
  cases ms with
  | nil => exact ⟨_, by rw [compactMembers, quote_append]⟩
  | cons m ms => exact ⟨_, by rw [compactMembers, List.append_assoc, quote_append]⟩

theorem endsNumber_cons {c : Char} (h : Digit.ofChar? c = none ∧ c ≠ '.' ∧ c ≠ 'e' ∧ c ≠ 'E')
    (rest : List Char) : EndsNumber (c :: rest) := by
  intro c' hc'
  obtain rfl : c = c' := by simpa using hc'
  exact h

/-- An array that is not empty is read by its elements. -/
theorem value_array {cs : List Char} {c : Char} {tail : List Char} (heq : cs = c :: tail) (hblank : isBlank c = false)
    (hclose : c ≠ ']') (fuel : Nat) :
    value (fuel + 1) ('[' :: cs) = (elements fuel cs).map fun (es, rest) => (.array es, rest) := by
  subst heq
  rw [value.eq_def]
  simp only [skipBlanks_cons hblank]
  split
  · next heq => exact absurd (List.cons.inj heq).1 hclose
  · rfl

theorem value_object (cs : List Char) (fuel : Nat) :
    value (fuel + 1) ('\x7b' :: '"' :: cs) = (members fuel ('"' :: cs)).map fun (ms, rest) => (.object ms, rest) := by
  rw [value.eq_def]
  rfl

theorem value_string (cs : List Char) (fuel : Nat) :
    value (fuel + 1) ('"' :: cs) = (string cs).map fun (s, rest) => (.string s, rest) := by
  rw [value.eq_def]
  rfl

theorem elements_last {v : Json} {cs rest : List Char} {fuel : Nat}
    (h : value fuel (skipBlanks cs) = some (v, ']' :: rest)) : elements (fuel + 1) cs = some ([v], rest) := by
  rw [elements, h]
  rfl

theorem elements_more {v : Json} {cs rest : List Char} {fuel : Nat}
    (h : value fuel (skipBlanks cs) = some (v, ',' :: rest)) :
    elements (fuel + 1) cs = (elements fuel rest).map fun (vs, rest) => (v :: vs, rest) := by
  rw [elements, h]
  cases hvs : elements fuel rest <;> simp [skipBlanks, isBlank, hvs]

theorem members_last {name : String} {v : Json} {cs rest : List Char} {fuel : Nat}
    (h : value fuel (skipBlanks cs) = some (v, '\x7d' :: rest)) :
    members (fuel + 1) (quote (some name) ++ ':' :: cs) = some ([(some name, v)], rest) := by
  rw [quote_append, members, skipBlanks_cons (by decide)]
  simp [string_flatMap_escape, skipBlanks, isBlank, h]

theorem members_more {name : String} {v : Json} {cs rest : List Char} {fuel : Nat}
    (h : value fuel (skipBlanks cs) = some (v, ',' :: rest)) :
    members (fuel + 1) (quote (some name) ++ ':' :: cs) =
      (members fuel rest).map fun (ms, rest) => ((some name, v) :: ms, rest) := by
  rw [quote_append, members, skipBlanks_cons (by decide)]
  cases hms : members fuel rest <;> simp [string_flatMap_escape, skipBlanks, isBlank, h, hms]

theorem skipBlanks_compact {j : Json} (h : j.Proper) (rest : List Char) :
    skipBlanks (compact j ++ rest) = compact j ++ rest := by
  obtain ⟨c, cs, heq, hblank, -⟩ := compact_eq_cons h
  rw [heq, List.cons_append, skipBlanks_cons hblank]

mutual

/-- What is written for a value is read as the value, whatever comes after that does not continue
a number. -/
theorem value_compact : ∀ (j : Json) {fuel : Nat} {rest : List Char}, j.Proper → 2 * (compact j).length ≤ fuel →
    EndsNumber rest → value fuel (compact j ++ rest) = some (j, rest)
  -- a value has a character, so there is fuel; the brackets pay for the calls of what is inside
  | j, 0, _, hj, hfuel, _ => by
    obtain ⟨c, cs, heq, -⟩ := compact_eq_cons hj
    simp [heq] at hfuel
  | .null, fuel + 1, _, _, _, _ => rfl
  | .bool true, fuel + 1, _, _, _, _ => rfl
  | .bool false, fuel + 1, _, _, _, _ => rfl
  | .number n, fuel + 1, rest, hj, _, hrest => by
    obtain ⟨c, cs, heq, hc⟩ := literalText_eq_cons (by simpa [Proper] using hj)
    rw [compact, heq, List.cons_append, value_number hc, ← List.cons_append, ← heq, number_literalText hj hrest]
    rfl
  | .string none, fuel + 1, _, hj, _, _ => by simp [Proper] at hj
  | .string (some s), fuel + 1, rest, _, _, _ => by
    rw [compact, quote_append, value_string, string_flatMap_escape]
    rfl
  | .array [], fuel + 1, _, _, _, _ => rfl
  | .array (v :: vs), fuel + 1, rest, hj, hfuel, _ => by
    rw [Proper] at hj
    obtain ⟨c, cs, heq, hblank, hclose⟩ := compactElements_eq_cons hj.1 vs
    rw [compact, List.length_append, List.length_cons] at hfuel
    rw [compact, List.cons_append, List.cons_append, List.append_assoc, List.singleton_append,
      value_array (by rw [heq]; rfl) hblank hclose, elements_compact v vs hj (by omega)]
    rfl
  | .object [], fuel + 1, _, _, _, _ => rfl
  | .object ((none, _) :: _), fuel + 1, _, hj, _, _ => by simp [Proper, ProperMembers] at hj
  | .object ((some name, v) :: ms), fuel + 1, rest, hj, hfuel, _ => by
    rw [Proper] at hj
    obtain ⟨cs, heq⟩ := compactMembers_eq_cons name v ms
    rw [compact, List.length_append, List.length_cons] at hfuel
    rw [compact, List.cons_append, List.cons_append, List.append_assoc, List.singleton_append, heq, List.cons_append,
      value_object, ← List.cons_append, ← heq, members_compact name v ms hj (by omega)]
    rfl

theorem elements_compact : ∀ (v : Json) (vs : List Json) {fuel : Nat} {rest : List Char}, ProperElements (v :: vs) →
    2 * (compactElements (v :: vs)).length + 1 ≤ fuel →
    elements fuel (compactElements (v :: vs) ++ ']' :: rest) = some (v :: vs, rest)
  | v, [], fuel + 1, rest, h, hfuel => by
    rw [compactElements] at hfuel ⊢
    refine elements_last ?_
    rw [skipBlanks_compact h.1]
    exact value_compact v h.1 (by omega) (endsNumber_cons (by decide) rest)
  | v, w :: vs, fuel + 1, rest, h, hfuel => by
    rw [compactElements, List.length_append, List.length_cons] at hfuel
    have hfirst : value fuel (skipBlanks (compact v ++ ',' :: (compactElements (w :: vs) ++ ']' :: rest))) =
        some (v, ',' :: (compactElements (w :: vs) ++ ']' :: rest)) := by
      rw [skipBlanks_compact h.1]
      exact value_compact v h.1 (by omega) (endsNumber_cons (by decide) _)
    rw [compactElements, List.append_assoc, List.cons_append, elements_more hfirst,
      elements_compact w vs h.2 (by omega)]
    rfl

theorem members_compact : ∀ (name : String) (v : Json) (ms : List (Option String × Json)) {fuel : Nat}
    {rest : List Char},
    ProperMembers ((some name, v) :: ms) → 2 * (compactMembers ((some name, v) :: ms)).length + 1 ≤ fuel →
    members fuel (compactMembers ((some name, v) :: ms) ++ '\x7d' :: rest) = some ((some name, v) :: ms, rest)
  | name, v, [], fuel + 1, rest, h, hfuel => by
    rw [compactMembers, List.length_append, List.length_cons] at hfuel
    rw [compactMembers, List.append_assoc, List.cons_append]
    refine members_last ?_
    rw [skipBlanks_compact h.2.1]
    exact value_compact v h.2.1 (by omega) (endsNumber_cons (by decide) rest)
  | name, v, (none, _) :: _, fuel + 1, rest, h, hfuel => by simp [ProperMembers] at h
  | name, v, (some name', v') :: ms, fuel + 1, rest, h, hfuel => by
    rw [compactMembers, List.length_append, List.length_append, List.length_cons, List.length_cons] at hfuel
    have hfirst :
        value fuel (skipBlanks (compact v ++ ',' :: (compactMembers ((some name', v') :: ms) ++ '\x7d' :: rest))) =
          some (v, ',' :: (compactMembers ((some name', v') :: ms) ++ '\x7d' :: rest)) := by
      rw [skipBlanks_compact h.2.1]
      exact value_compact v h.2.1 (by omega) (endsNumber_cons (by decide) _)
    rw [compactMembers]
    simp only [List.append_assoc, List.cons_append]
    rw [members_more hfirst, members_compact name' v' ms h.2.2 (by omega)]
    rfl

end

end Reader

/-- The text of a value on one line is read as that value. -/
theorem parse?_render {j : Json} (h : j.Proper) : parse? j.render = some j := by
  have hread : Reader.value (2 * j.compact.length + 2) (j.compact ++ []) = some (j, []) :=
    Reader.value_compact j h (Nat.le_add_right _ 2) (by simp [Reader.EndsNumber])
  have hstart := Reader.skipBlanks_compact h []
  rw [List.append_nil] at hread hstart
  simp only [parse?, render, String.toList_ofList, hstart, hread]
  rfl

end Json

end ScriptLift
