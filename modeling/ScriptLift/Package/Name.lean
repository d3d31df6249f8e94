/- Names and dotted paths. Names are compared without regard to the case of
   ASCII letters; a path is names separated by dots. -/
namespace ScriptLift

/-- The characters of a name with ASCII letters in lower case. -/
def foldCase (s : String) : List Char := s.toList.map Char.toLower

/-- Equality of names. -/
def sameName (a b : String) : Bool := foldCase a == foldCase b

theorem sameName_iff {a b : String} : sameName a b = true ↔ foldCase a = foldCase b := beq_iff_eq

@[simp] theorem sameName_refl (a : String) : sameName a a = true := sameName_iff.mpr rfl

theorem sameName_comm (a b : String) : sameName a b = sameName b a := BEq.comm

theorem sameName_congr_right {a b : String} (h : sameName a b = true) (c : String) :
    sameName c a = sameName c b := by
  unfold sameName
  rw [sameName_iff.mp h]

/-- What stands after the last dot of a path. -/
def shortName (path : String) : String :=
  String.ofList (path.toList.reverse.takeWhile (· != '.')).reverse

/-- Whether the name is the path, or its end from after a dot. -/
def endsPath (path name : String) : Bool :=
  let p := (foldCase path).reverse
  let n := (foldCase name).reverse
  n.isPrefixOf p &&
    match p.drop n.length with
    | [] => true
    | c :: _ => c == '.'

/-- A path one name longer. -/
def extendPath (path name : String) : String := path ++ "." ++ name

end ScriptLift
