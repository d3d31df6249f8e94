import ScriptLift.Package.Lookup
import ScriptLift.Stored.CompactIndex
import ScriptLift.Text

/- Brushes as polygon lists. A brush keeps the reference to its polygon list
   somewhere in the bytes after its settings; it is found by trying every position
   from the end. -/
namespace ScriptLift

/-- The full name of the class of polygon lists. -/
def polygonClass : String := "Engine.Polys"

namespace Package

/-- The polygon list that a reference points to. -/
def polygonsAt (p : Package) (r : Reference) : Option (List Polygon) :=
  match p.entry r with
  | .ok (some (.exported e)) =>
    match p.classFullName e with
    | .ok name =>
      if sameName name polygonClass then
        match e.payload with
        | some (.polygons list) => some list
        | _ => none
      else none
    | .error _ => none
  | _ => none

/-- The polygon list referred to at a position of the bytes. -/
def polygonsFrom (p : Package) (bytes : List UInt8) (position : Nat) : Option (List Polygon) :=
  (CompactIndex.readAt bytes position).bind fun index => p.polygonsAt ⟨index⟩

/-- The positions that are tried: all after the first, from the end. -/
def searchPositions (count : Nat) : List Nat := ((List.range count).drop 1).reverse

/-- The polygon list of a brush with these bytes after its settings. -/
def findPolygons (p : Package) (bytes : List UInt8) : Option (List Polygon) :=
  (searchPositions bytes.length).findSome? (p.polygonsFrom bytes)

end Package

/-- Three coordinates with commas between them. -/
def Vec3.text (v : Vec3) : String :=
  v.x.coordinate ++ "," ++ v.y.coordinate ++ "," ++ v.z.coordinate

namespace Polygon

def itemWord (polygon : Polygon) : String :=
  if sameName polygon.itemName "None" then "" else " Item=" ++ polygon.itemName

def textureWord (p : Package) (polygon : Polygon) : Except Error String :=
  if polygon.texture.isNone then return "" else return " Texture=" ++ (← p.fullName polygon.texture)

def flagsWord (polygon : Polygon) : String :=
  if polygon.flags == 0 then "" else " Flags=" ++ toString polygon.flags.toNat

/-- The first line of a polygon. -/
def header (p : Package) (polygon : Polygon) : Except Error String := do
  return "Begin Polygon" ++ polygon.itemWord ++ (← polygon.textureWord p) ++ polygon.flagsWord ++
    " Link=" ++ toString polygon.link.toInt

/-- The labelled vectors of a polygon, in the order of writing. -/
def vectors (polygon : Polygon) : List (String × Vec3) :=
  [ ("Origin   ", polygon.origin)
  , ("Normal   ", polygon.normal)
  , ("TextureU ", polygon.textureU)
  , ("TextureV ", polygon.textureV) ] ++ polygon.vertices.map ("Vertex   ", ·)

/-- A polygon that starts on a line of its own at `indent`. -/
def text (p : Package) (indent : Nat) (polygon : Polygon) : Except Error Text := do
  return Text.lineOf indent (← polygon.header p) ++
    (polygon.vectors.flatMap fun (label, v) => Text.lineOf (indent + 1) (label ++ v.text)) ++
    Text.lineOf indent "End Polygon"

/-- Polygons one after another. -/
def listText (p : Package) (indent : Nat) : List Polygon → Except Error Text
  | [] => return []
  | polygon :: rest => do
    let first ← polygon.text p indent
    return first ++ (← listText p indent rest)

end Polygon

/-- The block of a brush, from a line at `indent`. -/
def Package.brushText (p : Package) (r : Reference) (e : Export) (o : ObjectInstance)
    (indent : Nat) : Except Error Text := do
  match p.findPolygons o.unread with
  | none =>
    let name := match p.fullName r with
      | .ok name => name
      | .error _ => e.name
    throw (.noPolygons name)
  | some polygons =>
    return Text.lit ("Begin Brush Name=" ++ e.name) ++
      Text.lineOf (indent + 1) "Begin PolyList" ++
      (← Polygon.listText p (indent + 2) polygons) ++
      Text.lineOf (indent + 1) "End PolyList" ++
      Text.lineOf indent "End Brush"

end ScriptLift
