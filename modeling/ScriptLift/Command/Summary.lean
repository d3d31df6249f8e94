import ScriptLift.Json.Writer
import ScriptLift.Package.Lookup

/- A summary of a package: every directory entry with its full name and class,
   and the names of the exported classes. -/
namespace ScriptLift

structure EntrySummary where
  reference : Reference
  fullName : String
  className : String

structure Summary where
  name : String
  imports : List EntrySummary
  exports : List EntrySummary
  classes : List String

namespace Reference

/-- The reference to the import at an index. -/
def ofImport (i : Nat) : Reference := ⟨.ofInt (-(i : Int) - 1)⟩

/-- The reference to the export at an index. -/
def ofExport (i : Nat) : Reference := ⟨.ofInt ((i : Int) + 1)⟩

end Reference

namespace Package

/-- The summary of the entry of a reference. -/
def summarizeEntry (p : Package) (r : Reference) : Except Error EntrySummary := do
  match ← p.entry r with
  | none => throw (.unresolved r)
  | some e => return ⟨r, ← p.fullName r, ← p.className e⟩

/-- The summaries of these references, up to the first that fails. -/
def summarizeEntries (p : Package) : List Reference → Except Error (List EntrySummary)
  | [] => return []
  | r :: rs => return (← p.summarizeEntry r) :: (← p.summarizeEntries rs)

def summarize (p : Package) : Except Error Summary := do
  let imports ← p.summarizeEntries ((List.range p.imports.length).map .ofImport)
  let exports ← p.summarizeEntries ((List.range p.exports.length).map .ofExport)
  return ⟨p.name, imports, exports, p.classes.map (·.name)⟩

end Package

def EntrySummary.toJson (e : EntrySummary) : Json :=
  .record
    [ ("reference", .int e.reference.index.toInt)
    , ("full_name", .str e.fullName)
    , ("class", .str e.className) ]

def Summary.toJson (s : Summary) : Json :=
  .record
    [ ("name", .str s.name)
    , ("imports", .array (s.imports.map EntrySummary.toJson))
    , ("exports", .array (s.exports.map EntrySummary.toJson))
    , ("classes", .array (s.classes.map .str)) ]

end ScriptLift
