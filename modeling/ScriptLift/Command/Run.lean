import ScriptLift.Codec.Package
import ScriptLift.Command.Arguments
import ScriptLift.Command.Listing
import ScriptLift.Command.Summary

/- What a command gives for the text of its input file. -/
namespace ScriptLift

/-- What a command prints, and what it writes to a file. -/
structure Output where
  printed : String
  file : Option (String × String)

namespace Command

def input : Command → String
  | .inspect input => input
  | .disasm input _ => input
  | .decompile input _ _ _ => input

/-- The package that the text of a file describes. -/
def load (text : String) : Except Error Package :=
  match Package.ofText? text with
  | some p => .ok p
  | none => .error .model

/-- The class asked for, or all. -/
def selected (p : Package) : Option String → Except Error (List ClassDecl)
  | some name => return [← p.findClass name]
  | none => return p.classes

def inspected (p : Package) : Except Error String := do
  return (← p.summarize).toJson.pretty ++ "\n"

def disassembled (p : Package) (className : Option String) : Except Error String := do
  p.listing (← selected p className)

/-- The sources of the classes asked for, an empty line between two. -/
def decompiled (p : Package) (className : Option String) (o : Options) : Except Error String := do
  match className with
  | some name => p.sourceOf o name
  | none =>
    let separator := o.lineEnding.text ++ o.lineEnding.text
    return separator.intercalate ((← p.sources o).map (·.2))

/-- What the command gives for a package. -/
def perform (p : Package) : Command → Except Error Output
  | .inspect _ => return ⟨← inspected p, none⟩
  | .disasm _ className => return ⟨← disassembled p className, none⟩
  | .decompile _ className output o => do
    let source ← decompiled p className o
    match output with
    | some path => return ⟨"", some (path, source)⟩
    | none => return ⟨source ++ "\n", none⟩

/-- What the command gives for the text of its input file, none when it cannot
be read. -/
def run (c : Command) (text : Option String) : Except Error Output := do
  match text with
  | some text => c.perform (← load text)
  | none => throw .file

end Command

/-- The line printed for the version. -/
def versionLine : String := "uscript-dec-rs 0.1.0\n"

/-- Exit codes: success, a failed command, arguments that make no command. -/
def exitOk : Nat := 0
def exitFailed : Nat := 1
def exitMisuse : Nat := 2

end ScriptLift
