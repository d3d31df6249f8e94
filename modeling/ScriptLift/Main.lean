import ScriptLift.Command.Run

/- The program: arguments in, files and standard output out. -/
namespace ScriptLift.Program

/-- The text of a file, none when it cannot be read. -/
def readText (path : String) : IO (Option String) := do
  try return some (← IO.FS.readFile path) catch _ => return none

/-- Writes the file a command gives, then prints; the exit code. -/
def deliver (out : Output) : IO Nat := do
  if let some (path, text) := out.file then
    try IO.FS.writeFile path text
    catch _ =>
      IO.eprintln Error.file.message
      return exitFailed
  IO.print out.printed
  return exitOk

def usage : String :=
  "usage: inspect INPUT | disasm INPUT [--class NAME] | " ++
    "decompile INPUT [--class NAME] [-o FILE] [--map] [--lf]"

/-- Does what the arguments ask for; the exit code. -/
def run (args : List String) : IO Nat := do
  match Invocation.ofArguments args with
  | .version =>
    IO.print versionLine
    return exitOk
  | .help =>
    IO.println usage
    return exitOk
  | .misuse =>
    IO.eprintln usage
    return exitMisuse
  | .run command =>
    match command.run (← readText command.input) with
    | .ok out => deliver out
    | .error e =>
      IO.eprintln e.message
      return exitFailed

end ScriptLift.Program

def main (args : List String) : IO UInt32 := do
  return UInt32.ofNat (← ScriptLift.Program.run args)
