import ScriptLift.Options

/- The command line: three commands, each on one input file.

   Options may stand anywhere after the command, each at most once. A value may
   be attached to its option or be the next argument, unless that looks like an
   option itself. After `--` everything is a file name. A file name is never
   empty. -/
namespace ScriptLift

/-- What is asked for. -/
inductive Command where
  /-- A summary of the directory. -/
  | inspect (input : String)
  /-- A flat listing of one class or of all. -/
  | disasm (input : String) (className : Option String)
  /-- The source of one class or of all, to a file or to standard output. -/
  | decompile (input : String) (className : Option String) (output : Option String)
      (options : Options)

/-- What a list of arguments amounts to. -/
inductive Invocation where
  | run (command : Command)
  | version
  | help
  | misuse

namespace Arguments

inductive Verb where
  | inspect
  | disasm
  | decompile
deriving DecidableEq

def Verb.ofName? : String → Option Verb
  | "inspect" => some .inspect
  | "disasm" => some .disasm
  | "decompile" => some .decompile
  | _ => none

/-- The options that commands take. -/
inductive Flag where
  | className
  | output
  | map
  | lf
deriving DecidableEq

def Verb.takes : Verb → Flag → Bool
  | .inspect, _ => false
  | .disasm, flag => flag == .className
  | .decompile, _ => true

/-- What has been read so far. -/
structure Gathered where
  input : Option String
  className : Option String
  output : Option String
  map : Bool
  lf : Bool

/-- Why reading stops early. -/
inductive Stop where
  | help
  | misuse

/-- How an argument is read. -/
inductive Argument where
  /-- A file name. -/
  | plain (s : String)
  /-- From here on everything is a file name. -/
  | terminator
  /-- An option with a long name, and the value attached to it. -/
  | long (name : String) (value : Option String)
  /-- An option of one letter, and what is attached to it. -/
  | short (letter : Char) (rest : String)

/-- What stands before the first equals sign, and what stands after it. -/
def splitEquals (cs : List Char) : List Char × Option (List Char) :=
  match cs.dropWhile (· != '=') with
  | [] => (cs, none)
  | _ :: value => (cs.takeWhile (· != '='), some value)

def Argument.ofString (s : String) : Argument :=
  match s.toList with
  | ['-', '-'] => .terminator
  | '-' :: '-' :: cs =>
    let (name, value) := splitEquals cs
    .long (String.ofList name) (value.map String.ofList)
  | '-' :: c :: cs => .short c (String.ofList cs)
  | _ => .plain s

/-- Whether the argument can be the value of an option before it. -/
def isValue (s : String) : Bool :=
  match Argument.ofString s with
  | .plain _ => true
  | _ => false

def Flag.ofLong? : String → Option Flag
  | "class" => some .className
  | "output" => some .output
  | "map" => some .map
  | "lf" => some .lf
  | _ => none

/-- Whether an option takes a value. -/
def Flag.takesValue : Flag → Bool
  | .className => true
  | .output => true
  | .map => false
  | .lf => false

/-- Notes an option's value; refused when it was given before, or when a file
name is empty. -/
def Gathered.setValue (g : Gathered) (flag : Flag) (value : String) : Except Stop Gathered :=
  match flag with
  | .className => if g.className.isSome then throw .misuse else return { g with className := value }
  | .output =>
    if g.output.isSome || value.isEmpty then throw .misuse else return { g with output := value }
  | .map => throw .misuse
  | .lf => throw .misuse

/-- Notes a switch; refused when it was given before. -/
def Gathered.setSwitch (g : Gathered) (flag : Flag) : Except Stop Gathered :=
  match flag with
  | .map => if g.map then throw .misuse else return { g with map := true }
  | .lf => if g.lf then throw .misuse else return { g with lf := true }
  | .className => throw .misuse
  | .output => throw .misuse

/-- Notes the input file; there is one, and its name is not empty. -/
def Gathered.setInput (g : Gathered) (s : String) : Except Stop Gathered :=
  if g.input.isSome || s.isEmpty then throw .misuse else return { g with input := s }

/-- Reads file names only. -/
def gatherPlain : Gathered → List String → Except Stop Gathered
  | g, [] => return g
  | g, s :: rest => do gatherPlain (← g.setInput s) rest

/-- The value attached to a one-letter option, an equals sign before it left
out. -/
def attached (rest : String) : Option String :=
  match rest.toList with
  | [] => none
  | '=' :: value => some (String.ofList value)
  | value => some (String.ofList value)

/-- The option an argument names, with the value attached to it. -/
def flagOf (verb : Verb) : Argument → Except Stop (Flag × Option String)
  | .long name value =>
    if name = "help" && value.isNone then throw .help
    else
      match Flag.ofLong? name with
      | some flag => if verb.takes flag then return (flag, value) else throw .misuse
      | none => throw .misuse
  | .short letter rest =>
    if letter = 'h' then throw .help
    else if letter = 'o' && verb.takes .output then return (.output, attached rest)
    else throw .misuse
  | .plain _ => throw .misuse
  | .terminator => throw .misuse

/-- Reads the arguments after the command. -/
def gather (verb : Verb) : Gathered → List String → Except Stop Gathered
  | g, [] => return g
  | g, s :: rest =>
    match Argument.ofString s with
    | .plain s => do gather verb (← g.setInput s) rest
    | .terminator => gatherPlain g rest
    | option => do
      let (flag, value) ← flagOf verb option
      if flag.takesValue then
        match value, rest with
        | some value, rest => gather verb (← g.setValue flag value) rest
        | none, value :: rest =>
          if isValue value then gather verb (← g.setValue flag value) rest else throw .misuse
        | none, [] => throw .misuse
      else
        match value with
        | some _ => throw .misuse
        | none => gather verb (← g.setSwitch flag) rest

/-- The command that the gathered arguments amount to. -/
def Gathered.command? (g : Gathered) (verb : Verb) : Option Command := do
  let input ← g.input
  return match verb with
    | .inspect => .inspect input
    | .disasm => .disasm input g.className
    | .decompile => .decompile input g.className g.output (.ofSwitches g.map g.lf)

/-- Whether help can be asked for on these: on nothing, or on one command. -/
def isTopic : List String → Bool
  | [] => true
  | [name] => (Verb.ofName? name).isSome || name == "help"
  | _ => false

end Arguments

open Arguments in
/-- What the arguments amount to. -/
def Invocation.ofArguments : List String → Invocation
  | [] => .misuse
  | first :: rest =>
    match Verb.ofName? first with
    | some verb =>
      match gather verb ⟨none, none, none, false, false⟩ rest with
      | .ok g => ((g.command? verb).map .run).getD .misuse
      | .error .help => .help
      | .error .misuse => .misuse
    | none =>
      match Argument.ofString first with
      | .long "version" none => .version
      | .short 'V' _ => .version
      | .long "help" none => .help
      | .short 'h' _ => .help
      | .plain "help" => if isTopic rest then .help else .misuse
      | _ => .misuse

end ScriptLift
