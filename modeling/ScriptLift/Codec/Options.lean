import ScriptLift.Json.Decode
import ScriptLift.Options

/- Options as JSON. -/
namespace ScriptLift

open Json

def LineEnding.ofTag? : String → Option LineEnding
  | "Crlf" => some .crlf
  | "Lf" => some .lf
  | _ => none

/-- A line ending: its name, or its name with a null, which opens a container. -/
def LineEnding.ofJson? : Decoder LineEnding
  | 0, j => j.asString?.bind LineEnding.ofTag?
  | _ + 1, j => (unitTag? j).bind LineEnding.ofTag?

def LineEnding.toJson : LineEnding → Json
  | .crlf => .str "Crlf"
  | .lf => .str "Lf"

def Options.ofJson? : Decoder Options :=
  recordOf ["map_mode", "line_ending"] fun depth r => do
    return ⟨← r.required "map_mode" asBool?, ← r.required "line_ending" (LineEnding.ofJson? depth)⟩

def Options.toJson (o : Options) : Json :=
  record [("map_mode", .bool o.mapMode), ("line_ending", o.lineEnding.toJson)]

end ScriptLift
