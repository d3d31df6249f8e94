import ScriptLift.Text

/- What a caller chooses about the recovered source. -/
namespace ScriptLift

structure Options where
  /-- Paths of objects in the package start at the level, not at the package. -/
  mapMode : Bool
  lineEnding : LineEnding
deriving DecidableEq

namespace Options

def standard : Options := ⟨false, .crlf⟩

/-- The options that two switches select. -/
def ofSwitches (map lf : Bool) : Options := ⟨map, if lf then .lf else .crlf⟩

end Options

end ScriptLift
