import ScriptLift.Codec.Options
import ScriptLift.Codec.Package
import ScriptLift.Recovery
import ScriptLift.Command.Run
import ScriptLift.Main
import ScriptLift.Proofs.Collapse
import ScriptLift.Proofs.FlatCode
import ScriptLift.Proofs.Lossless
import ScriptLift.Proofs.Nesting
import ScriptLift.Proofs.Provenance
import ScriptLift.Proofs.BranchExit
import ScriptLift.Proofs.Lowering
import ScriptLift.Proofs.Pass
import ScriptLift.Proofs.Termination
import ScriptLift.Proofs.Stability
import ScriptLift.Proofs.Phases
import ScriptLift.Proofs.Recognition
import ScriptLift.Proofs.CountedLoop
import ScriptLift.Proofs.SwitchExtent
import ScriptLift.Proofs.SwitchChain
import ScriptLift.Proofs.SwitchCases
import ScriptLift.Proofs.Course
import ScriptLift.Proofs.LoopEnd
import ScriptLift.Proofs.SwitchExit
import ScriptLift.Proofs.TextErrors
import ScriptLift.Proofs.ExpressionText
import ScriptLift.Proofs.Rows
import ScriptLift.Proofs.StatementText
import ScriptLift.Proofs.KindOrder
import ScriptLift.Proofs.EnumPlaces
import ScriptLift.Proofs.MapMode
import ScriptLift.Proofs.Leaves
import ScriptLift.Proofs.OneLine
import ScriptLift.Proofs.Decoding
import ScriptLift.Proofs.LineEndings
import ScriptLift.Proofs.RoundTrip
import ScriptLift.Proofs.SwitchSegments
import ScriptLift.Proofs.BrushSearch
import ScriptLift.Proofs.Fitting
import ScriptLift.Proofs.BlockPlaces
import ScriptLift.Proofs.DirectoryErrors
import ScriptLift.Proofs.ExportDepth
import ScriptLift.Proofs.Indentation
import ScriptLift.Proofs.OuterChain
import ScriptLift.Proofs.Ancestry
import ScriptLift.Proofs.EnumSearch
import ScriptLift.Proofs.CompactGroups
import ScriptLift.Proofs.DecimalRounding
import ScriptLift.Proofs.LocalLines
