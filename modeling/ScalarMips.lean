import ScalarMips.Main
import ScalarMips.Arena
import ScalarMips.Layout.Registry
import ScalarMips.Proofs.Grammatical
import ScalarMips.Proofs.ScopeLaws
import ScalarMips.Proofs.ArenaRefinement
import ScalarMips.Proofs.Scoping
import ScalarMips.Proofs.TypeCheck
import ScalarMips.Proofs.Lexical
import ScalarMips.Proofs.Flattening
import ScalarMips.Proofs.FlatTyping
import ScalarMips.Proofs.Acceptance
import ScalarMips.Proofs.Storage
import ScalarMips.Proofs.Lowering
import ScalarMips.Proofs.Machine
import ScalarMips.Proofs.Semantics
import ScalarMips.Proofs.Execution
import ScalarMips.Proofs.Labels
import ScalarMips.Proofs.Frames
import ScalarMips.Proofs.ExprSimulation
import ScalarMips.Proofs.StmtSimulation
import ScalarMips.Proofs.FrameSlots
import ScalarMips.Proofs.CallSimulation
import ScalarMips.Proofs.StackRoom
import ScalarMips.Proofs.TypeSafety
import ScalarMips.Proofs.ConstantCode
import ScalarMips.Proofs.Preservation
import ScalarMips.Proofs.UniqueLabels
import ScalarMips.Proofs.ControlFlow
import ScalarMips.Proofs.Histories
import ScalarMips.Proofs.Sources
import ScalarMips.Proofs.Activations
import ScalarMips.Proofs.ExprLoads
import ScalarMips.Proofs.StmtLoads
import ScalarMips.Proofs.CallLoads
import ScalarMips.Proofs.LoadSafety
import ScalarMips.Proofs.ExpressionReading
import ScalarMips.Proofs.ProgramReading
import ScalarMips.Proofs.NameRules
import ScalarMips.Proofs.Outlines
import ScalarMips.Proofs.Points
import ScalarMips.Proofs.NameTracking
import ScalarMips.Proofs.NameDecision
import ScalarMips.Proofs.Lexemes
import ScalarMips.Proofs.StackHeights
import ScalarMips.Proofs.StackDiscipline
import ScalarMips.Proofs.Unplaced
import ScalarMips.Proofs.UnplacedReading
import ScalarMips.Proofs.UnplacedChecks
import ScalarMips.Proofs.Formatting
import ScalarMips.Proofs.Respelling
import ScalarMips.Proofs.RespelledCode
import ScalarMips.Proofs.LocalNames
import ScalarMips.Proofs.SymbolTables
import ScalarMips.Proofs.ExactConstants
import ScalarMips.Proofs.InitialValues
import ScalarMips.Proofs.Completions
import ScalarMips.Proofs.ExpressionRefusals
import ScalarMips.Proofs.StatementRefusals
import ScalarMips.Proofs.FirstFault
import ScalarMips.Proofs.FrameSizes
import ScalarMips.Proofs.TypedCalls
import ScalarMips.Proofs.CallingConvention
import ScalarMips.Proofs.Positions
import ScalarMips.Proofs.TokenSpans
import ScalarMips.Proofs.Phrases
import ScalarMips.Proofs.TreeSpans
import ScalarMips.Proofs.CallTargets
import ScalarMips.Proofs.CursorParsing
import ScalarMips.Proofs.EditDistance
import ScalarMips.Proofs.Suggestions
import ScalarMips.Proofs.Cascades
import ScalarMips.Proofs.IntegerLiterals
import ScalarMips.Proofs.Spacing
import ScalarMips.Proofs.Alignment
import ScalarMips.Proofs.OptionOrder
import ScalarMips.Proofs.SessionEffects
import ScalarMips.Proofs.Annotation
import ScalarMips.Proofs.RegistryRefinement
