import MacroAssembler.Argument
import MacroAssembler.Body
import MacroAssembler.CallGraph
import MacroAssembler.Code.Chunk
import MacroAssembler.Code.Label
import MacroAssembler.Code.Segment
import MacroAssembler.CommandLine.Report
import MacroAssembler.CommandLine.Run
import MacroAssembler.CommandLine.Settings
import MacroAssembler.Comment
import MacroAssembler.CompilationUnit
import MacroAssembler.CompileError
import MacroAssembler.Declaration
import MacroAssembler.Diagnostic
import MacroAssembler.Disk
import MacroAssembler.Expansion
import MacroAssembler.FileName
import MacroAssembler.Library
import MacroAssembler.Limits
import MacroAssembler.Listing
import MacroAssembler.Main
import MacroAssembler.Numeral
import MacroAssembler.Opcode
import MacroAssembler.Operation
import MacroAssembler.Outcome
import MacroAssembler.Program
import MacroAssembler.Push
import MacroAssembler.Registry
import MacroAssembler.Template.Expression
import MacroAssembler.Template.Resolution
import MacroAssembler.Template.Substitution
import MacroAssembler.Text.Basic
import MacroAssembler.Text.Blank
import MacroAssembler.Text.Cursor
import MacroAssembler.Text.Replace
import MacroAssembler.Text.WordChar
import MacroAssembler.Token.Basic
import MacroAssembler.Token.Lexer
import MacroAssembler.Proofs.ExpansionTree
import MacroAssembler.Proofs.LabelScope
import MacroAssembler.Proofs.Rendering
import MacroAssembler.Proofs.Filling
import MacroAssembler.Proofs.PatchLog
import MacroAssembler.Proofs.Assembly
import MacroAssembler.Proofs.TwoPass
import MacroAssembler.Proofs.Decoding
import MacroAssembler.Proofs.JumpTargets
import MacroAssembler.Proofs.Placeholders
import MacroAssembler.Proofs.LimitMonotone
import MacroAssembler.Proofs.Calls
import MacroAssembler.Proofs.CycleGuard
import MacroAssembler.Proofs.GraphCycles
import MacroAssembler.Proofs.Registration
import MacroAssembler.Proofs.StaticCycles
import MacroAssembler.Proofs.Blanking
import MacroAssembler.Proofs.Declarations
import MacroAssembler.Proofs.Locating
import MacroAssembler.Proofs.Provenance
import MacroAssembler.Proofs.Arguments
import MacroAssembler.Proofs.BodyPrinting
import MacroAssembler.Proofs.RegistryPrinting
import MacroAssembler.Proofs.ExpansionCost
import MacroAssembler.Proofs.CodeLines
import MacroAssembler.Proofs.Inlining
import MacroAssembler.Proofs.UnrelatedMacro
import MacroAssembler.Proofs.Relocation
import MacroAssembler.Proofs.Drafts
import MacroAssembler.Proofs.SizeFolding
import MacroAssembler.Proofs.Concatenation
import MacroAssembler.Proofs.WellFormedness
import MacroAssembler.Proofs.LinkLayout
import MacroAssembler.Proofs.OffsetOverflow
import MacroAssembler.Proofs.LimitThresholds
import MacroAssembler.Proofs.LaterCounts
import MacroAssembler.Proofs.Sessions
import MacroAssembler.Proofs.ShortestCycles
import MacroAssembler.Proofs.ExpressionValues
import MacroAssembler.Proofs.WordReplacement
import MacroAssembler.Proofs.CallShapes
import MacroAssembler.Proofs.LiteralReaders
import MacroAssembler.Proofs.PassedCalls
import MacroAssembler.Proofs.CallTrees
import MacroAssembler.Proofs.Tiling
import MacroAssembler.Proofs.BodyFaults
import MacroAssembler.Proofs.TokenSpacing
import MacroAssembler.Proofs.CommentRegions
import MacroAssembler.Proofs.PushEncoding
import MacroAssembler.Proofs.DepthFirst
import MacroAssembler.Proofs.Flattening
import MacroAssembler.Proofs.LineLocation
import MacroAssembler.Proofs.SlotFilling
import MacroAssembler.Proofs.CharBoundaries
import MacroAssembler.Proofs.CursorWindow
import MacroAssembler.Proofs.RegistryIndexes
