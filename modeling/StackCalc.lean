import StackCalc.Text.Blank
import StackCalc.Text.Pad
import StackCalc.Text.Json
import StackCalc.Decimal.Shortest
import StackCalc.Decimal.Read
import StackCalc.Source.Span
import StackCalc.Source.LineMap
import StackCalc.Token.Kind
import StackCalc.Token.Lexer
import StackCalc.Expr.Basic
import StackCalc.Expr.Printer
import StackCalc.Expr.Parser
import StackCalc.Value.Basic
import StackCalc.Value.Literal
import StackCalc.Code.Opcode
import StackCalc.Code.Chunk
import StackCalc.Code.Listing
import StackCalc.Lowering
import StackCalc.Text.Output
import StackCalc.Machine.Basic
import StackCalc.Report.Basic
import StackCalc.Report.Text
import StackCalc.Report.Json
import StackCalc.Report.Catalogue
import StackCalc.Report.Render
import StackCalc.Run
import StackCalc.Session
import StackCalc.Directory
import StackCalc.CommandLine.Options
import StackCalc.CommandLine.Basic
import StackCalc.Main
import StackCalc.Proofs.Chunk
import StackCalc.Proofs.Evaluation
import StackCalc.Proofs.Grammar
import StackCalc.Proofs.GrammarTree
import StackCalc.Proofs.Parsing
import StackCalc.Proofs.Places
import StackCalc.Proofs.RuntimeErrors
import StackCalc.Proofs.Lexeme
import StackCalc.Proofs.LineMap
import StackCalc.Proofs.Tiling
import StackCalc.Proofs.Flattening
import StackCalc.Proofs.Verdict
import StackCalc.Proofs.Output
import StackCalc.Proofs.Trace
import StackCalc.Proofs.Boundaries
import StackCalc.Proofs.NodeSpans
import StackCalc.Proofs.Transcript
import StackCalc.Proofs.Typing
import StackCalc.Proofs.Relocation
import StackCalc.Proofs.ScanErrors
import StackCalc.Proofs.Literals
import StackCalc.Proofs.LoweringErrors
import StackCalc.Proofs.SameTokens
import StackCalc.Proofs.Layout
import StackCalc.Proofs.ParseErrors
import StackCalc.Proofs.DecidedRuns
import StackCalc.Proofs.ConstantPool
import StackCalc.Proofs.ErrorPositions
import StackCalc.Proofs.IntegerArithmetic
import StackCalc.Proofs.SingleRun
import StackCalc.Proofs.SourceLines
import StackCalc.Proofs.PolishReading
import StackCalc.Proofs.JsonReading
import StackCalc.Proofs.TreeJson
import StackCalc.Proofs.Carets
import StackCalc.Proofs.Colour
import StackCalc.Proofs.ReportReading
import StackCalc.Proofs.LiteralValues
import StackCalc.Proofs.PrintedIntegers
import StackCalc.Proofs.ListingReading
import StackCalc.Proofs.SessionLines
import StackCalc.Proofs.CommandModes
import StackCalc.Proofs.Walk
import StackCalc.Proofs.Counters
