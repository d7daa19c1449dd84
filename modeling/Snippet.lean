import Snippet.Budget
import Snippet.CommandLine
import Snippet.Config
import Snippet.Engine
import Snippet.Idiom
import Snippet.Json.Basic
import Snippet.Json.Form
import Snippet.Json.Reader
import Snippet.Json.Writer
import Snippet.Main
import Snippet.MediaType
import Snippet.Number.Binary
import Snippet.Number.Decimal
import Snippet.Number.Notation
import Snippet.Number.Reader
import Snippet.Pattern
import Snippet.Proofs.ArrayCap
import Snippet.Proofs.SizeCap
import Snippet.Proofs.ArraySort
import Snippet.Proofs.ArrayStore
import Snippet.Proofs.MovedSource
import Snippet.Proofs.CallCommand
import Snippet.Proofs.CallDepth
import Snippet.Proofs.CallNesting
import Snippet.Proofs.CallSequence
import Snippet.Proofs.CallTrace
import Snippet.Proofs.CircularJson
import Snippet.Proofs.ClockTime
import Snippet.Proofs.Concatenation
import Snippet.Proofs.Consistency
import Snippet.Proofs.ConsoleCalls
import Snippet.Proofs.ConsoleFormat
import Snippet.Proofs.Constants
import Snippet.Proofs.CutText
import Snippet.Proofs.DataSource
import Snippet.Proofs.DataTokens
import Snippet.Proofs.DataTree
import Snippet.Proofs.DigitSeparator
import Snippet.Proofs.EnclosedText
import Snippet.Proofs.Ending
import Snippet.Proofs.ErrorText
import Snippet.Proofs.History
import Snippet.Proofs.Holding
import Snippet.Proofs.IdiomClaims
import Snippet.Proofs.InputLines
import Snippet.Proofs.InputOrder
import Snippet.Proofs.InstanceOf
import Snippet.Proofs.Interpolation
import Snippet.Proofs.JsonKeys
import Snippet.Proofs.JsonReading
import Snippet.Proofs.JsonRoundTrip
import Snippet.Proofs.JsonWritten
import Snippet.Proofs.JumpBoundary
import Snippet.Proofs.LoopHead
import Snippet.Proofs.LoopRounds
import Snippet.Proofs.LoopVariable
import Snippet.Proofs.LooseJump
import Snippet.Proofs.MemberKeys
import Snippet.Proofs.MergeSort
import Snippet.Proofs.MovedText
import Snippet.Proofs.NearestNumber
import Snippet.Proofs.Nesting
import Snippet.Proofs.NumberRing
import Snippet.Proofs.NumberText
import Snippet.Proofs.ObjectCopy
import Snippet.Proofs.ObjectKeys
import Snippet.Proofs.OperandReading
import Snippet.Proofs.OperatorTree
import Snippet.Proofs.OptionalChain
import Snippet.Proofs.OwnName
import Snippet.Proofs.PairedParser
import Snippet.Proofs.PairedReading
import Snippet.Proofs.ParenthesizedOperand
import Snippet.Proofs.ParserProgress
import Snippet.Proofs.Part
import Snippet.Proofs.PartHeight
import Snippet.Proofs.PatternAssignment
import Snippet.Proofs.PatternPath
import Snippet.Proofs.PatternReading
import Snippet.Proofs.Persistence
import Snippet.Proofs.PrecedenceReading
import Snippet.Proofs.PrintedForm
import Snippet.Proofs.PrintedInteger
import Snippet.Proofs.PrintedLiteral
import Snippet.Proofs.PrintedSource
import Snippet.Proofs.Quiet
import Snippet.Proofs.QuietBuiltin
import Snippet.Proofs.QuietMember
import Snippet.Proofs.QuietMethod
import Snippet.Proofs.QuotedText
import Snippet.Proofs.RadixDigits
import Snippet.Proofs.RandomState
import Snippet.Proofs.Reading
import Snippet.Proofs.ReadingExpression
import Snippet.Proofs.ReadingStatement
import Snippet.Proofs.Refinement
import Snippet.Proofs.Requests
import Snippet.Proofs.ScanTranscript
import Snippet.Proofs.ScopeApart
import Snippet.Proofs.ScopeBinding
import Snippet.Proofs.SearchMethods
import Snippet.Proofs.SettledReport
import Snippet.Proofs.Silence
import Snippet.Proofs.Simulation
import Snippet.Proofs.SimulationCall
import Snippet.Proofs.SimulationExpression
import Snippet.Proofs.SimulationStatement
import Snippet.Proofs.SlicePartition
import Snippet.Proofs.SourceLine
import Snippet.Proofs.StatementEnd
import Snippet.Proofs.StatementLine
import Snippet.Proofs.Steady
import Snippet.Proofs.StoredName
import Snippet.Proofs.StoredNumber
import Snippet.Proofs.StoredValue
import Snippet.Proofs.SubstitutionSource
import Snippet.Proofs.SyntaxFault
import Snippet.Proofs.TargetVisits
import Snippet.Proofs.Termination
import Snippet.Proofs.TextCap
import Snippet.Proofs.TextProgress
import Snippet.Proofs.TextRing
import Snippet.Proofs.TextRoutes
import Snippet.Proofs.TextSearch
import Snippet.Proofs.TextSteps
import Snippet.Proofs.Timeout
import Snippet.Proofs.TimerOrder
import Snippet.Proofs.TimerRun
import Snippet.Proofs.TokenProgress
import Snippet.Proofs.TokenText
import Snippet.Proofs.TreeHeight
import Snippet.Proofs.TryCourse
import Snippet.Proofs.UnreadInput
import Snippet.Proofs.Unwinding
import Snippet.Proofs.Upholding
import Snippet.Proofs.UpholdingArray
import Snippet.Proofs.UpholdingCall
import Snippet.Proofs.UpholdingScript
import Snippet.Proofs.VariableAssignment
import Snippet.Proofs.VariableName
import Snippet.Proofs.VariableScope
import Snippet.Proofs.VariableStore
import Snippet.Proofs.VariableValue
import Snippet.Proofs.WholePart
import Snippet.Proofs.WrittenTokens
import Snippet.Report
import Snippet.Route
import Snippet.Scan.Arguments
import Snippet.Scan.Cpp
import Snippet.Scan.Directive
import Snippet.Scan.Grammar
import Snippet.Scan.Java
import Snippet.Scan.Literal
import Snippet.Scan.Python
import Snippet.Scan.Scanner
import Snippet.Scan.Split
import Snippet.Scan.Term
import Snippet.Script.ArrayMethod
import Snippet.Script.Builtin
import Snippet.Script.BuiltinCall
import Snippet.Script.Call
import Snippet.Script.Convert
import Snippet.Script.Evaluator
import Snippet.Script.Expression
import Snippet.Script.Fault
import Snippet.Script.Format
import Snippet.Script.Heap
import Snippet.Script.Height
import Snippet.Script.Inspect
import Snippet.Script.JsonText
import Snippet.Script.Lexer
import Snippet.Script.Machine
import Snippet.Script.Member
import Snippet.Script.Numeral
import Snippet.Script.Operator
import Snippet.Script.Parser
import Snippet.Script.Program
import Snippet.Script.Random
import Snippet.Script.Sort
import Snippet.Script.Statement
import Snippet.Script.StringMethod
import Snippet.Script.Timers
import Snippet.Script.Token
import Snippet.Script.Transcript
import Snippet.Script.Tree
import Snippet.Script.Value
import Snippet.Service
import Snippet.Stdin
import Snippet.Text.Blank
import Snippet.Text.Case
import Snippet.Text.CaseTable
import Snippet.Text.Cased
import Snippet.Text.CharSet
import Snippet.Text.Escape
import Snippet.Text.Letter
import Snippet.Text.Lines
import Snippet.Text.Search
import Snippet.Text.Word
