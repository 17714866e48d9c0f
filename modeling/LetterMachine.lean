import LetterMachine.Bank
import LetterMachine.Bank.Json
import LetterMachine.Binary64
import LetterMachine.Binary64.Arithmetic
import LetterMachine.Binary64.Interchange
import LetterMachine.Binary64.OfDecimal
import LetterMachine.Binary64.Shortest
import LetterMachine.Binary64.SixDigits
import LetterMachine.BufferedOutput
import LetterMachine.CommandLine.Files
import LetterMachine.CommandLine.Matches
import LetterMachine.CommandLine.Parser
import LetterMachine.CommandLine.Session
import LetterMachine.Decimal.Digits
import LetterMachine.Decimal.IndexWidth
import LetterMachine.Decimal.Scientific
import LetterMachine.Deque
import LetterMachine.Instruction
import LetterMachine.Json
import LetterMachine.Letter
import LetterMachine.Machine.Control
import LetterMachine.Machine.Event
import LetterMachine.Machine.Failure
import LetterMachine.Machine.Run
import LetterMachine.Machine.Workspace
import LetterMachine.Main
import LetterMachine.Output
import LetterMachine.Palette
import LetterMachine.Program
import LetterMachine.Program.Listing
import LetterMachine.Program.Loops
import LetterMachine.Proofs.Answers
import LetterMachine.Proofs.AsciiText
import LetterMachine.Proofs.BackJumps
import LetterMachine.Proofs.BalancedBrackets
import LetterMachine.Proofs.Blocks
import LetterMachine.Proofs.BoundedOutput
import LetterMachine.Proofs.Brackets
import LetterMachine.Proofs.BufferedRuns
import LetterMachine.Proofs.Changes
import LetterMachine.Proofs.CleanFailures
import LetterMachine.Proofs.Conservation
import LetterMachine.Proofs.DamagedText
import LetterMachine.Proofs.DecimalRounding
import LetterMachine.Proofs.Decoration
import LetterMachine.Proofs.EncodedText
import LetterMachine.Proofs.Frame
import LetterMachine.Proofs.Images
import LetterMachine.Proofs.IndexColumns
import LetterMachine.Proofs.InertRegisters
import LetterMachine.Proofs.InputOutput
import LetterMachine.Proofs.InstructionTable
import LetterMachine.Proofs.IntegersOnly
import LetterMachine.Proofs.InterchangeFormat
import LetterMachine.Proofs.JsonTexts
import LetterMachine.Proofs.KnownOperands
import LetterMachine.Proofs.Listings
import LetterMachine.Proofs.LoopControl
import LetterMachine.Proofs.LoopPrograms
import LetterMachine.Proofs.MinimalRepair
import LetterMachine.Proofs.ModularArithmetic
import LetterMachine.Proofs.Narrowing
import LetterMachine.Proofs.NearestDoubles
import LetterMachine.Proofs.NopErasure
import LetterMachine.Proofs.NopPositions
import LetterMachine.Proofs.NumeralPositions
import LetterMachine.Proofs.Numerals
import LetterMachine.Proofs.PathArgument
import LetterMachine.Proofs.PathFromInput
import LetterMachine.Proofs.Pieces
import LetterMachine.Proofs.PrintedDoubles
import LetterMachine.Proofs.PrintedIntegers
import LetterMachine.Proofs.ProgramFiles
import LetterMachine.Proofs.Readings
import LetterMachine.Proofs.RegisterJson
import LetterMachine.Proofs.Relocation
import LetterMachine.Proofs.Renaming
import LetterMachine.Proofs.Reports
import LetterMachine.Proofs.Reprinting
import LetterMachine.Proofs.ReusedMachines
import LetterMachine.Proofs.RoundedArithmetic
import LetterMachine.Proofs.Sequence
import LetterMachine.Proofs.ShortestDigits
import LetterMachine.Proofs.SignificantDigits
import LetterMachine.Proofs.SourceLines
import LetterMachine.Proofs.StepLimit
import LetterMachine.Proofs.StoredText
import LetterMachine.Proofs.StraightLine
import LetterMachine.Proofs.StraightLoops
import LetterMachine.Proofs.Structured
import LetterMachine.Proofs.TableResults
import LetterMachine.Proofs.TableRun
import LetterMachine.Proofs.TokenNumerals
import LetterMachine.Proofs.TraceAgreement
import LetterMachine.Proofs.Transitions
import LetterMachine.Proofs.UnclosedLoops
import LetterMachine.Proofs.UnmatchedClose
import LetterMachine.Proofs.UnreadInput
import LetterMachine.Proofs.ValueTexts
import LetterMachine.Register
import LetterMachine.Rounding
import LetterMachine.Sink
import LetterMachine.Source
import LetterMachine.Source.Chunked
import LetterMachine.Source.Pieces
import LetterMachine.Text.Utf8
import LetterMachine.Trace
import LetterMachine.Value
import LetterMachine.Value.Text
import LetterMachine.Value.Token
