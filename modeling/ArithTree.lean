import ArithTree.Journal
import ArithTree.Main
import ArithTree.Proofs.WorksheetReading
import ArithTree.Proofs.WorksheetHistory
import ArithTree.Proofs.ExactValues
import ArithTree.Proofs.DigitRuns
import ArithTree.Proofs.DrawnRoot
import ArithTree.Proofs.RepeatedEvaluation
import ArithTree.Proofs.EvaluationReports
import ArithTree.Proofs.ReportSections
import ArithTree.Proofs.CompleteDrawings
import ArithTree.Proofs.KeptResults
import ArithTree.Proofs.Overflows
import ArithTree.Proofs.ZeroDivisors
import ArithTree.Proofs.Exchange
import ArithTree.Proofs.SilentPasses
import ArithTree.Proofs.Neighbours
import ArithTree.Proofs.Obligations
import ArithTree.Proofs.Shortages
import ArithTree.Proofs.Parentheses
import ArithTree.Proofs.Cuts
import ArithTree.Proofs.Successions
import ArithTree.Proofs.Sentences
import ArithTree.Proofs.LongestMatches
import ArithTree.Proofs.Spaces
import ArithTree.Proofs.DecimalPlaces
import ArithTree.Proofs.RightChains
import ArithTree.Proofs.TypedLines
