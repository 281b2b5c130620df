import InfixArithmetic.Log.Registry
import InfixArithmetic.Main
import InfixArithmetic.Proofs.Literals
import InfixArithmetic.Proofs.Tokens
import InfixArithmetic.Proofs.Reading
import InfixArithmetic.Proofs.Arithmetic
import InfixArithmetic.Proofs.Grouping
import InfixArithmetic.Proofs.Phrase
import InfixArithmetic.Proofs.Balance
import InfixArithmetic.Proofs.Sentence
import InfixArithmetic.Proofs.Postfix
import InfixArithmetic.Proofs.SignScope
import InfixArithmetic.Proofs.SignDivergence
import InfixArithmetic.Proofs.FirstFailure
import InfixArithmetic.Proofs.Rounds
import InfixArithmetic.Proofs.Range
import InfixArithmetic.Proofs.Exchange
import InfixArithmetic.Proofs.Outcomes
import InfixArithmetic.Proofs.Reachable
import InfixArithmetic.Proofs.Conservation
import InfixArithmetic.Proofs.Headroom
import InfixArithmetic.Proofs.Layout
import InfixArithmetic.Proofs.Workers
import InfixArithmetic.Proofs.Decoding
import InfixArithmetic.Proofs.LineBreaks
import InfixArithmetic.Proofs.FileParts
import InfixArithmetic.Proofs.ResultLines
import InfixArithmetic.Proofs.Reports
import InfixArithmetic.Proofs.Termination
import InfixArithmetic.Proofs.Attached
import InfixArithmetic.Proofs.SingleLines
import InfixArithmetic.Proofs.TrimmedLines
import InfixArithmetic.Proofs.PrintedValues
import InfixArithmetic.Proofs.Descriptions
import InfixArithmetic.Proofs.Encoding
import InfixArithmetic.Proofs.NormalForm
import InfixArithmetic.Proofs.ResultsFile
import InfixArithmetic.Proofs.Footprint
import InfixArithmetic.Proofs.Reductions
import InfixArithmetic.Proofs.FailurePlaces
import InfixArithmetic.Proofs.LineNumbers
import InfixArithmetic.Proofs.ResultsName
import InfixArithmetic.Proofs.Loggers
import InfixArithmetic.Proofs.DigitRuns
import InfixArithmetic.Proofs.PendingShape
import InfixArithmetic.Proofs.SharedResults
import InfixArithmetic.Proofs.Quotients
