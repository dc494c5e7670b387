import SparsePoly.Main
import SparsePoly.Command.Workspace
import SparsePoly.Value
import SparsePoly.Proofs.Precedence
import SparsePoly.Proofs.Exponents
import SparsePoly.Proofs.Meaning
import SparsePoly.Proofs.Sum
import SparsePoly.Proofs.Combine
import SparsePoly.Proofs.Product
import SparsePoly.Proofs.Grammar
import SparsePoly.Proofs.Reading
import SparsePoly.Proofs.Language
import SparsePoly.Proofs.RoundTrip
import SparsePoly.Proofs.Reachable
import SparsePoly.Proofs.Exact
import SparsePoly.Proofs.Sorting
import SparsePoly.Proofs.Evaluation
import SparsePoly.Proofs.Lines
import SparsePoly.Proofs.Quoting
import SparsePoly.Proofs.Answers
import SparsePoly.Proofs.Batch
import SparsePoly.Proofs.Concatenation
import SparsePoly.Proofs.Uniqueness
import SparsePoly.Proofs.ExpressionLines
import SparsePoly.Proofs.FailFast
import SparsePoly.Proofs.Decoding
import SparsePoly.Proofs.Capacity
import SparsePoly.Proofs.RingLaws
import SparsePoly.Proofs.Streaming
import SparsePoly.Proofs.Effects
import SparsePoly.Proofs.Extremes
import SparsePoly.Proofs.Faults
import SparsePoly.Proofs.Degrees
import SparsePoly.Proofs.Differences
import SparsePoly.Proofs.Arrangements
import SparsePoly.Proofs.LineEnds
import SparsePoly.Proofs.WrittenExpressions
import SparsePoly.Proofs.ExactTerms
import SparsePoly.Proofs.TermBoundaries
import SparsePoly.Proofs.Tokenization
import SparsePoly.Proofs.Accumulator
