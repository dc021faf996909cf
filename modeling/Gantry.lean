import Gantry.Algebra.Coefficient
import Gantry.Algebra.Derivative
import Gantry.Algebra.Engine
import Gantry.Algebra.Expr
import Gantry.Algebra.Function
import Gantry.Algebra.Product
import Gantry.Algebra.Radical
import Gantry.Algebra.Reader
import Gantry.Algebra.Sign
import Gantry.Algebra.SortKey
import Gantry.Algebra.Sum
import Gantry.Algebra.Text
import Gantry.Binary64
import Gantry.Binary64.Rounding
import Gantry.Calibration.Basic
import Gantry.Calibration.Document
import Gantry.Calibration.Normalization
import Gantry.Calibration.Refinement
import Gantry.Code.Basic
import Gantry.Code.Reader
import Gantry.Decimal.Digits
import Gantry.Decimal.Layout
import Gantry.Decimal.Reader
import Gantry.Decimal.Shortest
import Gantry.Document.Datum
import Gantry.Document.Reader
import Gantry.Document.Writer
import Gantry.Fault
import Gantry.Formula.Basic
import Gantry.Formula.Evaluation
import Gantry.Formula.Grammar
import Gantry.Formula.Listing
import Gantry.Formula.Operation
import Gantry.Formula.Reader
import Gantry.Formula.Text
import Gantry.Formula.Token
import Gantry.Formula.Value
import Gantry.Frame.Basic
import Gantry.Frame.Calibration
import Gantry.Frame.Document
import Gantry.Frame.Drive
import Gantry.Frame.Walk
import Gantry.Memo.Evaluator
import Gantry.Memo.Optimize
import Gantry.Memo.Script
import Gantry.Memo.Table
import Gantry.Network.Activation
import Gantry.Network.Basic
import Gantry.Network.Document
import Gantry.Network.Evaluation
import Gantry.Network.Failure
import Gantry.Network.Layer
import Gantry.Network.Loss
import Gantry.Number
import Gantry.Proofs.Algebra.Affine
import Gantry.Proofs.Algebra.Brackets
import Gantry.Proofs.Algebra.Depth
import Gantry.Proofs.Algebra.Derivative
import Gantry.Proofs.Algebra.Engine
import Gantry.Proofs.Algebra.Equality
import Gantry.Proofs.Algebra.Formation
import Gantry.Proofs.Algebra.Forms
import Gantry.Proofs.Algebra.Functions
import Gantry.Proofs.Algebra.Legibility
import Gantry.Proofs.Algebra.Phrase
import Gantry.Proofs.Algebra.Polynomial
import Gantry.Proofs.Algebra.Power
import Gantry.Proofs.Algebra.Product
import Gantry.Proofs.Algebra.Readers
import Gantry.Proofs.Algebra.Shape
import Gantry.Proofs.Algebra.Slopes
import Gantry.Proofs.Algebra.Sum
import Gantry.Proofs.Algebra.Text
import Gantry.Proofs.Algebra.Wording
import Gantry.Proofs.Calibration.Contraction
import Gantry.Proofs.Calibration.Numerics
import Gantry.Proofs.Calibration.Persistence
import Gantry.Proofs.Code.Agreement
import Gantry.Proofs.Code.Quoting
import Gantry.Proofs.Code.Reading
import Gantry.Proofs.Decimal.Numeral
import Gantry.Proofs.Decimal.Shortest
import Gantry.Proofs.Document.Quoting
import Gantry.Proofs.Document.RoundTrip
import Gantry.Proofs.Formula.Admission
import Gantry.Proofs.Formula.Arithmetic
import Gantry.Proofs.Formula.Depth
import Gantry.Proofs.Formula.Derivation
import Gantry.Proofs.Formula.Evaluation
import Gantry.Proofs.Formula.Failure
import Gantry.Proofs.Formula.Grouping
import Gantry.Proofs.Formula.Holding
import Gantry.Proofs.Formula.Lexemes
import Gantry.Proofs.Formula.Literals
import Gantry.Proofs.Formula.Lookahead
import Gantry.Proofs.Formula.Negation
import Gantry.Proofs.Formula.Numbers
import Gantry.Proofs.Formula.Parsing
import Gantry.Proofs.Formula.Reading
import Gantry.Proofs.Formula.Rendering
import Gantry.Proofs.Formula.Replacement
import Gantry.Proofs.Formula.RoundTrip
import Gantry.Proofs.Formula.Sameness
import Gantry.Proofs.Formula.Scanning
import Gantry.Proofs.Formula.Signs
import Gantry.Proofs.Formula.Spelling
import Gantry.Proofs.Formula.Structure
import Gantry.Proofs.Formula.Values
import Gantry.Proofs.Formula.Words
import Gantry.Proofs.Frame.Accuracy
import Gantry.Proofs.Frame.Direction
import Gantry.Proofs.Frame.Independence
import Gantry.Proofs.Frame.Persistence
import Gantry.Proofs.Frame.Positions
import Gantry.Proofs.Frame.Range
import Gantry.Proofs.Frame.Scaling
import Gantry.Proofs.Frame.Standstill
import Gantry.Proofs.Frame.Walk
import Gantry.Proofs.Memo.Agreement
import Gantry.Proofs.Memo.Arithmetic
import Gantry.Proofs.Memo.Capture
import Gantry.Proofs.Memo.Compilation
import Gantry.Proofs.Memo.Condensation
import Gantry.Proofs.Memo.Effect
import Gantry.Proofs.Memo.Entries
import Gantry.Proofs.Memo.Execution
import Gantry.Proofs.Memo.Expansion
import Gantry.Proofs.Memo.History
import Gantry.Proofs.Memo.Invariants
import Gantry.Proofs.Memo.Lookup
import Gantry.Proofs.Memo.Nesting
import Gantry.Proofs.Memo.Optimization
import Gantry.Proofs.Memo.Preservation
import Gantry.Proofs.Memo.Reduction
import Gantry.Proofs.Memo.Reoptimization
import Gantry.Proofs.Memo.Rollback
import Gantry.Proofs.Memo.Scripts
import Gantry.Proofs.Memo.Selection
import Gantry.Proofs.Memo.Sharing
import Gantry.Proofs.Memo.Table
import Gantry.Proofs.Memo.Texts
import Gantry.Proofs.Network.Assignment
import Gantry.Proofs.Network.Breadth
import Gantry.Proofs.Network.Exactness
import Gantry.Proofs.Network.History
import Gantry.Proofs.Network.Likeness
import Gantry.Proofs.Network.Linear
import Gantry.Proofs.Network.Names
import Gantry.Proofs.Network.Rendering
import Gantry.Proofs.Network.Restoration
import Gantry.Proofs.Network.Scope
import Gantry.Proofs.Network.Stack
import Gantry.Proofs.Network.Structure
import Gantry.Proofs.Network.Texts
import Gantry.Proofs.Network.Weights
import Gantry.Proofs.Number.Arithmetic
import Gantry.Proofs.Number.Equality
import Gantry.Proofs.Number.Exact
import Gantry.Proofs.Number.Monotone
import Gantry.Proofs.Number.Order
import Gantry.Proofs.Number.Packing
import Gantry.Proofs.Number.Quotient
import Gantry.Proofs.Number.Rounding
import Gantry.Proofs.Number.Sign
import Gantry.Proofs.Number.Word
import Gantry.Proofs.Random.Generator
import Gantry.Proofs.Training.Atomicity
import Gantry.Proofs.Training.Compilation
import Gantry.Proofs.Training.Course
import Gantry.Proofs.Training.Epoch
import Gantry.Proofs.Training.Exactness
import Gantry.Proofs.Training.Finiteness
import Gantry.Proofs.Training.Fitting
import Gantry.Proofs.Training.Lifetime
import Gantry.Proofs.Training.Numerics
import Gantry.Proofs.Training.Permutation
import Gantry.Proofs.Training.ReportedLoss
import Gantry.Proofs.Training.Stopping
import Gantry.Random.Generator
import Gantry.Random.Normal
import Gantry.Random.Seed
import Gantry.Random.Stream
import Gantry.Scalar
import Gantry.Sorting
import Gantry.Text.Blank
import Gantry.Text.Digit
import Gantry.Text.Identifier
import Gantry.Text.Printable
import Gantry.Text.Quoted
import Gantry.Text.Ranges
import Gantry.Training.Descent
import Gantry.Training.Fit
import Gantry.Training.Options
