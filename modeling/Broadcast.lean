import Broadcast.Application
import Broadcast.Binary.Arithmetic
import Broadcast.Binary.Basic
import Broadcast.DType
import Broadcast.DType.Promotion
import Broadcast.Dense
import Broadcast.Elem
import Broadcast.Error
import Broadcast.Evaluation
import Broadcast.Expr
import Broadcast.Fault
import Broadcast.Index
import Broadcast.Kernel
import Broadcast.Kernel.Standard
import Broadcast.Layout
import Broadcast.Lines
import Broadcast.Lines.Reader
import Broadcast.Nary
import Broadcast.Number
import Broadcast.Operand
import Broadcast.Plan
import Broadcast.Pointwise
import Broadcast.Pointwise.Catalogue
import Broadcast.Registry
import Broadcast.Shape
import Broadcast.Text.Quoted
import Broadcast.Value
import Broadcast.View
import Broadcast.Word
import Broadcast.Proofs.Outcome
import Broadcast.Proofs.RowMajor
import Broadcast.Proofs.Evaluators
import Broadcast.Proofs.Addressing
import Broadcast.Proofs.Projection
import Broadcast.Proofs.Storage
import Broadcast.Proofs.Totality
import Broadcast.Proofs.Replacement
import Broadcast.Proofs.CommonShape
import Broadcast.Proofs.IdleAxes
import Broadcast.Proofs.Flattening
import Broadcast.Proofs.Tags
import Broadcast.Proofs.Integers
import Broadcast.Proofs.IntegerKernels
import Broadcast.Proofs.NativeIntegers
import Broadcast.Proofs.WrapOnce
import Broadcast.Proofs.OperandOrder
import Broadcast.Proofs.NarrowestType
import Broadcast.Proofs.PartialJoin
import Broadcast.Proofs.ByteOrder
import Broadcast.Proofs.RegistryRuns
import Broadcast.Proofs.BuildOutcome
import Broadcast.Proofs.Updates
import Broadcast.Proofs.AxisCheck
import Broadcast.Proofs.AxisOrder
import Broadcast.Proofs.EmptyShapes
import Broadcast.Proofs.Selection
import Broadcast.Proofs.Transposition
import Broadcast.Proofs.LineSplitting
import Broadcast.Proofs.NestedPromotion
import Broadcast.Proofs.ReadCounts
import Broadcast.Proofs.IntegerConversion
import Broadcast.Proofs.Shifts
import Broadcast.Proofs.Rounding
import Broadcast.Proofs.SignificantBits
import Broadcast.Proofs.DoubleRounding
import Broadcast.Proofs.FloatToInteger
import Broadcast.Proofs.AxisPermutations
import Broadcast.Proofs.Contiguity
import Broadcast.Proofs.Clipping
import Broadcast.Proofs.Replication
import Broadcast.Proofs.Traversal
import Broadcast.Proofs.AccessPaths
import Broadcast.Proofs.LineRuns
