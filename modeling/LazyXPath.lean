import LazyXPath.Atomic.Basic
import LazyXPath.Atomic.Cast
import LazyXPath.Atomic.Key
import LazyXPath.Binary.Format
import LazyXPath.Binary.Shortest
import LazyXPath.Calendar.Date
import LazyXPath.Calendar.Duration
import LazyXPath.Calendar.Lexical
import LazyXPath.Calendar.Time
import LazyXPath.Decimal.Arithmetic
import LazyXPath.Decimal.Basic
import LazyXPath.Decimal.Binary
import LazyXPath.Decimal.Quotient
import LazyXPath.Decimal.Remainder
import LazyXPath.Decimal.Text
import LazyXPath.Dictionary
import LazyXPath.Error
import LazyXPath.Evaluate
import LazyXPath.Function.Builtin
import LazyXPath.Function.Call
import LazyXPath.Function.Catalog
import LazyXPath.Function.Registry
import LazyXPath.Item
import LazyXPath.ItemType
import LazyXPath.Language
import LazyXPath.Name
import LazyXPath.Operator.Basic
import LazyXPath.Operator.Cache
import LazyXPath.Operator.Numeric
import LazyXPath.Operator.Resolve
import LazyXPath.Operator.Temporal
import LazyXPath.Power
import LazyXPath.Proofs.Run
import LazyXPath.Scope
import LazyXPath.Sequence.Buffer
import LazyXPath.Sequence.Outcome
import LazyXPath.Sequence.Step
import LazyXPath.Session
import LazyXPath.Stream.Basic
import LazyXPath.Stream.Conversion
import LazyXPath.Stream.Effect
import LazyXPath.Stream.Machine
import LazyXPath.Stream.Reading
import LazyXPath.Stream.Reference
import LazyXPath.Text.Alphabet
import LazyXPath.Text.Bytes
import LazyXPath.Text.EditDistance
import LazyXPath.Text.NameForm
import LazyXPath.Tree.Forest
import LazyXPath.Tree.Memo
import LazyXPath.Tree.Order
import LazyXPath.World
import LazyXPath.Proofs.Combinator
import LazyXPath.Proofs.InOrder
import LazyXPath.Proofs.Zip
import LazyXPath.Proofs.ZipCalls
import LazyXPath.Proofs.Protocol
import LazyXPath.Proofs.Delivery
import LazyXPath.Proofs.Delivery.Combinator
import LazyXPath.Proofs.Delivery.Zip
import LazyXPath.Proofs.Delivery.Conversion
import LazyXPath.Proofs.Production
import LazyXPath.Proofs.Sharing
import LazyXPath.Proofs.Delivery.Cursor
import LazyXPath.Proofs.Delivery.Operation
import LazyXPath.Proofs.Refinement
import LazyXPath.Proofs.Evaluation
import LazyXPath.Proofs.Account
import LazyXPath.Proofs.Tally
import LazyXPath.Proofs.Bounds
import LazyXPath.Proofs.Counting
import LazyXPath.Proofs.Conformance
import LazyXPath.Proofs.Keeping
import LazyXPath.Proofs.Separation
import LazyXPath.Proofs.Separation.Evaluation
import LazyXPath.Proofs.Separation.Machine
import LazyXPath.Proofs.Replay
import LazyXPath.Proofs.Lockstep
import LazyXPath.Proofs.Registration
import LazyXPath.Proofs.Arrival
import LazyXPath.Proofs.Arity
import LazyXPath.Proofs.DynamicCall
import LazyXPath.Proofs.Production.Conversion
import LazyXPath.Proofs.Production.Call
import LazyXPath.Proofs.Overload
import LazyXPath.Proofs.PartialApplication
import LazyXPath.Proofs.OperatorTypes
import LazyXPath.Proofs.OperatorCache
import LazyXPath.Proofs.DocumentOrder
import LazyXPath.Proofs.RoundTrip.Text
import LazyXPath.Proofs.RoundTrip.Bytes
import LazyXPath.Proofs.RoundTrip.Number
import LazyXPath.Proofs.RoundTrip.Calendar
import LazyXPath.Proofs.RoundTrip.Duration
import LazyXPath.Proofs.RoundTrip
import LazyXPath.Proofs.IntegerArithmetic
import LazyXPath.Proofs.Decimal.Quotient
import LazyXPath.Proofs.Decimal.Remainder
import LazyXPath.Proofs.Decimal.Exact
import LazyXPath.Proofs.RoundTrip.DayTime
import LazyXPath.Proofs.Agreement
import LazyXPath.Proofs.Agreement.World
import LazyXPath.Proofs.Agreement.Evaluation
import LazyXPath.Proofs.Agreement.Machine
import LazyXPath.Proofs.UnusedBinding
import LazyXPath.Proofs.TimeLine
import LazyXPath.Proofs.Comparison
import LazyXPath.Proofs.ValueOrder
import LazyXPath.Proofs.Commutation
import LazyXPath.Proofs.Decimal.Nanoseconds
import LazyXPath.Proofs.TimeShift
import LazyXPath.Proofs.MonthShift
import LazyXPath.Proofs.WellFormed
import LazyXPath.Proofs.UpwardCast
import LazyXPath.Proofs.PathOrder
import LazyXPath.Proofs.AxisSteps
import LazyXPath.Proofs.EagerConversion
import LazyXPath.Proofs.ConstantPosition
import LazyXPath.Proofs.FocusSize
import LazyXPath.Proofs.Lookup
import LazyXPath.Proofs.KeyClass
import LazyXPath.Proofs.Dictionary
import LazyXPath.Proofs.KeyEquality
import LazyXPath.Proofs.Production.Truth
import LazyXPath.Proofs.Search
import LazyXPath.Proofs.TruthValue
import LazyXPath.Proofs.BinaryText
import LazyXPath.Proofs.CalendarLiterals
import LazyXPath.Proofs.StringValue
import LazyXPath.Proofs.Decimal.Fit
import LazyXPath.Proofs.DurationLiterals.Form
import LazyXPath.Proofs.DurationLiterals.Reading
import LazyXPath.Proofs.DurationLiterals.Sum
import LazyXPath.Proofs.DurationLiterals
import LazyXPath.Proofs.RepeatedConversion
import LazyXPath.Proofs.EditDistance
