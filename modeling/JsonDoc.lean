import JsonDoc.Diagnostic.Render
import JsonDoc.Document
import JsonDoc.Proofs.Binary64.Nearest
import JsonDoc.Proofs.Building.Acceptance
import JsonDoc.Proofs.Building.Consistency
import JsonDoc.Proofs.Building.Denotation
import JsonDoc.Proofs.Building.Feeding
import JsonDoc.Proofs.Building.WellFormed
import JsonDoc.Proofs.Decimal.Reading
import JsonDoc.Proofs.Decimal.Writing
import JsonDoc.Proofs.Number.LongestMatch
import JsonDoc.Proofs.Number.Radix
import JsonDoc.Proofs.Number.Recognition
import JsonDoc.Proofs.Number.Spelling
import JsonDoc.Proofs.Number.Token
import JsonDoc.Proofs.Reading.DepthLimit
import JsonDoc.Proofs.Reading.Discipline
import JsonDoc.Proofs.Reading.Level
import JsonDoc.Proofs.Reading.Order
import JsonDoc.Proofs.Reading.Progress
import JsonDoc.Proofs.Reading.Recursion
import JsonDoc.Proofs.Reading.Stability
import JsonDoc.Proofs.Schema.BranchOrder
import JsonDoc.Proofs.Schema.Decision
import JsonDoc.Proofs.Schema.DepthLimit
import JsonDoc.Proofs.Schema.Erasure
import JsonDoc.Proofs.Schema.FailFast
import JsonDoc.Proofs.Schema.FaultPlaces
import JsonDoc.Proofs.Schema.Filling
import JsonDoc.Proofs.Schema.FillingItems
import JsonDoc.Proofs.Schema.FillingLevel
import JsonDoc.Proofs.Schema.FillingMembers
import JsonDoc.Proofs.Schema.Idempotence
import JsonDoc.Proofs.Schema.Injection
import JsonDoc.Proofs.Schema.Keywords
import JsonDoc.Proofs.Schema.Leaving
import JsonDoc.Proofs.Schema.Meaning
import JsonDoc.Proofs.Schema.MultipleOf
import JsonDoc.Proofs.Schema.Passing
import JsonDoc.Proofs.Schema.Refilling
import JsonDoc.Proofs.Schema.Reports
import JsonDoc.Proofs.Schema.Settled
import JsonDoc.Proofs.Schema.SingleViolation
import JsonDoc.Proofs.Schema.UniqueItems
import JsonDoc.Proofs.Schema.Validator
import JsonDoc.Proofs.Schema.ViolationPlaces
import JsonDoc.Proofs.Streaming.Completion
import JsonDoc.Proofs.Streaming.Failure
import JsonDoc.Proofs.Streaming.Framing
import JsonDoc.Proofs.Streaming.TokenCompletion
import JsonDoc.Proofs.Syntax.Content
import JsonDoc.Proofs.Syntax.ControlBytes
import JsonDoc.Proofs.Syntax.Derivation
import JsonDoc.Proofs.Syntax.Recognition
import JsonDoc.Proofs.Syntax.Relaxed
import JsonDoc.Proofs.Syntax.RelaxedComplete
import JsonDoc.Proofs.Syntax.RelaxedRecognition
import JsonDoc.Proofs.Syntax.Strict
import JsonDoc.Proofs.Syntax.StrictInRelaxed
import JsonDoc.Proofs.Syntax.StrictToken
import JsonDoc.Proofs.Syntax.Tiling
import JsonDoc.Proofs.Text.Positions
import JsonDoc.Proofs.Text.Spelling
import JsonDoc.Proofs.Tree.Datum
import JsonDoc.Proofs.Tree.Equality
import JsonDoc.Proofs.Tree.Extension
import JsonDoc.Proofs.Tree.Leaves
import JsonDoc.Proofs.Tree.Pointer
import JsonDoc.Proofs.Writer.Canonical
import JsonDoc.Proofs.Writer.Interchange
import JsonDoc.Proofs.Writer.KeyOrder
import JsonDoc.Proofs.Writer.Number
import JsonDoc.Proofs.Writer.RoundTrip
import JsonDoc.Schema.Validator
import JsonDoc.Tree.Datum
import JsonDoc.Writer.Yaml
