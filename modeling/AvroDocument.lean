import AvroDocument.Binary.Container
import AvroDocument.Binary.Identifier
import AvroDocument.Binary.Layout
import AvroDocument.Binary.Reader
import AvroDocument.Binary.Varint
import AvroDocument.Binary.Word
import AvroDocument.Binary.Writer
import AvroDocument.Binary64
import AvroDocument.Binary64.Text
import AvroDocument.Calendar
import AvroDocument.Calendar.Iso
import AvroDocument.Calendar.Pattern
import AvroDocument.Calendar.Zone
import AvroDocument.Coercion
import AvroDocument.Coercion.Reading
import AvroDocument.CommandLine
import AvroDocument.CommandLine.Arguments
import AvroDocument.CommandLine.Word
import AvroDocument.Compatibility
import AvroDocument.Conversion
import AvroDocument.Decimal
import AvroDocument.Decoding
import AvroDocument.Documents
import AvroDocument.Encoding
import AvroDocument.Failure
import AvroDocument.Feed
import AvroDocument.Folder
import AvroDocument.Inference
import AvroDocument.Inference.Naming
import AvroDocument.Inference.Outline
import AvroDocument.Inference.Shape
import AvroDocument.Inference.Widening
import AvroDocument.Json
import AvroDocument.Json.Reader
import AvroDocument.Json.Writer
import AvroDocument.Main
import AvroDocument.Options
import AvroDocument.Pointer
import AvroDocument.Power
import AvroDocument.Proofs.Acceptance
import AvroDocument.Proofs.Agreement
import AvroDocument.Proofs.Algebra
import AvroDocument.Proofs.Association
import AvroDocument.Proofs.Bookkeeping
import AvroDocument.Proofs.Bounds
import AvroDocument.Proofs.Bytes
import AvroDocument.Proofs.Civil
import AvroDocument.Proofs.Classes
import AvroDocument.Proofs.Comparison
import AvroDocument.Proofs.Completion
import AvroDocument.Proofs.Conformance
import AvroDocument.Proofs.ContainerPath
import AvroDocument.Proofs.Containers
import AvroDocument.Proofs.Counting
import AvroDocument.Proofs.Culprits
import AvroDocument.Proofs.DecimalFields
import AvroDocument.Proofs.Decisions
import AvroDocument.Proofs.Declarations
import AvroDocument.Proofs.DeclaredKeys
import AvroDocument.Proofs.DefaultValues
import AvroDocument.Proofs.Defaults
import AvroDocument.Proofs.DocumentText
import AvroDocument.Proofs.DottedNames
import AvroDocument.Proofs.Endings
import AvroDocument.Proofs.Equality
import AvroDocument.Proofs.ExactNumbers
import AvroDocument.Proofs.Exactness
import AvroDocument.Proofs.Extent
import AvroDocument.Proofs.FaithfulReading
import AvroDocument.Proofs.FaultyLines
import AvroDocument.Proofs.FieldKeys
import AvroDocument.Proofs.Fixpoint
import AvroDocument.Proofs.Framing
import AvroDocument.Proofs.FullNames
import AvroDocument.Proofs.Grammar
import AvroDocument.Proofs.Identifiers
import AvroDocument.Proofs.InlinedForms
import AvroDocument.Proofs.Inlining
import AvroDocument.Proofs.Interchange
import AvroDocument.Proofs.Interruption
import AvroDocument.Proofs.IsoText
import AvroDocument.Proofs.JsonLines
import AvroDocument.Proofs.JsonText
import AvroDocument.Proofs.KeyNames
import AvroDocument.Proofs.Layouts
import AvroDocument.Proofs.Leftovers
import AvroDocument.Proofs.Limits
import AvroDocument.Proofs.Literals
import AvroDocument.Proofs.LocalTimes
import AvroDocument.Proofs.LongIntegers
import AvroDocument.Proofs.Matching
import AvroDocument.Proofs.Naming
import AvroDocument.Proofs.NormalForms
import AvroDocument.Proofs.Nullability
import AvroDocument.Proofs.NumberText
import AvroDocument.Proofs.Observation
import AvroDocument.Proofs.Obstacles
import AvroDocument.Proofs.OrderIndependence
import AvroDocument.Proofs.OutlineOrder
import AvroDocument.Proofs.OutlineSchema
import AvroDocument.Proofs.Outlining
import AvroDocument.Proofs.Parts
import AvroDocument.Proofs.PassedOver
import AvroDocument.Proofs.Places
import AvroDocument.Proofs.Pointers
import AvroDocument.Proofs.Preparation
import AvroDocument.Proofs.ProjectedResults
import AvroDocument.Proofs.Projection
import AvroDocument.Proofs.ReadBack
import AvroDocument.Proofs.ReadDepth
import AvroDocument.Proofs.Reconciliation
import AvroDocument.Proofs.RecordResults
import AvroDocument.Proofs.Recovery
import AvroDocument.Proofs.References
import AvroDocument.Proofs.Regular
import AvroDocument.Proofs.Reinference
import AvroDocument.Proofs.Resolution
import AvroDocument.Proofs.Revision
import AvroDocument.Proofs.RoundTrip
import AvroDocument.Proofs.Rounding
import AvroDocument.Proofs.Sampling
import AvroDocument.Proofs.ScalarReading
import AvroDocument.Proofs.ScalarStability
import AvroDocument.Proofs.SchemaWalks
import AvroDocument.Proofs.SelfComparison
import AvroDocument.Proofs.Shapes
import AvroDocument.Proofs.Shortest
import AvroDocument.Proofs.Shown
import AvroDocument.Proofs.Shuffling
import AvroDocument.Proofs.SinglePrecision
import AvroDocument.Proofs.SpelledNumbers
import AvroDocument.Proofs.Stability
import AvroDocument.Proofs.Steps
import AvroDocument.Proofs.Storage
import AvroDocument.Proofs.StrictReading
import AvroDocument.Proofs.Texts
import AvroDocument.Proofs.Trees
import AvroDocument.Proofs.Truncation
import AvroDocument.Proofs.TypedData
import AvroDocument.Proofs.View
import AvroDocument.Proofs.Walks
import AvroDocument.Proofs.WellFormed
import AvroDocument.Proofs.Within
import AvroDocument.Proofs.WrittenEnds
import AvroDocument.Schema
import AvroDocument.Schema.Check
import AvroDocument.Schema.Normal
import AvroDocument.Schema.Registry
import AvroDocument.Text.Base64
import AvroDocument.Text.Blank
import AvroDocument.Text.Cased
import AvroDocument.Text.Digit
import AvroDocument.Text.Lower
import AvroDocument.Text.Numeral
import AvroDocument.Text.Printable
import AvroDocument.Text.Quoted
import AvroDocument.Text.Split
import AvroDocument.Text.Utf8
import AvroDocument.Value
import AvroDocument.Value.Display
import AvroDocument.Value.Text
