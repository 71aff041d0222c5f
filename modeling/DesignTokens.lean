import DesignTokens.Main
import DesignTokens.Proofs.Reference.Occurrence
import DesignTokens.Proofs.Reference.Chain
import DesignTokens.Proofs.Reference.Unwinding
import DesignTokens.Proofs.Evaluation
import DesignTokens.Proofs.Diagnostic.Counting
import DesignTokens.Proofs.Resolution.Process
import DesignTokens.Proofs.Reference.Cycle
import DesignTokens.Proofs.Resolution.Cycle
import DesignTokens.Proofs.Engine.Independence
import DesignTokens.Proofs.Reference.Substitution
import DesignTokens.Proofs.Reference.Locality
import DesignTokens.Proofs.Resolution.Locality
import DesignTokens.Proofs.Expression.Call
import DesignTokens.Proofs.Json.Text
import DesignTokens.Proofs.Reference.WholeValue
import DesignTokens.Proofs.Reference.TypedValue
import DesignTokens.Proofs.Resolution.Value
import DesignTokens.Proofs.Engine.Substitution
import DesignTokens.Proofs.Resolution.Alias
import DesignTokens.Proofs.Resolution.Settled
import DesignTokens.Proofs.Engine.Confluence
import DesignTokens.Proofs.Expression.Signature
import DesignTokens.Proofs.Evaluation.Guard
import DesignTokens.Proofs.Evaluation.Outcome
import DesignTokens.Proofs.Reference.Hook
import DesignTokens.Proofs.Resolution.CycleEvaluation
import DesignTokens.Proofs.Resolution.Reentrancy
import DesignTokens.Proofs.KeyedList
import DesignTokens.Proofs.Tree.RoundTrip
import DesignTokens.Proofs.Engine.Document
import DesignTokens.Proofs.Expression.Layout
import DesignTokens.Proofs.Resolution.Passthrough
import DesignTokens.Proofs.Resolution.Diagnostics
import DesignTokens.Proofs.Diagnostic.Recording
import DesignTokens.Proofs.Tree.Walk
import DesignTokens.Proofs.Tree.Paths
import DesignTokens.Proofs.Engine.Walk
import DesignTokens.Proofs.Diagnostic.Retention
import DesignTokens.Proofs.Expression.Quotes
import DesignTokens.Proofs.Expression.Balance
import DesignTokens.Proofs.Expression.Grammar
import DesignTokens.Proofs.Expression.Pieces
import DesignTokens.Proofs.Expression.RoundTrip
import DesignTokens.Proofs.Reference.Filling
import DesignTokens.Proofs.Expression.Filling
import DesignTokens.Proofs.Diagnostic.Warnings
import DesignTokens.Proofs.Engine.Report
import DesignTokens.Proofs.Text.Ends
import DesignTokens.Proofs.Text.Plain
import DesignTokens.Proofs.Text.Pieces
import DesignTokens.Proofs.Catalog.Listing
import DesignTokens.Proofs.Catalog.Registration
import DesignTokens.Proofs.Binary64
import DesignTokens.Proofs.Binary64.Value
import DesignTokens.Proofs.Binary64.Rounding
import DesignTokens.Proofs.Binary64.Arithmetic
import DesignTokens.Proofs.Decimal.Fixed
import DesignTokens.Proofs.Decimal.Numeral
import DesignTokens.Proofs.Color.Notation
import DesignTokens.Proofs.Dimension
import DesignTokens.Proofs.Catalog.Arguments
import DesignTokens.Proofs.Color.Search
import DesignTokens.Proofs.Color.Contrast
import DesignTokens.Proofs.Color.Functional
import DesignTokens.Proofs.Binary64.Interval
import DesignTokens.Proofs.Color.Range
import DesignTokens.Proofs.Color.Luminance
import DesignTokens.Proofs.Color.Readability
import DesignTokens.Proofs.Catalog.MathResults
import DesignTokens.Proofs.Catalog.ColorResults
import DesignTokens.Proofs.Expression.Object
import DesignTokens.Proofs.Catalog.Options
import DesignTokens.Proofs.Reference.Position
import DesignTokens.Proofs.Catalog.Units
import DesignTokens.Proofs.Catalog.Combining
import DesignTokens.Proofs.Catalog.Surplus
import DesignTokens.Proofs.Catalog.Quoting
import DesignTokens.Proofs.Diagnostic.Memory
import DesignTokens.Proofs.Settings.Layers
import DesignTokens.Proofs.Engine.Construction
import DesignTokens.Proofs.Catalog.Defaults
import DesignTokens.Proofs.Binary64.Clamp
import DesignTokens.Proofs.Color.Hexadecimal
import DesignTokens.Proofs.Catalog.Endpoints
import DesignTokens.Proofs.Color.Separators
import DesignTokens.Proofs.Decimal.Grammar
import DesignTokens.Proofs.Decimal.Canonical
import DesignTokens.Proofs.Dimension.Printing
import DesignTokens.Proofs.Dimension.Pattern
import DesignTokens.Proofs.Catalog.Readers
import DesignTokens.Proofs.Color.Component
