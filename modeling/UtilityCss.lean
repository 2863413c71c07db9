import UtilityCss.ClassList.Listing
import UtilityCss.ClassList.Outline
import UtilityCss.Config.File
import UtilityCss.Context
import UtilityCss.Proofs.Brackets
import UtilityCss.Proofs.ClassList.Placement
import UtilityCss.Style.Json
import UtilityCss.Proofs.ClassList.Listing
import UtilityCss.Proofs.ClassList.Bare
import UtilityCss.Proofs.ClassList.Scan
import UtilityCss.Proofs.ClassList.RoundTrip
import UtilityCss.Proofs.Evaluation.Wrapper
import UtilityCss.Proofs.Evaluation.Report
import UtilityCss.Proofs.Evaluation.Variant
import UtilityCss.Proofs.ClassList.Shift
import UtilityCss.Proofs.Evaluation.Shift
import UtilityCss.Proofs.ClassList.Chain
import UtilityCss.Proofs.Evaluation.Chain
import UtilityCss.Proofs.Context.Wrap
import UtilityCss.Proofs.Context.Unresolved
import UtilityCss.Proofs.Evaluation.Precedence
import UtilityCss.Proofs.Evaluation.Verdict
import UtilityCss.Proofs.Evaluation.Alike
import UtilityCss.Proofs.Evaluation.Registration
import UtilityCss.Proofs.Evaluation.Fault
import UtilityCss.Proofs.Context.Diagnostics
import UtilityCss.Proofs.Context.Completion
import UtilityCss.Proofs.ClassList.Within
import UtilityCss.Proofs.ClassList.Juxtaposition
import UtilityCss.Proofs.Style.Agreement
import UtilityCss.Proofs.Registry.WellKeyed
import UtilityCss.Proofs.Builtin.WellKeyed
import UtilityCss.Proofs.Evaluation.WellKeyed
import UtilityCss.Proofs.Evaluation.Contribution
import UtilityCss.Proofs.Context.Append
import UtilityCss.Proofs.Context.RegistrationOrder
import UtilityCss.Proofs.Config.Consistency
import UtilityCss.Proofs.Config.Idempotence
import UtilityCss.Proofs.Context.Importance
import UtilityCss.Proofs.Context.Apply
import UtilityCss.Proofs.Context.Registrations
import UtilityCss.Proofs.Style.Importance
import UtilityCss.Proofs.Evaluation.Marking
import UtilityCss.Proofs.Evaluation.Lead
import UtilityCss.Proofs.Nested
import UtilityCss.Proofs.Bracketed
import UtilityCss.Proofs.Value.Spacing
import UtilityCss.Proofs.Context.Declaration
import UtilityCss.Proofs.Bytewise.Text
import UtilityCss.Proofs.Bytewise.Scan
import UtilityCss.Proofs.Bytewise.Parser
import UtilityCss.Proofs.Bytewise.Head
import UtilityCss.Proofs.Bytewise.Reader
import UtilityCss.Proofs.Bytewise.Name
import UtilityCss.Proofs.Bytewise.Value
import UtilityCss.Proofs.Bytewise.Unit
import UtilityCss.Proofs.Bytewise.Theme
import UtilityCss.Proofs.Evaluation.Intact
import UtilityCss.Proofs.Context.Slices
import UtilityCss.Proofs.Registry.Specs
import UtilityCss.Proofs.Registry.Selector
import UtilityCss.Proofs.Context.Reachable
import UtilityCss.Proofs.Registry.Claims
import UtilityCss.Proofs.Context.Strictness
import UtilityCss.Proofs.Value.Shape
import UtilityCss.Proofs.Value.Apart
import UtilityCss.Proofs.Evaluation.Apart
import UtilityCss.Proofs.Context.Shared
import UtilityCss.Proofs.Value.PlainColor
import UtilityCss.Proofs.ClassList.Modified
import UtilityCss.Proofs.Evaluation.Colored
import UtilityCss.Proofs.Config.Unasked
import UtilityCss.Proofs.Config.Colors
import UtilityCss.Proofs.Builtin.Background
import UtilityCss.Proofs.Context.Color
import UtilityCss.Proofs.Brackets.Reading
import UtilityCss.Proofs.Value.Signs
import UtilityCss.Proofs.Value.Formula
import UtilityCss.Proofs.Value.FirstNumber
import UtilityCss.Proofs.Value.Channels
import UtilityCss.Proofs.Value.Opacity
import UtilityCss.Proofs.Theme.Calls
import UtilityCss.Proofs.Bracketed.Address
import UtilityCss.Proofs.Theme.Verbatim
import UtilityCss.Proofs.Theme.Walk
import UtilityCss.Proofs.Theme.Path
import UtilityCss.Proofs.Theme.Table
import UtilityCss.Proofs.Style.Monoid
import UtilityCss.Proofs.Json.Merge
import UtilityCss.Proofs.Json.MergeRules
import UtilityCss.Proofs.Json.Layered
import UtilityCss.Proofs.Config.Priority
import UtilityCss.Proofs.Config.Deferred
import UtilityCss.Proofs.Evaluation.Group
import UtilityCss.Proofs.Context.Distribution
import UtilityCss.Proofs.Context.Content
import UtilityCss.Proofs.Config.Told
import UtilityCss.Proofs.Context.Ambiguity
import UtilityCss.Proofs.Config.Circular
import UtilityCss.Proofs.Evaluation.Depth
import UtilityCss.Proofs.Bracketed.Blanks
import UtilityCss.Proofs.ClassList.Blanks
import UtilityCss.Proofs.Context.Lookup
import UtilityCss.Proofs.Value.Negation
import UtilityCss.Proofs.Value.Measure
import UtilityCss.Proofs.Value.Call
import UtilityCss.Proofs.Style.CamelCase
import UtilityCss.Proofs.Value.Position
import UtilityCss.Proofs.Style.Json
