import ParenGap.Text
import ParenGap.Text.Width
import ParenGap.Token
import ParenGap.Position
import ParenGap.Tree
import ParenGap.Tree.Store
import ParenGap.Site
import ParenGap.Gap
import ParenGap.Edit
import ParenGap.Lint
import ParenGap.Json.Reader
import ParenGap.Json
import ParenGap.Config
import ParenGap.Report
import ParenGap.Command
import ParenGap.Command.World
import ParenGap.Main
import ParenGap.Proofs.Gap.Verdict
import ParenGap.Proofs.Lint
import ParenGap.Proofs.Edit.Patch
import ParenGap.Proofs.Edit.Respacing
import ParenGap.Proofs.Fix.Edits
import ParenGap.Proofs.Tree.Nesting
import ParenGap.Proofs.Fix.Frame
import ParenGap.Proofs.Gap.Alignment
import ParenGap.Proofs.Token.Spaces
import ParenGap.Proofs.Tree.Moved
import ParenGap.Proofs.Fix.Idempotence
import ParenGap.Proofs.Token.Pairing
import ParenGap.Proofs.Tree.Tight
import ParenGap.Proofs.Gap.Grouping
import ParenGap.Proofs.Fix.Separation
import ParenGap.Proofs.Gap.Clean
import ParenGap.Proofs.Fix.Sites
import ParenGap.Proofs.Fix.Runs
import ParenGap.Proofs.Fix.Symmetry
import ParenGap.Proofs.Fix.Sequence
import ParenGap.Proofs.Edit.Composition
import ParenGap.Proofs.Fix.Stepwise
import ParenGap.Proofs.Gap.Spacing
import ParenGap.Proofs.Gap.Faultless
import ParenGap.Proofs.Strict.Source
import ParenGap.Proofs.Tree.Walk
import ParenGap.Proofs.Tree.Visits
import ParenGap.Proofs.Text.Slice
import ParenGap.Proofs.Json.Grammar
import ParenGap.Proofs.Json.Soundness
import ParenGap.Proofs.Json.Completeness
import ParenGap.Proofs.Config
import ParenGap.Proofs.Json.Parens
import ParenGap.Proofs.Command.Run
import ParenGap.Proofs.Command.Files
import ParenGap.Proofs.Command.Outcome
import ParenGap.Proofs.Command.FixedPoint
import ParenGap.Proofs.Token.Matching
import ParenGap.Proofs.Gap.Chain
import ParenGap.Proofs.Json.RoundTrip
import ParenGap.Proofs.Report.Records
import ParenGap.Proofs.Command.Kept
import ParenGap.Proofs.Edit.Choice
import ParenGap.Proofs.Edit.SinglePass
import ParenGap.Proofs.Position.Identified
import ParenGap.Proofs.Token.Scan
import ParenGap.Proofs.Text.Lines
