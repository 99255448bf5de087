import RetryVerdict.Field.Request
import RetryVerdict.Classifier.Table
import RetryVerdict.Workspace.Command
import RetryVerdict.Proofs.Bytes.Folding
import RetryVerdict.Proofs.Bytes.Stripping
import RetryVerdict.Proofs.Decimal.Reading
import RetryVerdict.Proofs.Field.Clean
import RetryVerdict.Proofs.Field.Index
import RetryVerdict.Proofs.Field.Grammar
import RetryVerdict.Proofs.Field.Blocks
import RetryVerdict.Proofs.Field.Rendering
import RetryVerdict.Proofs.Field.Names
import RetryVerdict.Proofs.Rank.Dyadic
import RetryVerdict.Proofs.Rank.Density
import RetryVerdict.Proofs.Rank.Sorting
import RetryVerdict.Proofs.Layer.History
import RetryVerdict.Proofs.Layer.Stack
import RetryVerdict.Proofs.Walk.Law
import RetryVerdict.Proofs.Walk.Append
import RetryVerdict.Proofs.Walk.Thinning
import RetryVerdict.Proofs.Walk.Record
import RetryVerdict.Proofs.Chain.Decision
import RetryVerdict.Proofs.Workspace.Decision
import RetryVerdict.Proofs.Workspace.Standard
import RetryVerdict.Proofs.Workspace.History
import RetryVerdict.Proofs.Workspace.Frozen
import RetryVerdict.Proofs.Workspace.Assembly
import RetryVerdict.Proofs.Workspace.Slots
import RetryVerdict.Proofs.Workspace.Override
import RetryVerdict.Proofs.Classifier.StatedDelay
import RetryVerdict.Proofs.Field.Refusal
import RetryVerdict.Proofs.Workspace.OverItself
import RetryVerdict.Proofs.Decimal.Writing
import RetryVerdict.Proofs.Decimal.RoundTrip
import RetryVerdict.Proofs.Verdict.Text
import RetryVerdict.Proofs.Workspace.Logging
import RetryVerdict.Proofs.Rank.Text
import RetryVerdict.Proofs.Field.Keys
