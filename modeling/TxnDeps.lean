import TxnDeps.Cache.Node
import TxnDeps.Wire.DepsCodec.Form
import TxnDeps.Proofs.Sorted.Bisect
import TxnDeps.Proofs.Cache.Consistency
import TxnDeps.Proofs.Cache.Operations
import TxnDeps.Proofs.Deps.Slice
import TxnDeps.Proofs.Wire.Body
import TxnDeps.Proofs.Wire.RoundTrip
import TxnDeps.Proofs.Wire.Soundness
import TxnDeps.Proofs.Cache.Agreement
import TxnDeps.Proofs.Wire.Delimiting
import TxnDeps.Proofs.Wire.Sealing
import TxnDeps.Proofs.Wire.Size
import TxnDeps.Proofs.Cache.Custody
import TxnDeps.Proofs.Cache.Session
import TxnDeps.Proofs.Cache.Commit
import TxnDeps.Proofs.MessagePack.Soundness
import TxnDeps.Proofs.Deps.Received
import TxnDeps.Proofs.Wire.Refusal
import TxnDeps.Proofs.Wire.Transcoding
import TxnDeps.Proofs.Command.Record
import TxnDeps.Proofs.Graph.Access
import TxnDeps.Proofs.Command.Soundness
import TxnDeps.Proofs.Wire.Validation
import TxnDeps.Proofs.Cache.Changes
import TxnDeps.Proofs.Cache.Lifecycle
import TxnDeps.Proofs.Cache.Misuse
import TxnDeps.Proofs.Cache.Eviction
import TxnDeps.Proofs.Range.Intersection
import TxnDeps.Proofs.Range.Preorder
import TxnDeps.Proofs.Deps.Nested
import TxnDeps.Graph.Assembly
import TxnDeps.Proofs.Cache.Account
import TxnDeps.Proofs.Cache.Restart
import TxnDeps.Proofs.Graph.Assembly
import TxnDeps.Proofs.Graph.Unique
import TxnDeps.Proofs.Graph.Algebra
import TxnDeps.Proofs.Graph.Recording
import TxnDeps.Deps.Access
import TxnDeps.Proofs.Deps.Lookup
import TxnDeps.Proofs.Deps.Views
import TxnDeps.Proofs.Sorted.Walk
import TxnDeps.Proofs.Wire.SubsetCode
import TxnDeps.Proofs.Wire.Groups
import TxnDeps.Proofs.Wire.OneTable
import TxnDeps.Proofs.Wire.Resuming
import TxnDeps.Proofs.Wire.Saving
import TxnDeps.Proofs.Graph.Partition
import TxnDeps.Proofs.Cache.Tracking
