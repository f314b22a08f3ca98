import ShardSweep.Client.Basic
import ShardSweep.Client.Builder
import ShardSweep.Client.Deployment
import ShardSweep.Client.FsCache
import ShardSweep.Client.Pool
import ShardSweep.Client.Retry
import ShardSweep.Client.Shards
import ShardSweep.Cluster.Samples
import ShardSweep.Cluster.Service
import ShardSweep.Cluster.Tree
import ShardSweep.Duration
import ShardSweep.Endpoint.Basic
import ShardSweep.Endpoint.Parse
import ShardSweep.Entry
import ShardSweep.Failure
import ShardSweep.Metadata
import ShardSweep.Path
import ShardSweep.Proc
import ShardSweep.Rehearsal.Recorder
import ShardSweep.Rehearsal.Table
import ShardSweep.Settings
import ShardSweep.Sweep.Basic
import ShardSweep.Sweep.Delete
import ShardSweep.Sweep.Lookup
import ShardSweep.Sweep.Usage
import ShardSweep.Text.Blank
import ShardSweep.Text.DecimalDigit
import ShardSweep.Text.Pieces
import ShardSweep.Transport
import ShardSweep.Walk.Machine
import ShardSweep.Walk.Plan
import ShardSweep.Walk.Removal
import ShardSweep.Walk.Schedule
import ShardSweep.Walk.Slots
import ShardSweep.Walk.Tally
import ShardSweep.Walk.Visitor
import ShardSweep.Proofs.Walk.Run
import ShardSweep.Proofs.Walk.Forest
import ShardSweep.Proofs.Walk.Kinship
import ShardSweep.Proofs.Walk.Lineage
import ShardSweep.Proofs.Walk.Outlook
import ShardSweep.Proofs.Walk.Flag
import ShardSweep.Proofs.Walk.PostOrder
import ShardSweep.Proofs.Walk.Ending
import ShardSweep.Proofs.Walk.Ledger
import ShardSweep.Proofs.Walk.Settlement
import ShardSweep.Proofs.Client.Grants
import ShardSweep.Proofs.Cluster.Edits
import ShardSweep.Proofs.Cluster.Sound
import ShardSweep.Proofs.Cluster.Subtree
import ShardSweep.Proofs.Cluster.Removes
import ShardSweep.Proofs.Client.Dues
import ShardSweep.Proofs.Sweep.Removal
import ShardSweep.Proofs.Sweep.Delete
import ShardSweep.Proofs.Walk.Harm
import ShardSweep.Proofs.Sweep.Leftover
import ShardSweep.Proofs.Sweep.Census
import ShardSweep.Proofs.Sweep.Usage
import ShardSweep.Proofs.Walk.Bound
import ShardSweep.Proofs.Walk.Complete
import ShardSweep.Proofs.Walk.Progress
import ShardSweep.Proofs.Walk.Visitors
import ShardSweep.Proofs.Walk.Clearance
import ShardSweep.Proofs.Walk.FirstFailure
import ShardSweep.Proofs.Walk.Obituary
import ShardSweep.Proofs.Cluster.Intact
import ShardSweep.Proofs.Client.Alone
import ShardSweep.Proofs.Path
import ShardSweep.Proofs.Sweep.Lookup
import ShardSweep.Proofs.Sweep.DeletePath
import ShardSweep.Proofs.Client.Stages
import ShardSweep.Proofs.Client.Once
import ShardSweep.Proofs.Client.Traffic
import ShardSweep.Proofs.Client.Transient
import ShardSweep.Proofs.Walk.Calls
import ShardSweep.Proofs.Client.Stale
import ShardSweep.Proofs.Sweep.Fencing
import ShardSweep.Proofs.Walk.Ahead
import ShardSweep.Proofs.Walk.Relay
import ShardSweep.Proofs.Walk.Recursion
import ShardSweep.Proofs.Walk.Dispatch
import ShardSweep.Proofs.Walk.SingleFile
import ShardSweep.Proofs.Walk.Staffed
import ShardSweep.Proofs.Walk.Turnover
import ShardSweep.Proofs.Walk.Custody
import ShardSweep.Proofs.Sweep.Job
import ShardSweep.Proofs.Sweep.Refusals
import ShardSweep.Proofs.Client.Watch
import ShardSweep.Proofs.Client.Routes
import ShardSweep.Proofs.Client.Business
import ShardSweep.Proofs.Client.Accounts
import ShardSweep.Proofs.Client.Lines
import ShardSweep.Proofs.Sweep.Accounts
import ShardSweep.Proofs.Client.Steady
import ShardSweep.Proofs.Walk.Vouching
import ShardSweep.Proofs.Sweep.Settled
import ShardSweep.Proofs.Sweep.Verdict
import ShardSweep.Proofs.Sweep.InTurn
import ShardSweep.Proofs.Client.Tries
import ShardSweep.Proofs.Client.Prompt
import ShardSweep.Proofs.Client.Borrowing
import ShardSweep.Proofs.Client.Lending
import ShardSweep.Proofs.Cluster.Named
import ShardSweep.Proofs.Cluster.Lookup
import ShardSweep.Proofs.Text.ByteOrder
import ShardSweep.Proofs.Cluster.Holdings
import ShardSweep.Proofs.Sweep.Resolve
import ShardSweep.Proofs.Sweep.Climb
import ShardSweep.Proofs.Amid
import ShardSweep.Proofs.Client.Learning
import ShardSweep.Proofs.Client.Coherence
import ShardSweep.Proofs.Text.Strip
import ShardSweep.Proofs.Endpoint.Grammar
import ShardSweep.Proofs.Endpoint.RoundTrip
import ShardSweep.Proofs.Path.Cancel
import ShardSweep.Proofs.Cluster.MakePath
