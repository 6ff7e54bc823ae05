import Hypha.Lib.Machine
import Hypha.Lib.Saturating
import Hypha.Lib.Shares
import Hypha.Lib.Directory
import Hypha.Lib.Interleave
import Hypha.Lib.Moves
import Hypha.Lib.Custody
import Hypha.Lib.Table
import Hypha.Lib.Loop
import Hypha.Lib.Recurring
import Hypha.Messages
import Hypha.Scheduler.Statistics
import Hypha.Scheduler.Pool
import Hypha.Scheduler.Handler
import Hypha.Scheduler.Effect
import Hypha.Scheduler.Answer
import Hypha.Scheduler.Run
import Hypha.Scheduler.Concurrent
import Hypha.Scheduler.Errors
import Hypha.Scheduler.Deadlock
import Hypha.Scheduler.Stretch
import Hypha.Scheduler.Script
import Hypha.Scheduler.Chain
import Hypha.Scheduler.HandOff
import Hypha.Scheduler.Targets
import Hypha.Scheduler.Counts
import Hypha.Scheduler.Completion
import Hypha.Scheduler.Rounds
import Hypha.Scheduler.Redelivery
import Hypha.Scheduler.Executor
import Hypha.Scheduler.Work
import Hypha.Scheduler.Samples
import Hypha.Scheduler.Weights
import Hypha.Scheduler.Updates
import Hypha.Scheduler.Rejoin
import Hypha.Scheduler.Readiness
import Hypha.Scheduler.Projection
import Hypha.ParameterServer.Executor
import Hypha.ParameterServer.Cluster
import Hypha.ParameterServer.OneStep
import Hypha.ParameterServer.Purity
import Hypha.Tracker.Slice
import Hypha.Tracker.Coverage
import Hypha.Tracker.Removal
import Hypha.Tracker.Stealing
import Hypha.Worker.Resources
import Hypha.Worker.LeaseManager
import Hypha.Worker.Leases
import Hypha.Worker.JobManager
import Hypha.Worker.Arbiter
import Hypha.Worker.Steps
import Hypha.Worker.Holding
import Hypha.Worker.Jobs
import Hypha.Worker.Executions
import Hypha.Worker.Pruning
import Hypha.Worker.Capacity
import Hypha.Worker.Ownership
import Hypha.Worker.Renewal
import Hypha.Worker.Expiry
import Hypha.Scheduler.ClosedForm
import Hypha.Scheduler.Batches
import Hypha.Scheduler.Membership
import Hypha.Lib.LittleEndian
import Hypha.Worker.Fetch
import Hypha.Network.RequestResponse
import Hypha.Network.Routing
import Hypha.Network.Kademlia
import Hypha.Lib.Transport
import Hypha.Network.Batched
import Hypha.Network.Fixed
import Hypha.Network.Streams
import Hypha.Network.Framing
import Hypha.Scheduler.Grace
import Hypha.Scheduler.Accounting
import Hypha.Lib.Smallest
import Hypha.Lib.Ieee
import Hypha.Scheduler.BatchSize
import Hypha.Scheduler.Paths
import Hypha.Scheduler.RunningMean
import Hypha.Scheduler.Candidates
import Hypha.Worker.Evaluator
import Hypha.Scheduler.Aggregator
import Hypha.Scheduler.Allocator
import Hypha.ParameterServer.Broadcast
import Hypha.Worker.Offers
import Hypha.Lib.Text
import Hypha.Worker.Output
import Hypha.Lib.Path
import Hypha.Worker.Confinement
import Hypha.Lib.Tensor
import Hypha.ParameterServer.TensorOp
import Hypha.ParameterServer.Nesterov
import Hypha.ParameterServer.Aggregate
import Hypha.ParameterServer.Retry
import Hypha.Config.Span
import Hypha.Telemetry.Attributes
import Hypha.Scheduler.MetricsBridge
import Hypha.Executor.Dataset
import Hypha.Executor.Training
import Hypha.Executor.Diloco
import Hypha.Lib.BroadcastChannel
import Hypha.Network.Gossipsub
import Hypha.Scheduler.WorkerHandle
import Hypha.Lib.Calls
import Hypha.Network.Calls
import Hypha.Data.Node
import Hypha.Data.Slices
import Hypha.Worker.Exchange
