import Axton.Lib.Within
import Axton.Lib.Worklist
import Axton.Lib.Lexicographic
import Axton.Lib.Table
import Axton.Lib.Tally
import Axton.Lib.Trace
import Axton.Lib.Check
import Axton.Lib.Statement
import Axton.Lib.Pointwise
import Axton.Lib.Program
import Axton.Lib.Forest
import Axton.Lib.Search
import Axton.Lib.Scan
import Axton.Core.Json
import Axton.Core.Schema
import Axton.Core.Actions
import Axton.Core.Collect
import Axton.Core.Objects
import Axton.Core.Normalized
import Axton.Core.Canonical
import Axton.Core.Reader
import Axton.Core.Widening
import Axton.Core.ReadContract
import Axton.Core.Materialization
import Axton.Core.SameReads
import Axton.Core.Arguments
import Axton.Core.Fixpoint
import Axton.Core.Operands
import Axton.Core.Authority
import Axton.Core.Convergence
import Axton.Compiler.History
import Axton.Compiler.Retention
import Axton.Compiler.ModelHistory
import Axton.Compiler.Served
import Axton.Compiler.ReadHistory
import Axton.Compiler.Parse
import Axton.Compiler.WellFormed
import Axton.Compiler.Layout
import Axton.Compiler.Spelling
import Axton.Protocol.Sync
import Axton.Protocol.Keys
import Axton.Protocol.Hops
import Axton.Protocol.Contracts
import Axton.Protocol.Mutation
import Axton.Protocol.Delivery
import Axton.Protocol.Units
import Axton.Protocol.Freeze
import Axton.Protocol.Plan
import Axton.Protocol.Progress
import Axton.Client.Store
import Axton.Client.Query
import Axton.Client.Mutate
import Axton.Client.Rebuild
import Axton.Client.Refresh
import Axton.Client.Layer
import Axton.Client.Calls
import Axton.Client.Defaults
import Axton.Client.Batch
import Axton.Client.Settlement
import Axton.Client.Reconcile
import Axton.Client.Stage
import Axton.Client.Delivery
import Axton.Client.Staging
import Axton.Client.Spool
import Axton.Client.Limits
import Axton.Client.Bounded
import Axton.Client.Reassembly
import Axton.Client.Control
import Axton.Client.Dispatch
import Axton.Client.Runtime
import Axton.Client.Worker
import Axton.Client.Refusal
import Axton.Client.Moves
import Axton.Client.Queue
import Axton.Client.Window
import Axton.Client.Prerequisites
import Axton.Client.Outcomes
import Axton.Client.Evidence
import Axton.Client.Progress
import Axton.Client.Coverage
import Axton.Client.Replay
import Axton.Runtime.Bridge
import Axton.Runtime.State
import Axton.Runtime.Observers
import Axton.Runtime.Direct
import Axton.Runtime.Transactions
import Axton.Runtime.Tasks
import Axton.Runtime.Requests
import Axton.Runtime.Answered
import Axton.Runtime.Host
import Axton.Runtime.Scheduler
import Axton.Runtime.Broker
import Axton.Server.Stream
import Axton.Server.DeliveryPlan
import Axton.Server.Settlement
import Axton.Server.Publication
import Axton.Server.LockOrder
import Axton.Server.Reservation
import Axton.Server.Page
import Axton.Server.Catchup
import Axton.Server.Selection
import Axton.Server.MutationBatch
import Axton.Server.ExactlyOnce
import Axton.Server.Group
import Axton.Server.Live
import Axton.System.Downlink
import Axton.System.Uplink
import Axton.System.Agreement
import Axton.System.Session
import Axton.System.Fence
import Axton.System.Flights
import Axton.System.Release
import Axton.System.Stall
