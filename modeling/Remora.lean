import Remora.Transition
import Remora.DependencyController
import Remora.DependencyTasks
import Remora.OwnershipHints
import Remora.ForwardingProgress
import Remora.PrimaryLedgers
import Remora.MockConsensus
import Remora.StatelessTxnForwarder
import Remora.OneshotController
import Remora.LoadBalancer
import Remora.StatelessResult
import Remora.Availability
import Remora.StateTransfer
import Remora.ResultCollection
import Remora.CachedReads
import Remora.TpccData
import Remora.TpccTransactions
import Remora.TpccExecutor
import Remora.TpccFootprint
import Remora.VersionAgreement
import Remora.Reordering
import Remora.TpccReordering
import Remora.Ledger
import Remora.TpccInit
import Remora.TpccMoney
import Remora.ProxyProgress
import Remora.CombinedGate
import Remora.CombinedExecution
import Remora.FailureIsolation
import Remora.DependencyGraph
import Remora.PreConsensusSched
import Remora.ConflictClasses
import Remora.RoutingPlan
import Remora.SchedulerIndexing
import Remora.BatchBalance
import Remora.SchedulerThread
import Remora.PlanSettlement
import Remora.TpccCounters
import Remora.ChunkedParsing
import Remora.ConnectionWorker
import Remora.Sampling
import Remora.TpccGenerator
import Remora.PoolDrop
import Remora.TpccObjectIds
import Remora.LoadSplit
import Remora.Replication
import Remora.StoreCoherence
import Remora.FinalState
import Remora.Termination
import Remora.Completion
import Remora.ConsensusDrain
import Remora.Extension
import Remora.PrimaryNode
import Remora.NodeCompletion
import Remora.ExecutorRefinement
import Remora.TpccReplay
import Remora.TpccDeployment
import Remora.TpccNode
import Remora.WindowedQueue
import Remora.Network
import Remora.LoadedNode
import Remora.TpccBenchmark
import Remora.FakeWorkload
import Remora.FakeBenchmark
import Remora.RoundRobin
import Remora.HotspotRotation
import Remora.Calibration
