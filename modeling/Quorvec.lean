import Quorvec.Storage.Recovery
import Quorvec.Storage.Wal
import Quorvec.Storage.Registers
import Quorvec.Storage.Join
import Quorvec.Node.HintReplay
import Quorvec.Node.Coverage
import Quorvec.Node.Convergence
import Quorvec.Node.DurableSlot
import Quorvec.Support.Quorum
import Quorvec.Node.Reads
import Quorvec.Node.QuorumRun
import Quorvec.Node.Transfer
import Quorvec.Node.OpenedSlot
import Quorvec.Node.TransferJoin
import Quorvec.Hnsw.NodeIndex
import Quorvec.Node.ReplicaRun
import Quorvec.Cluster.Manager
import Quorvec.Cluster.StateMachine
import Quorvec.Hnsw.BruteForce
import Quorvec.Hnsw.Structure
import Quorvec.Node.ClockRestart
import Quorvec.Storage.TruncatedLog
import Quorvec.Hnsw.Exhaustive
import Quorvec.Hnsw.Oracle
import Quorvec.Hnsw.Recall
import Quorvec.Node.QuorumIntersection
import Quorvec.Node.KeptSlot
import Quorvec.Node.NameEnds
import Quorvec.Cluster.LogStore
import Quorvec.Cluster.Overrides
import Quorvec.Cluster.RingChange
import Quorvec.Node.HintCrash
import Quorvec.Storage.FaultyAppend
import Quorvec.Node.PreferredReplicas
import Quorvec.Node.ReconcileRun
import Quorvec.Storage.StrictClock
import Quorvec.Storage.GhostRecord
import Quorvec.Storage.LegacyWrites
import Quorvec.Storage.ReusedDirectory
import Quorvec.Cluster.Retry
import Quorvec.Cluster.SnapshotRace
import Quorvec.Hnsw.Survey
import Quorvec.Support.HeapOrder
import Quorvec.Hnsw.LocalOptimum
import Quorvec.Hnsw.SoundSearch
import Quorvec.Support.TakeParts
import Quorvec.Hnsw.NearestPoints
import Quorvec.Node.Search
import Quorvec.Hnsw.ScoreLaws
import Quorvec.Hnsw.ExactSearch
import Quorvec.Cluster.Clockwise
import Quorvec.Hnsw.Selection
import Quorvec.Storage.HintCuts
import Quorvec.Storage.BatchKill
import Quorvec.Storage.Accounting
import Quorvec.Node.ShardDirs
import Quorvec.Node.UpsertBatch
import Quorvec.Node.Forwarding
import Quorvec.Hnsw.GreedyDescent
import Quorvec.Support.StableStorage
import Quorvec.Storage.ShardFiles
import Quorvec.Storage.PowerFailure
import Quorvec.Node.StoreRefinement
import Quorvec.Support.SavedCells
import Quorvec.Cluster.RaftFiles
import Quorvec.Node.ReplicaWorld
import Quorvec.Node.Handoff
import Quorvec.Node.ReadRepair
import Quorvec.Node.ClientMap
import Quorvec.Node.EventualConsistency
import Quorvec.Node.ClockDrift
import Quorvec.Node.SearchedReplica
import Quorvec.Node.ConcurrentSearch
import Quorvec.Node.Settling
import Quorvec.Support.FirstFailure
import Quorvec.Hnsw.Validation
import Quorvec.Node.ShardMap
