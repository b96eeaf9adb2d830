import Mit6824.ReplicatedLog.Basic
import Mit6824.ReplicatedLog.Steps
import Mit6824.Raft.Basic
import Mit6824.Raft.Handlers
import Mit6824.Raft.Calls
import Mit6824.Raft.Cluster
import Mit6824.Raft.View
import Mit6824.Raft.Runs
import Mit6824.Raft.Stance
import Mit6824.Raft.Inversion
import Mit6824.Raft.Spec
import Mit6824.Raft.Elections
import Mit6824.Raft.Terms
import Mit6824.Raft.FullLog
import Mit6824.Raft.Ghost
import Mit6824.Raft.Follower
import Mit6824.Raft.Snapshots
import Mit6824.Raft.Leader
import Mit6824.Raft.Replication
import Mit6824.Raft.Refine
import Mit6824.Raft.Safety
import Mit6824.Raft.SharedSafety
import Mit6824.KvRaft.Server
import Mit6824.LogMachine.Basic
import Mit6824.Transition.Basic
import Mit6824.KvRaft.ExactlyOnce
import Mit6824.KvRaft.Replica
import Mit6824.KvRaft.Replies
import Mit6824.Raft.Delivery
import Mit6824.Raft.Agreement
import Mit6824.Raft.Operations
import Mit6824.Raft.Persistence
import Mit6824.Raft.Compaction
import Mit6824.Grouping.Basic
import Mit6824.MapReduce.Worker
import Mit6824.MapReduce.Output
import Mit6824.MapReduce.Master
import Mit6824.MapReduce.Barrier
import Mit6824.MapReduce.Progress
import Mit6824.Raft.LeaderPtr
import Mit6824.Raft.Replicators
import Mit6824.Raft.Drivers
import Mit6824.Raft.CatchUp
import Mit6824.KvRaft.Client
import Mit6824.MapReduce.Failures
import Mit6824.Raft.Quorums
import Mit6824.Raft.Roots
import Mit6824.Raft.Backup
import Mit6824.Raft.Tenure
import Mit6824.Raft.Votes
import Mit6824.DoublyLinked.Basic
import Mit6824.Linearization.Basic
import Mit6824.Porcupine.Bitset
import Mit6824.Porcupine.Model
import Mit6824.Porcupine.Checker
import Mit6824.DepthFirst.Rank
import Mit6824.Porcupine.Layout
import Mit6824.Porcupine.Trail
import Mit6824.Porcupine.Longest
import Mit6824.Porcupine.Explore
import Mit6824.Porcupine.Correct
import Mit6824.Transition.Bounded
import Mit6824.Porcupine.Parallel
import Mit6824.Porcupine.Operations
import Mit6824.Porcupine.Events
import Mit6824.Models.Kv
import Mit6824.KvRaft.Tester
import Mit6824.Linearization.Points
import Mit6824.KvRaft.Linearizable
import Mit6824.KvRaft.System
import Mit6824.Raft.Conveyance
import Mit6824.Raft.Provenance
import Mit6824.Transition.Simulation
import Mit6824.KvRaft.Backing
import Mit6824.KvRaft.Advances
import Mit6824.KvRaft.Front
import Mit6824.KvRaft.Simulation
import Mit6824.KvRaft.Deployed
import Mit6824.MapReduce.Processes
import Mit6824.MapReduce.Fleet
import Mit6824.MapReduce.Published
import Mit6824.MapReduce.Recovery
import Mit6824.MapReduce.Sequential
import Mit6824.Slices.Basic
import Mit6824.Slices.Basic
import Mit6824.Raft.Sharing
import Mit6824.Raft.Encoding
