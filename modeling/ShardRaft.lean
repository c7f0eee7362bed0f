import ShardRaft.Lib.Lists
import ShardRaft.Lib.Trace
import ShardRaft.Raft.State
import ShardRaft.Raft.Log
import ShardRaft.Raft.Election
import ShardRaft.Raft.Replication
import ShardRaft.Raft.Sections
import ShardRaft.Raft.World
import ShardRaft.Raft.Recovery
import ShardRaft.Raft.Steps
import ShardRaft.Raft.Stream
import ShardRaft.Raft.Tally
import ShardRaft.Raft.ElectionSafety
import ShardRaft.Lib.Leadership
import ShardRaft.Lib.Records
import ShardRaft.Raft.FullLog
import ShardRaft.Raft.Commit
import ShardRaft.Raft.LogInvariant
import ShardRaft.Raft.LogSafety
import ShardRaft.KV.Server
import ShardRaft.KV.World
import ShardRaft.KV.History
import ShardRaft.KV.Invariant
import ShardRaft.KV.Linearizability
import ShardRaft.Ctrler.Config
import ShardRaft.Ctrler.Server
import ShardRaft.Lib.Replicas
import ShardRaft.Ctrler.Replicas
import ShardRaft.ShardKV.Server
import ShardRaft.ShardKV.World
import ShardRaft.ShardKV.Steps
import ShardRaft.ShardKV.InOrder
import ShardRaft.ShardKV.HandOver
import ShardRaft.ShardKV.Ownership
import ShardRaft.ShardKV.Contents
import ShardRaft.ShardKV.Writes
import ShardRaft.KV.Snapshots
import ShardRaft.ShardKV.Snapshots
import ShardRaft.Ctrler.Rebalance
import ShardRaft.Ctrler.History
import ShardRaft.Ctrler.LiveGroups
import ShardRaft.Ctrler.Moves
import ShardRaft.ShardKV.Donor
import ShardRaft.ShardKV.Duplicates
import ShardRaft.Raft.Compaction
import ShardRaft.Raft.Turns
import ShardRaft.Raft.TermOrder
import ShardRaft.Raft.Entries
import ShardRaft.Lib.Ledger
import ShardRaft.Raft.Leading
import ShardRaft.Raft.Votes
import ShardRaft.Raft.VoteCount
import ShardRaft.Service.StartCh
import ShardRaft.Service.Deadlock
import ShardRaft.Raft.BackOff
import ShardRaft.Raft.NextIndex
import ShardRaft.Lib.Grouping
import ShardRaft.MR.Worker
import ShardRaft.MR.Equivalence
import ShardRaft.MR.Barrier
import ShardRaft.Ctrler.Leave
import ShardRaft.Ctrler.MapOrder
import ShardRaft.KV.ExactlyOnce
import ShardRaft.ShardKV.Logs
import ShardRaft.ShardKV.Keys
import ShardRaft.KV.Node
import ShardRaft.KV.Replies
import ShardRaft.KV.Cluster
import ShardRaft.KV.EndToEnd
import ShardRaft.Raft.LogMatching
import ShardRaft.Lib.Points
import ShardRaft.Service.Drain
import ShardRaft.ShardKV.Linearizability
import ShardRaft.Lib.Locality
import ShardRaft.Porcupine.Bitset
import ShardRaft.Porcupine.Checker
import ShardRaft.Porcupine.Correct
import ShardRaft.Porcupine.Parallel
import ShardRaft.Porcupine.PlainMap
import ShardRaft.KV.Checked
import ShardRaft.ShardKV.Checked
import ShardRaft.Ctrler.Copies
import ShardRaft.Porcupine.Partials
