import SmeltConsensus.Cluster.Parties
import SmeltConsensus.Broadcast.Replica
import SmeltConsensus.Broadcast.Replication
import SmeltConsensus.Chain.Order
import SmeltConsensus.Foundation.Unanimity
import SmeltConsensus.TwoPhase.Replica
import SmeltConsensus.TwoPhase.Commit
import SmeltConsensus.OnePaxos.EntryQueue
import SmeltConsensus.OnePaxos.Replica
import SmeltConsensus.Foundation.LastSeen
import SmeltConsensus.OnePaxos.Execute
import SmeltConsensus.OnePaxos.Learn
import SmeltConsensus.KeyValue.Client
import SmeltConsensus.KeyValue.Memory
import SmeltConsensus.KeyValue.ReadYourWrites
import SmeltConsensus.Foundation.Ring
import SmeltConsensus.SharedQueue.Queue
import SmeltConsensus.SharedQueue.Delivery
import SmeltConsensus.Foundation.LinkedHeap
import SmeltConsensus.Raft.LogQueue
import SmeltConsensus.Raft.Replica
import SmeltConsensus.Raft.Log
import SmeltConsensus.Raft.CommitIndex
import SmeltConsensus.Raft.Follower
import SmeltConsensus.Raft.Leader
import SmeltConsensus.Raft.History
import SmeltConsensus.Raft.Safety
import SmeltConsensus.Raft.RunInvariant
import SmeltConsensus.Raft.Convergence
import SmeltConsensus.Raft.Quorum
import SmeltConsensus.TwoTier.ComLayer
import SmeltConsensus.TwoTier.OnePaxos
import SmeltConsensus.Foundation.Machine
import SmeltConsensus.TwoTier.SharedMemory
import SmeltConsensus.TwoTier.NodeCore
import SmeltConsensus.TwoTier.Balance
import SmeltConsensus.TwoTier.PaxosBalance
import SmeltConsensus.TwoTier.CoreTier
import SmeltConsensus.Chain.Acknowledge
import SmeltConsensus.Bench.Client
import SmeltConsensus.Bench.Routing
import SmeltConsensus.BroadcastQueue.Sequence
import SmeltConsensus.BroadcastQueue.SequenceDelivery
import SmeltConsensus.BroadcastQueue.SequenceProgress
import SmeltConsensus.BroadcastQueue.Epoch
import SmeltConsensus.BroadcastQueue.EpochDelivery
import SmeltConsensus.BroadcastQueue.BitMask
import SmeltConsensus.Foundation.Flags
import SmeltConsensus.BroadcastQueue.BitMaskDelivery
import SmeltConsensus.BroadcastQueue.LapBarrier
import SmeltConsensus.BroadcastQueue.LapBarrierDelivery
import SmeltConsensus.OnePaxos.Duplicates
import SmeltConsensus.OnePaxos.Resend
import SmeltConsensus.Foundation.Promise
import SmeltConsensus.OnePaxos.Ballot
import SmeltConsensus.Foundation.Tally
import SmeltConsensus.OnePaxos.Change
import SmeltConsensus.Raft.Progress
import SmeltConsensus.Raft.QueueForm
import SmeltConsensus.Raft.Conflict
import SmeltConsensus.Raft.Backtrack
import SmeltConsensus.KeyValue.Map
import SmeltConsensus.TwoTier.Broadcast
import SmeltConsensus.TwoTier.CoreStart
import SmeltConsensus.Foundation.Buffer
import SmeltConsensus.TwoTier.NodeStart
import SmeltConsensus.Bench.Placement
import SmeltConsensus.SharedQueue.Layout
import SmeltConsensus.Bench.ClientTables
import SmeltConsensus.BroadcastQueue.SyncLimit
import SmeltConsensus.OnePaxos.Fifo
import SmeltConsensus.Foundation.Views
import SmeltConsensus.Message.Codec
import SmeltConsensus.Raft.AppendHeader
import SmeltConsensus.Foundation.StoreBuffer
import SmeltConsensus.UmpQueue.Channel
import SmeltConsensus.UmpQueue.Endpoint
import SmeltConsensus.UmpQueue.Counts
import SmeltConsensus.UmpQueue.Delivery
import SmeltConsensus.UmpQueue.OneWay
import SmeltConsensus.UmpQueue.Wake
import SmeltConsensus.Bench.Answers
import SmeltConsensus.Bench.MessageCount
import SmeltConsensus.Bench.Linearizable
import SmeltConsensus.BroadcastQueue.BitMaskProgress
import SmeltConsensus.BroadcastQueue.LapBarrierProgress
import SmeltConsensus.SharedQueue.Progress
import SmeltConsensus.Message.Checksum
