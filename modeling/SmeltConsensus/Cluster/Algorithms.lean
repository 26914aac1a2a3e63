import SmeltConsensus.Broadcast.Replica
import SmeltConsensus.Chain.Replica
import SmeltConsensus.OnePaxos.Replica
import SmeltConsensus.Raft.Replica
import SmeltConsensus.TwoPhase.Replica

/-! The algorithms whose replicas exchange messages, and their replicas. -/

set_option autoImplicit false
set_option relaxedAutoImplicit false

namespace SmeltConsensus.Cluster.Algorithms

open SmeltConsensus.Cluster.Parties
open SmeltConsensus.Broadcast.Replica
open SmeltConsensus.Chain.Replica
open SmeltConsensus.OnePaxos.Replica
open SmeltConsensus.Raft.Replica
open SmeltConsensus.TwoPhase.Replica

inductive Algorithm
  | onePaxos
  | tpc
  | broad
  | chain
  | raft
  deriving DecidableEq

/-- The replica that `init_replica` starts for an algorithm, in the build without the
key-value store; the counters of two-phase commit are not initialized. -/
def initReplica (cfg : Config) (ready ack : ClientTable) : Algorithm → ReplicaProc
  | .onePaxos => onepaxosReplica cfg false
  | .tpc => tpcReplica cfg ready ack
  | .broad => broadcastReplica cfg
  | .chain => chainReplica cfg
  | .raft => raftReplica cfg

end SmeltConsensus.Cluster.Algorithms
