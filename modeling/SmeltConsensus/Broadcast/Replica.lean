import SmeltConsensus.Cluster.Parties

/-! The replica of broadcast replication: the leader sends every request to the
other replicas, executes it and answers the client. -/

set_option autoImplicit false
set_option relaxedAutoImplicit false

namespace SmeltConsensus.Broadcast.Replica

open SmeltConsensus.Foundation.Network
open SmeltConsensus.Message.Header
open SmeltConsensus.Cluster.Parties

@[simp] def BROAD_COMMIT : Nat := 4

/-- The fields of `replica_t` that the handlers read. -/
structure ReplicaT where
  id : Nat
  level : Level
  deriving DecidableEq

variable (cfg : Config)

def initReplicaBroadcast (id : Nat) : ReplicaT := ⟨id, cfg.level⟩

def handleRequest (replica : ReplicaT) (msg : SmltMsg) : List Out :=
  if replica.id = 0 then
    let msg := msg.withTag BROAD_COMMIT
    sendEach (List.range' 1 (cfg.numReplicas - 1)) msg ++
      match replica.level with
      | .node => [.exec msg.command, .send (cfg.clientAt msg.clientId) msg]
      | .core => [.exec msg.command, .send (.client cfg.startedFrom) msg]
  else [.print "Only leader should receive requests \n" []]

def handleCommit (replica : ReplicaT) (msg : SmltMsg) : List Out :=
  if replica.id ≠ 0 then [.exec msg.command]
  else [.print "Replica %d: leader should not receive commit\n" [replica.id]]

def messageHandlerBroadcast (replica : ReplicaT) (msg : SmltMsg) : List Out :=
  if msg.tag = SETUP_TAG then handleSetup cfg msg
  else if msg.tag = REQ_TAG then handleRequest cfg replica msg
  else if msg.tag = BROAD_COMMIT then handleCommit replica msg
  else [.print "unknown type in queue %lu \n" [msg.data0]]

/-- The channels of `message_handler_loop_broadcast`: the leader receives from the
clients only, every other replica from the leader only. -/
def polls (replica : ReplicaT) (src : Party) : Bool :=
  if replica.id = 0 then
    match src with
    | .client core => decide (core ∈ cfg.clients)
    | .replica _ => false
  else decide (src = .replica 0)

def broadcastReplica : ReplicaProc where
  State := ReplicaT
  init := initReplicaBroadcast cfg
  polls := polls cfg
  handle replica msg := (replica, messageHandlerBroadcast cfg replica msg)

end SmeltConsensus.Broadcast.Replica
