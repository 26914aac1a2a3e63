import SmeltConsensus.Cluster.Parties

/-! The replica of chain replication: the head takes the requests, every replica
passes them to its right neighbour and the tail answers the clients. -/

set_option autoImplicit false
set_option relaxedAutoImplicit false

namespace SmeltConsensus.Chain.Replica

open SmeltConsensus.Foundation.Network
open SmeltConsensus.Message.Header
open SmeltConsensus.Cluster.Parties

@[simp] def CHAIN_COMMIT : Nat := 4

/-- The fields of `replica_t` that the handlers read. -/
structure ReplicaT where
  id : Nat
  level : Level
  /-- Neighbours, `uint8_t`: the head's left neighbour is 255 and never used. -/
  repLeft : Nat
  repRight : Nat
  isTail : Bool
  deriving DecidableEq

variable (cfg : Config)

def initReplicaChain (id : Nat) : ReplicaT where
  id := id
  level := cfg.level
  repLeft := (id + 255) % 256
  repRight := (id + 1) % 256
  isTail := decide (id = cfg.numReplicas - 1)

def handleRequest (replica : ReplicaT) (msg : SmltMsg) : List Out :=
  if replica.id = 0 then
    let msg := msg.withTag CHAIN_COMMIT
    .send (.replica 1) msg :: match replica.level with
      | .node => [.exec msg.command]
      | .core => [.exec msg.command, .send (.client cfg.startedFrom) msg]
  else [.print "Only leader should receive requests \n" []]

def handleCommit (replica : ReplicaT) (msg : SmltMsg) : List Out :=
  if replica.id ≠ 0 then
    if !replica.isTail then [.send (.replica replica.repRight) msg, .exec msg.command]
    else
      let msg := msg.withTag RESP_TAG
      [.send (cfg.clientAt msg.clientId) msg, .exec msg.command]
  else [.print "Replica %d: leader should not receive commit\n" [replica.id]]

def messageHandlerChain (replica : ReplicaT) (msg : SmltMsg) : List Out :=
  if msg.tag = SETUP_TAG then handleSetup cfg msg
  else if msg.tag = REQ_TAG then handleRequest cfg replica msg
  else if msg.tag = CHAIN_COMMIT then handleCommit cfg replica msg
  else [.print "unknown type in queue %lu \n" [msg.data0]]

/-- The channels of `message_handler_loop_chain`: the head receives from the clients
only, every other replica from its left neighbour only. -/
def polls (replica : ReplicaT) (src : Party) : Bool :=
  if replica.id = 0 then
    match src with
    | .client core => decide (core ∈ cfg.clients)
    | .replica _ => false
  else decide (src = .replica replica.repLeft)

def chainReplica : ReplicaProc where
  State := ReplicaT
  init := initReplicaChain cfg
  polls := polls cfg
  handle replica msg := (replica, messageHandlerChain cfg replica msg)

end SmeltConsensus.Chain.Replica
