import SmeltConsensus.Cluster.Parties

/-! The replica of two-phase commit: the leader prepares every request at all
participants and commits it once as many of them are ready. -/

set_option autoImplicit false
set_option relaxedAutoImplicit false

namespace SmeltConsensus.TwoPhase.Replica

open SmeltConsensus.Foundation.Network
open SmeltConsensus.Message.Header
open SmeltConsensus.Cluster.Parties

@[simp] def TPC_PREP : Nat := 3

@[simp] def TPC_RDY : Nat := 4

@[simp] def TPC_COM : Nat := 5

/-- The fields of `tpc_replica_t` that the handlers use. -/
structure TpcReplicaT where
  id : Nat
  level : Level
  index : Nat
  /-- `uint8_t` counters. -/
  readyCounter : ClientTable
  ackCounter : ClientTable

variable (cfg : Config)

/-- The counter arrays come from `malloc`, with whatever is in them. -/
def initReplicaTpc (ready ack : ClientTable) (id : Nat) : TpcReplicaT :=
  ⟨id, cfg.level, 0, ready, ack⟩

def handleRequest (replica : TpcReplicaT) (msg : SmltMsg) : TpcReplicaT × List Out :=
  if replica.id = 0 then
    ({ replica with
        readyCounter := replica.readyCounter.write msg.clientId 0
        ackCounter := replica.ackCounter.write msg.clientId 0 },
      sendEach (List.range' 1 (cfg.numReplicas - 1)) (msg.withTag TPC_PREP))
  else (replica, [.send (.replica 0) msg])

def handlePrepare (replica : TpcReplicaT) (msg : SmltMsg) : List Out :=
  if replica.id ≠ 0 then [.send (.replica 0) (msg.withTag TPC_RDY)]
  else [.print "Replica %d: leader shoult not receive prepare \n" [replica.id]]

/-- The message that commits `msg` under the next index. -/
def commitMsg (replica : TpcReplicaT) (msg : SmltMsg) : SmltMsg :=
  { msg.withTag TPC_COM with data3 := replica.index + 1 }

def handleReady (replica : TpcReplicaT) (msg : SmltMsg) : TpcReplicaT × List Out :=
  if replica.id = 0 then
    let count := (replica.readyCounter.read msg.clientId + 1) % 2 ^ 8
    let counted := { replica with readyCounter := replica.readyCounter.write msg.clientId count }
    if cfg.numReplicas - 1 ≤ counted.readyCounter.read msg.clientId then
      let com := commitMsg replica msg
      ({ counted with index := replica.index + 1 },
        sendEach (List.range' 1 (cfg.numReplicas - 1)) com ++
          [.exec com.command,
            match replica.level with
            | .node => .send (cfg.clientAt msg.clientId) (com.withTag RESP_TAG)
            | .core => .send (.client cfg.startedFrom) (com.withTag RESP_TAG)])
    else (counted, [])
  else (replica, [.print "Replica %d: Ready messages received \n" [replica.id]])

def handleCommit (replica : TpcReplicaT) (msg : SmltMsg) : List Out :=
  if replica.id ≠ 0 then [.exec msg.command]
  else [.print "Replica %d: leader shoult not receive commit \n" [replica.id]]

def messageHandlerTpc (replica : TpcReplicaT) (msg : SmltMsg) : TpcReplicaT × List Out :=
  if msg.tag = SETUP_TAG then (replica, handleSetup cfg msg)
  else if msg.tag = REQ_TAG then handleRequest cfg replica msg
  else if msg.tag = TPC_PREP then (replica, handlePrepare replica msg)
  else if msg.tag = TPC_RDY then handleReady cfg replica msg
  else if msg.tag = TPC_COM then (replica, handleCommit replica msg)
  else (replica, [.print "unknown type in message_handler %lu \n" [msg.data0]])

/-- The channels of `message_handler_loop_tpc`: the leader receives from the
other replicas and the clients, every participant from the leader only. -/
def polls (replica : TpcReplicaT) (src : Party) : Bool :=
  if replica.id = 0 then
    match src with
    | .client core => decide (core ∈ cfg.clients)
    | .replica j => decide (1 ≤ j ∧ j < cfg.numReplicas)
  else decide (src = .replica 0)

def tpcReplica (ready ack : ClientTable) : ReplicaProc where
  State := TpcReplicaT
  init := initReplicaTpc cfg ready ack
  polls := polls cfg
  handle := messageHandlerTpc cfg

end SmeltConsensus.TwoPhase.Replica
