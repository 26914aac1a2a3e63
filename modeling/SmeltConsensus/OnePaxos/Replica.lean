import SmeltConsensus.Cluster.Parties
import SmeltConsensus.OnePaxos.EntryQueue

/-!
The 1Paxos replica: the leader proposes every request to the one acceptor, the
acceptor orders the proposals and tells all other replicas what to learn.

A handler works on the buffer of the message loop, so it returns the buffer
beside the new state and what it does. The flag `kvs` is the KVS build.
-/

set_option autoImplicit false
set_option relaxedAutoImplicit false

namespace SmeltConsensus.OnePaxos.Replica

open SmeltConsensus.Foundation.Network
open SmeltConsensus.Message.Header
open SmeltConsensus.Cluster.Parties
open SmeltConsensus.OnePaxos.EntryQueue

@[simp] def ONE_PREP : Nat := 3

@[simp] def ONE_PREP_RESP : Nat := 4

@[simp] def ONE_ACC : Nat := 5

@[simp] def ONE_LEARN : Nat := 6

@[simp] def ONE_IS_ALIVE : Nat := 7

@[simp] def ONE_CHANGE_LEADER : Nat := 8

@[simp] def ONE_IS_LEADER : Nat := 9

@[simp] def ONE_GET_ACCEPTOR : Nat := 10

@[simp] def ONE_ABAN : Nat := 11

@[simp] def ONE_CHANGE_ACCEPTOR : Nat := 12

/-- The value `(uint64_t)-1`. -/
def noRid : Nat := 2 ^ 64 - 1

/-- The fields of `onepaxos_replica_t` that the handlers use. -/
structure OnepaxosReplicaT where
  id : Nat
  currentCore : Nat
  level : Level
  currentLeader : Nat
  currentAcceptor : Nat
  leaderTimeout : Bool
  acceptorTimeout : Bool
  change : Bool
  voted : Bool
  isDead : Nat → Bool
  proposalIndex : Nat
  index : Nat
  currentN : Nat
  highestProposalNumber : Nat
  lastExecutedRid : ClientTable
  numSuccess : Nat
  currentAcceptorVotes : Nat → Nat
  heap : EntryHeap
  entryQueue : EntryQueueT
  entryQInitialized : Bool
  lastEntry : MsgPtr
  /-- The process is gone: it followed a null or a freed pointer. -/
  crashed : Bool

/-- The state, the message buffer and the outputs of a handler that returns. -/
abbrev Done := OnepaxosReplicaT × SmltMsg × List Out

variable (cfg : Config) (kvs : Bool)

def initReplicaOnepaxos (id : Nat) : OnepaxosReplicaT where
  id := id
  currentCore := cfg.coreOf id
  level := cfg.level
  currentLeader := 0
  currentAcceptor := 1
  leaderTimeout := false
  acceptorTimeout := false
  change := false
  voted := false
  isDead := fun _ => false
  proposalIndex := 0
  index := 0
  currentN := 1
  highestProposalNumber := 0
  lastExecutedRid := Vector.replicate MAX_NUM_CLIENTS noRid
  numSuccess := 0
  currentAcceptorVotes := fun _ => 0
  heap := .empty
  entryQueue := entryQueueInit
  entryQInitialized := decide (id = 0)
  lastEntry := .null
  crashed := false

def OnepaxosReplicaT.crash (replica : OnepaxosReplicaT) (msg : SmltMsg) : Done :=
  ({ replica with crashed := true }, msg, [])

/-- `execute`: whether the command is no repetition, and the execution if so. -/
def execute (replica : OnepaxosReplicaT) (msg : SmltMsg) : Bool × OnepaxosReplicaT × List Out :=
  let last := replica.lastExecutedRid.read msg.clientId
  if last = msg.requestId ∨ last > msg.requestId ∧ ¬ last = noRid then (false, replica, [])
  else (true,
    { replica with
      lastExecutedRid := replica.lastExecutedRid.write msg.clientId msg.requestId },
    [.exec msg.command])

/-- The bookkeeping at the end of `handle_accept` and `handle_learn`: the index of
the message is taken over and increased. -/
def advance (replica : OnepaxosReplicaT) (msg : SmltMsg) : OnepaxosReplicaT :=
  let replica :=
    if replica.index ≠ msg.data1 then { replica with index := msg.data1 } else replica
  { replica with index := replica.index + 1 }

def handleRequest (replica : OnepaxosReplicaT) (msg : SmltMsg) : Done :=
  if replica.id = replica.currentLeader then
    let (heap, ele) := replica.heap.alloc .message
    match entryQEnqueue heap replica.entryQueue ele with
    | none => replica.crash msg
    | some (heap, queue) =>
      let msg := msg.withTag ONE_ACC
      ({ replica with
          heap := heap
          entryQueue := queue
          proposalIndex := replica.proposalIndex + 1 },
        msg, [.send (.replica replica.currentAcceptor) msg])
  else (replica, msg,
    [.print "Core %d: Forward to %d \n" [replica.currentCore, cfg.coreOf replica.currentLeader],
      .send (.replica replica.currentLeader) msg])

/-- The replies go to the core whose number is the leader's id. -/
def handlePrepare (replica : OnepaxosReplicaT) (msg : SmltMsg) : Done :=
  if replica.highestProposalNumber < msg.data2 then
    let resp := msg.withTag ONE_PREP_RESP
    let alive := resp.withTag ONE_IS_ALIVE
    ({ replica with highestProposalNumber := msg.data2 }, alive,
      [.send (cfg.partyOn replica.currentLeader) resp,
        .send (cfg.partyOn replica.currentLeader) alive])
  else (replica, msg, [])

/-- The loop that empties the queue. It takes at most as many turns as cells were
allocated. -/
def resend : Nat → OnepaxosReplicaT → SmltMsg → Done
  | 0, replica, msg => (replica, msg, [])
  | fuel + 1, replica, msg =>
    if entryQEmpty replica.entryQueue then (replica, msg, [])
    else
      match entryQDequeue replica.heap replica.entryQueue with
      | some (queue, some ele) =>
        match replica.heap.cells ele with
        | some ⟨.message, _⟩ =>
          let msg := msg.withTag ONE_ACC
          let (replica, msg', outs) :=
            resend fuel { replica with heap := replica.heap.free ele, entryQueue := queue } msg
          (replica, msg', .send (cfg.partyOn replica.currentLeader) msg :: outs)
        | _ => replica.crash msg
      | _ => replica.crash msg

def handlePrepareResponse (replica : OnepaxosReplicaT) (msg : SmltMsg) : Done :=
  if replica.entryQInitialized = false then
    let (heap, ele1) := replica.heap.alloc replica.lastEntry
    match entryQEnqueue heap entryQueueInit ele1 with
    | none => replica.crash msg
    | some (heap, queue) =>
      ({ replica with
          heap := heap
          entryQueue := queue
          entryQInitialized := true
          proposalIndex := replica.index
          change := false }, msg, [])
  else resend cfg replica.heap.fresh { replica with change := false } msg

/-- The ids that the loop of `handle_accept` does not skip. -/
def learners : List Nat := (List.range cfg.numReplicas).filter (· ≠ 1)

def handleAccept (replica : OnepaxosReplicaT) (msg : SmltMsg) : Done :=
  if msg.data2 ≥ replica.highestProposalNumber then
    let msg := { msg.withTag ONE_LEARN with data1 := replica.index }
    let learns := sendEach (learners cfg) msg
    let (_, replica, outs) := execute { replica with lastEntry := .message } msg
    (advance replica msg, msg, learns ++ outs)
  else (replica, msg, [.print "Replica %d: in accept sending abandon \n" [replica.id]])

/-- `(proposal_index - index) + 1`; the difference is unsigned, the counters do not wrap. -/
def notLearned (replica : OnepaxosReplicaT) : Nat :=
  if replica.index ≤ replica.proposalIndex + 1 then replica.proposalIndex + 1 - replica.index
  else replica.proposalIndex + 1 + 2 ^ 64 - replica.index

/-- The leader drops its oldest pending request once it has more than it proposed and
has not learned. -/
def dropLearned (replica : OnepaxosReplicaT) : Option OnepaxosReplicaT :=
  if replica.entryQueue.size > notLearned replica then
    (entryQDequeue replica.heap replica.entryQueue).map fun
      | (queue, some ele) =>
        { replica with heap := replica.heap.free ele, entryQueue := queue }
      | (queue, none) => { replica with entryQueue := queue }
  else some replica

/-- The leader's reply in `handle_learn`. -/
def reply (replica : OnepaxosReplicaT) (msg : SmltMsg) : SmltMsg × List Out :=
  match replica.level with
  | .node =>
    if kvs then (msg, [])
    else
      let msg := msg.withTag RESP_TAG
      (msg, [.send (cfg.clientAt msg.clientId) msg])
  | .core =>
    let msg := msg.withTag RESP_TAG
    (msg, [.send (.client cfg.startedFrom) msg])

def handleLearn (replica : OnepaxosReplicaT) (msg : SmltMsg) : Done :=
  let (success, replica, outs) := execute { replica with voted := false, change := false } msg
  let replica := advance replica msg
  if replica.id = replica.currentLeader then
    match dropLearned replica with
    | none => ({ replica with crashed := true }, msg, outs)
    | some replica =>
      if success then
        let (msg, resp) := reply cfg kvs replica msg
        (replica, msg, outs ++ resp)
      else (replica, msg, outs)
  else (replica, msg, outs)

def handleIsCurrentLeader (replica : OnepaxosReplicaT) (msg : SmltMsg) : Done :=
  if msg.clientId = replica.currentLeader then
    (replica, { msg with data1 := 1, data2 := 1 }, [])
  else (replica, { msg with data1 := 1, data2 := 0 }, [])

def handleGetCurrentAcceptor (replica : OnepaxosReplicaT) (msg : SmltMsg) : Done :=
  if replica.voted then (replica, msg, [])
  else ({ replica with voted := true, change := true },
    { msg with
      data0 := setClientId msg.data0 replica.id
      data1 := 1
      data2 := replica.currentAcceptor }, [])

/-- The number of positive replies that the code calls a majority. -/
def majority : Nat :=
  if cfg.numReplicas % 2 = 0 then (cfg.numReplicas - 1) / 2 + 1 else (cfg.numReplicas - 1) / 2

def nextAcceptorId (replica : OnepaxosReplicaT) : Nat :=
  ((List.range' (replica.currentAcceptor + 1)
    (cfg.numReplicas - (replica.currentAcceptor + 1))).find?
      (fun i => replica.currentLeader ≠ i)).getD (2 ^ 16 - 1)

def handleIsCurrentLeaderResponse (replica : OnepaxosReplicaT) (msg : SmltMsg) : Done :=
  if msg.data2 = 1 then
    let replica := { replica with numSuccess := (replica.numSuccess + 1) % 2 ^ 16 }
    if replica.numSuccess = majority cfg then
      let replica := { replica with
        isDead := Function.update replica.isDead replica.currentAcceptor true
        currentAcceptor := nextAcceptorId cfg replica % 2 ^ 8 }
      if replica.currentAcceptor = 65535 then
        (replica, msg,
          [.print "Replica %d: not enough nodes left to get new acceptor \n" [replica.id]])
      else
        let msg := { msg.withTag ONE_CHANGE_ACCEPTOR with data2 := replica.currentAcceptor }
        ({ replica with currentN := replica.currentN + 1, numSuccess := 0 }, msg.withTag ONE_ACC,
          [.print "Replica %d: sending prepare to %d \n" [replica.id, replica.currentAcceptor]])
    else (replica, msg, [])
  else (replica, msg, [])

def handleGetCurrentAcceptorResponse (replica : OnepaxosReplicaT) (msg : SmltMsg) : Done :=
  let votes := Function.update replica.currentAcceptorVotes msg.data2
    ((replica.currentAcceptorVotes msg.data2 + 1) % 2 ^ 16)
  if votes msg.data2 = majority cfg then
    let acceptor := msg.data2 % 2 ^ 8
    let msg := { msg.withTag ONE_CHANGE_LEADER with data2 := replica.id }
    ({ replica with
        currentAcceptor := acceptor
        isDead := Function.update replica.isDead replica.currentLeader true
        currentN := replica.currentN + 1
        currentLeader := replica.id
        currentAcceptorVotes := fun i => if i < cfg.numReplicas then 0 else votes i },
      msg.withTag ONE_PREP,
      [.print "Replica %d: I'm the new leader \n" [replica.id],
        .print "Replica %d: sending prepare to %d \n" [replica.id, acceptor]])
  else ({ replica with currentAcceptorVotes := votes }, msg, [])

def handleChangeLeader (replica : OnepaxosReplicaT) (msg : SmltMsg) : Done :=
  if msg.clientId ≠ replica.currentLeader then
    ({ replica with
        isDead := Function.update replica.isDead replica.currentLeader true
        currentLeader := msg.clientId % 2 ^ 8
        leaderTimeout := false }, msg, [])
  else (replica, msg, [])

def handleChangeAcceptor (replica : OnepaxosReplicaT) (msg : SmltMsg) : Done :=
  if msg.clientId = replica.currentLeader then
    ({ replica with
        isDead := Function.update replica.isDead replica.currentAcceptor true
        currentAcceptor := msg.data2 % 2 ^ 8
        acceptorTimeout := false }, msg, [])
  else (replica, msg, [])

def handleIsAlive (replica : OnepaxosReplicaT) (msg : SmltMsg) : Done :=
  (replica, { msg with data1 := 1, data2 := replica.id }, [])

def handleIsAliveResponse (replica : OnepaxosReplicaT) (msg : SmltMsg) : Done :=
  if msg.data2 = replica.currentLeader then ({ replica with leaderTimeout := false }, msg, [])
  else if msg.data2 = replica.currentAcceptor then
    ({ replica with acceptorTimeout := false }, msg, [])
  else (replica, msg, [])

def messageHandlerOnepaxos (replica : OnepaxosReplicaT) (msg : SmltMsg) : Done :=
  if msg.tag = SETUP_TAG then (replica, setupReply cfg.clients msg, handleSetup cfg msg)
  else if msg.tag = REQ_TAG then handleRequest cfg replica msg
  else if msg.tag = ONE_PREP then handlePrepare cfg replica msg
  else if msg.tag = ONE_PREP_RESP then handlePrepareResponse cfg replica msg
  else if msg.tag = ONE_ACC then handleAccept cfg replica msg
  else if msg.tag = ONE_LEARN then handleLearn cfg kvs replica msg
  else if msg.tag = ONE_ABAN then (replica, msg, [])
  else if msg.tag = ONE_CHANGE_LEADER then handleChangeLeader replica msg
  else if msg.tag = ONE_CHANGE_ACCEPTOR then handleChangeAcceptor replica msg
  else if msg.tag = ONE_IS_LEADER then
    if msg.data1 = 0 then handleIsCurrentLeader replica msg
    else handleIsCurrentLeaderResponse cfg replica msg
  else if msg.tag = ONE_GET_ACCEPTOR then
    if msg.data1 = 0 then handleGetCurrentAcceptor replica msg
    else handleGetCurrentAcceptorResponse cfg replica msg
  else if msg.tag = ONE_IS_ALIVE then
    if msg.data1 = 0 then handleIsAlive replica msg else handleIsAliveResponse replica msg
  else (replica, msg,
    [.print "Replica %d: unknown message type %u \n" [replica.currentCore, msg.tag]])

/-- The channels of `message_handler_loop_onepaxos`, whose role is fixed when it starts:
the first leader receives from everyone else, the first acceptor from the leader and
every other replica from the acceptor. -/
def polls (replica : OnepaxosReplicaT) (src : Party) : Bool :=
  if replica.crashed then false
  else if replica.id = 0 then
    match src with
    | .client core => decide (core ∈ cfg.clients)
    | .replica j => decide (1 ≤ j ∧ j < cfg.numReplicas)
  else if replica.id = 1 then decide (src = .replica replica.currentLeader)
  else decide (src = .replica replica.currentAcceptor)

/-- One turn of the loop; in the KVS build a learner answers for its own core. -/
def messageHandlerLoop (replica : OnepaxosReplicaT) (msg : SmltMsg) :
    OnepaxosReplicaT × List Out :=
  let (replica', msg', outs) := messageHandlerOnepaxos cfg kvs replica msg
  if kvs ∧ replica'.crashed = false ∧ replica.id ≠ 0 ∧ replica.id ≠ 1 ∧
      msg'.data3 = replica'.currentCore then
    (replica', outs ++ [.send (cfg.clientAt msg'.clientId) (msg'.withTag RESP_TAG)])
  else (replica', outs)

def onepaxosReplica : ReplicaProc where
  State := OnepaxosReplicaT
  init := initReplicaOnepaxos cfg
  polls := polls cfg
  handle := messageHandlerLoop cfg kvs

end SmeltConsensus.OnePaxos.Replica
