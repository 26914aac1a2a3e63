import SmeltConsensus.Cluster.Parties

/-!
The layer between a node and the core-level group below it. A node hands a
command down by a message to the first core of the group, and waits for one
message from there, or by a write to the shared-memory queue.
-/

set_option autoImplicit false
set_option relaxedAutoImplicit false

namespace SmeltConsensus.TwoTier.ComLayer

open SmeltConsensus.Message.Header
open SmeltConsensus.Cluster.Parties

@[simp] def ALG_1PAXOS : Nat := 0

@[simp] def ALG_TPC : Nat := 1

@[simp] def ALG_BROAD : Nat := 2

@[simp] def ALG_CHAIN : Nat := 3

@[simp] def ALG_RAFT : Nat := 4

@[simp] def ALG_SHM : Nat := 5

@[simp] def ALG_NONE : Nat := 6

/-- The fields of `com_core` that are used. -/
structure ComLayerT where
  algorithm : Nat
  currentCore : Nat
  cores : List Nat
  numCores : Nat
  cmdSize : Nat
  reqCount : Nat
  initDone : Bool

/-- What a node does: at node level, and with the group below it. -/
inductive Effect
  | out (o : Out)
  | nodeSend (core : Nat) (msg : SmltMsg)
  | nodeRecv (core : Nat)
  | shmWrite (cmd : Payload)
  deriving DecidableEq

/-- `com_layer_core_init`: the group is started, unless the algorithm is unknown. The last
core of the node is not part of the group. -/
def comLayerCoreInit (algorithm currentCore : Nat) (cores : List Nat)
    (numCores cmdSize : Nat) : ComLayerT × List Effect :=
  let com : ComLayerT := ⟨algorithm, currentCore, cores, numCores, cmdSize, 0, false⟩
  if algorithm < 7 then ({ com with numCores := numCores - 1, initDone := true }, [])
  else (com, [.out (.print "Com Layer: Unknown algorithm \n" [])])

/-- The fields of `cons_args_t` that `init_protocol_core` fills in for a core-level group. -/
structure ConsArgsT where
  id : Nat
  numReplicas : Nat
  algo : Nat
  level : Level
  startedFrom : Nat
  replicas : List Nat
  clients : List Nat

/-- `thr_args2[id]` of `init_protocol_core`. -/
def thrArgs2 (com : ComLayerT) (id : Nat) : ConsArgsT where
  id := id
  numReplicas := com.numCores
  algo := com.algorithm
  level := .core
  startedFrom := com.currentCore
  replicas := com.cores
  clients := [com.currentCore]

/-- The message that goes down: a request of client 0 with the next number. -/
def coreRequest (com : ComLayerT) (msg : SmltMsg) : SmltMsg :=
  { msg with
    data0 := setRequestId (setClientId (setTag msg.data0 REQ_TAG) 0) com.reqCount }

/-- `com_layer_core_send_request`: the state, the message buffer and what was done. The client
id goes through an `uint8_t`; what `smlt_node_recv` receives is not looked at. -/
def comLayerCoreSendRequest (com : ComLayerT) (msg : SmltMsg) :
    ComLayerT × SmltMsg × List Effect :=
  if com.initDone = false then
    (com, msg, [.out
      (.print "Com Layer: Can not send request to core layer, not initialized yet \n" [])])
  else if com.algorithm = ALG_SHM then
    ({ com with reqCount := com.reqCount + 1 }, msg, [.shmWrite msg.payload])
  else
    let down := coreRequest com msg
    ({ com with reqCount := com.reqCount + 1 },
      { down with data0 := setClientId down.data0 (msg.clientId % 2 ^ 8) },
      [.nodeSend (com.cores.getD 0 0) down, .nodeRecv (com.cores.getD 0 0)])

/-- The words at `&msg->data[4]`. -/
def words (cmd : Payload) : List Nat := [cmd.word0, cmd.word1, cmd.word2]

/-- What `shm_write` copies of a command to a slot of `slotSize` bytes. -/
def copied (slotSize : Nat) (cmd : Payload) : List Nat := (words cmd).take (slotSize / 8)

/-- The command that goes down with an effect, where the slots have `slotSize` bytes. -/
def Effect.handedDown (slotSize : Nat) : Effect → Option (List Nat)
  | .nodeSend _ msg => some (words msg.payload)
  | .shmWrite cmd => some (copied slotSize cmd)
  | _ => none

/-- The command that the node itself executes with an effect. -/
def Effect.executedHere : Effect → Option (List Nat)
  | .out (.exec c) => some (words c.payload)
  | _ => none

/-- The commands handed to the group below, in order. -/
def handedDown (slotSize : Nat) (es : List Effect) : List (List Nat) :=
  es.filterMap (Effect.handedDown slotSize)

/-- The commands that the node itself executes, in order. -/
def executedHere (es : List Effect) : List (List Nat) := es.filterMap Effect.executedHere

theorem handedDown_append (slotSize : Nat) (es fs : List Effect) :
    handedDown slotSize (es ++ fs) = handedDown slotSize es ++ handedDown slotSize fs :=
  List.filterMap_append

theorem executedHere_append (es fs : List Effect) :
    executedHere (es ++ fs) = executedHere es ++ executedHere fs := List.filterMap_append

/-- Nothing goes down at node level. -/
theorem handedDown_map_out (slotSize : Nat) (os : List Out) :
    handedDown slotSize (os.map .out) = [] := by
  induction os with
  | nil => rfl
  | cons o os ih => exact ih

theorem executedHere_map_out (os : List Out) :
    executedHere (os.map .out) = (os.filterMap execOf).map fun c => words c.payload := by
  induction os with
  | nil => rfl
  | cons o os ih =>
    cases o with
    | send dst msg => exact ih
    | exec c => exact congrArg (words c.payload :: ·) ih
    | print text args => exact ih

theorem comLayerCoreInit_initDone {algorithm : Nat} (h : algorithm < ALG_NONE)
    (currentCore : Nat) (cores : List Nat) (numCores cmdSize : Nat) :
    (comLayerCoreInit algorithm currentCore cores numCores cmdSize).1.initDone = true := by
  have hknown : algorithm < 7 := Nat.lt_succ_of_lt h
  rw [comLayerCoreInit, if_pos hknown]

theorem tag_coreRequest (com : ComLayerT) (msg : SmltMsg) :
    (coreRequest com msg).tag = REQ_TAG := by
  show getTag (setRequestId (setClientId (setTag msg.data0 REQ_TAG) 0) com.reqCount) = REQ_TAG
  rw [getTag_setRequestId, getTag_setClientId, getTag_setTag]
  rfl

theorem clientId_coreRequest (com : ComLayerT) (msg : SmltMsg) :
    (coreRequest com msg).clientId = 0 := by
  show getClientId (setRequestId (setClientId (setTag msg.data0 REQ_TAG) 0) com.reqCount) = 0
  rw [getClientId_setRequestId, getClientId_setClientId, Nat.zero_mod]

theorem requestId_coreRequest (com : ComLayerT) (msg : SmltMsg) :
    (coreRequest com msg).requestId = com.reqCount % 2 ^ 32 := by
  show getRequestId (setRequestId (setClientId (setTag msg.data0 REQ_TAG) 0) com.reqCount) = _
  rw [getRequestId_setRequestId]

/-- The buffer of the caller after the exchange with a message-passing group. -/
def afterCall (com : ComLayerT) (msg : SmltMsg) : SmltMsg :=
  { coreRequest com msg with
    data0 := setClientId (coreRequest com msg).data0 (msg.clientId % 2 ^ 8) }

theorem comLayerCoreSendRequest_mp {com : ComLayerT} (h : com.initDone = true)
    (hmp : com.algorithm ≠ ALG_SHM) (msg : SmltMsg) :
    comLayerCoreSendRequest com msg =
      ({ com with reqCount := com.reqCount + 1 }, afterCall com msg,
        [.nodeSend (com.cores.getD 0 0) (coreRequest com msg), .nodeRecv (com.cores.getD 0 0)]) := by
  have hdone : ¬ com.initDone = false := by
    rw [h]
    exact Bool.noConfusion
  rw [comLayerCoreSendRequest, if_neg hdone, if_neg hmp]
  rfl

/-- What the group below gets of a command. -/
def received (com : ComLayerT) (cmd : Payload) : List Nat :=
  if com.algorithm = ALG_SHM then copied com.cmdSize cmd else words cmd

/-- Each call hands one command down and executes none. -/
theorem comLayerCoreSendRequest_spec {com : ComLayerT} (h : com.initDone = true) (msg : SmltMsg) :
    ∃ msg' es, comLayerCoreSendRequest com msg =
        ({ com with reqCount := com.reqCount + 1 }, msg', es) ∧
      handedDown com.cmdSize es = [received com msg.payload] ∧ executedHere es = [] := by
  by_cases hshm : com.algorithm = ALG_SHM
  · have hdone : ¬ com.initDone = false := by
      rw [h]
      exact Bool.noConfusion
    refine ⟨msg, [.shmWrite msg.payload], ?_, ?_, rfl⟩
    · rw [comLayerCoreSendRequest, if_neg hdone, if_pos hshm]
    · rw [received, if_pos hshm]
      rfl
  · refine ⟨_, _, comLayerCoreSendRequest_mp h hshm msg, ?_, rfl⟩
    rw [received, if_neg hshm]
    rfl

end SmeltConsensus.TwoTier.ComLayer
