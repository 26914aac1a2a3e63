import SmeltConsensus.Cluster.Parties
import SmeltConsensus.Raft.LogQueue

/-!
The Raft replica. The leader appends every request to its log, sends it to all
followers and then, inside of the handler, receives one message from each
follower in turn and dispatches it.

A handler works on one of the two message buffers of the process. A handler that
is blocked inside of `smlt_recv` is a loop counter on the stack `waits`.
-/

set_option autoImplicit false
set_option relaxedAutoImplicit false

namespace SmeltConsensus.Raft.Replica

open SmeltConsensus.Foundation.Network
open SmeltConsensus.Foundation.LinkedHeap
open SmeltConsensus.Message.Header
open SmeltConsensus.Cluster.Parties
open SmeltConsensus.Raft.LogQueue

@[simp] def RAFT_APP : Nat := 3

@[simp] def RAFT_APPR : Nat := 4

@[simp] def RAFT_APPE : Nat := 5

@[simp] def RAFT_REQV : Nat := 6

@[simp] def RAFT_REQVR : Nat := 7

/-- The buffer `message` of the message loop, or `buf`, which `handle_request` receives into. -/
inductive MsgRef
  | message
  | buf
  deriving DecidableEq

/-- The fields of `raft_replica_t` that the handlers use, and the rest of the process.
`next_index` and `match_index` are arrays of `MAX_NUM_REPLICAS` entries, one after the other;
with more replicas their entries would overlap. -/
structure RaftReplicaT where
  id : Nat
  currentCore : Nat
  currentTerm : Nat
  currentLeader : Nat
  votedFor : Int
  commitIndex : Nat
  lastApplied : Nat
  lastLogIndex : Nat
  previousTerm : Nat
  heap : LogHeap
  queue : LogQueueT
  nextIndex : Nat → Nat
  matchIndex : Nat → Nat
  electionTimeout : Bool
  isLeader : Bool
  isCandidate : Bool
  isFollower : Bool
  message : SmltMsg
  buf : SmltMsg
  /-- The loop counters of the blocked calls of `handle_request`, innermost first. -/
  waits : List Nat
  /-- The process is gone: a null or freed pointer was followed, or an assertion failed. -/
  crashed : Bool

/-- The state after a handler, and what it does. -/
abbrev Done := RaftReplicaT × List Out

namespace RaftReplicaT

def msg (replica : RaftReplicaT) : MsgRef → SmltMsg
  | .message => replica.message
  | .buf => replica.buf

def setMsg (replica : RaftReplicaT) (ref : MsgRef) (msg : SmltMsg) : RaftReplicaT :=
  match ref with
  | .message => { replica with message := msg }
  | .buf => { replica with buf := msg }

def crash (replica : RaftReplicaT) (outs : List Out) : Done :=
  ({ replica with crashed := true }, outs)

/-- Go on with the heap after an operation, unless the operation failed. -/
def withHeap (replica : RaftReplicaT) (outs : List Out) : Option LogHeap → Done
  | some heap => ({ replica with heap := heap }, outs)
  | none => replica.crash outs

end RaftReplicaT

/-- Sequential composition. -/
def andThen (r : Done) (f : RaftReplicaT → Done) : Done :=
  if r.1.crashed then r else ((f r.1).1, r.2 ++ (f r.1).2)

variable (cfg : Config)

private def zeroMsg : SmltMsg := ⟨0, 0, 0, 0, 0, 0, 0⟩

/-- The first entry of every log, which `init_replica_raft` enqueues. -/
def firstEntry : LogEntry := ⟨0, 0, 1, 0, ⟨0, 0, 0⟩⟩

/-- The heap and the queue after the first `enqueue`. -/
def initLog : LogHeap × LogQueueT :=
  let (heap, ele) := Heap.empty.alloc firstEntry
  (enqueue heap logQueueInit ele).getD (heap, logQueueInit)

def initReplicaRaft (id : Nat) : RaftReplicaT where
  id := id
  currentCore := cfg.coreOf id
  currentTerm := 1
  currentLeader := 0
  votedFor := -1
  commitIndex := 0
  lastApplied := 0
  lastLogIndex := 0
  previousTerm := 0
  heap := initLog.1
  queue := initLog.2
  nextIndex := fun i => if i < cfg.numReplicas then 2 else 0
  matchIndex := fun _ => 0
  electionTimeout := false
  isLeader := decide (id = 0)
  isCandidate := false
  isFollower := decide (id ≠ 0)
  message := zeroMsg
  buf := zeroMsg
  waits := []
  crashed := false

def updateState (replica : RaftReplicaT) (term leaderId : Nat) : RaftReplicaT :=
  if term > replica.currentTerm ∨ replica.isCandidate then
    { replica with
      currentTerm := term
      currentLeader := leaderId
      votedFor := -1
      isLeader := false
      isFollower := true
      isCandidate := false }
  else replica

/-- What the leader does to an entry it has executed and answered. -/
def cleanExecuted (replica : RaftReplicaT) (ele : Nat) : Option LogHeap :=
  (replica.heap.setVal (some ele) fun e => { e with execCount := (e.execCount + 1) % 2 ^ 8 }).bind
    fun heap => cleanupQueue cfg.numReplicas replica.commitIndex heap replica.queue

/-- What a follower does after an execution: it removes and frees an older entry. -/
def removeExecuted (replica : RaftReplicaT) : Option LogHeap :=
  if replica.lastApplied > 2 then
    (removeEntry replica.heap replica.queue (replica.lastApplied - 2)).bind fun
      | (heap, none) => some heap
      | (heap, some ele) => heap.free (some ele)
  else some replica.heap

/-- One turn of the loop of `update_applied_entries`. -/
def applyNext (replica : RaftReplicaT) : Done :=
  let replica := { replica with lastApplied := replica.lastApplied + 1 }
  match queueContains replica.heap replica.queue replica.lastApplied with
  | some (some ele) =>
    match replica.heap.val ele with
    | some e =>
      if replica.id = replica.currentLeader then
        replica.withHeap
          [.exec e.command, .send (cfg.clientAt (getClientId e.header)) replica.buf]
          (cleanExecuted cfg replica ele)
      else replica.withHeap [.exec e.command] (removeExecuted replica)
    | none => replica.crash []
  | _ => replica.crash []

def applyEntries : Nat → RaftReplicaT → Done
  | 0, replica => (replica, [])
  | turns + 1, replica => andThen (applyNext cfg replica) (applyEntries turns)

def updateAppliedEntries (replica : RaftReplicaT) : Done :=
  applyEntries cfg (replica.commitIndex - replica.lastApplied) replica

/-- The inner loop of `update_commit_index_leader`: `num_larger` and the commit index. -/
def countLarger (majority toTest : Nat) (matchIndex : Nat → Nat) (commitIndex : Nat)
    (js : List Nat) : Nat × Nat :=
  js.foldl (fun s j =>
    let numLarger := if toTest ≤ matchIndex j then s.1 + 1 else s.1
    (numLarger, if majority ≤ numLarger then toTest else s.2)) (0, commitIndex)

/-- The commit index after the two loops of `update_commit_index_leader`. -/
def commitIndexAfter (numReplicas : Nat) (matchIndex : Nat → Nat) (commitIndex : Nat) : Nat :=
  (List.range numReplicas).foldl (fun commitIndex i =>
    if matchIndex i > commitIndex then
      (countLarger ((numReplicas - 1) / 2) (matchIndex i) matchIndex commitIndex
        (List.range numReplicas)).2
    else commitIndex) commitIndex

def updateCommitIndexLeader (replica : RaftReplicaT) : RaftReplicaT :=
  { replica with
    commitIndex := commitIndexAfter cfg.numReplicas replica.matchIndex replica.commitIndex }

/-- The replicas that the loops of `handle_request` do not skip, from counter `i` on. -/
def others (replica : RaftReplicaT) (i : Nat) : List Nat :=
  (List.range' i (cfg.numReplicas - i)).filter (· ≠ replica.currentLeader)

def handleRequest (replica : RaftReplicaT) (ref : MsgRef) : Done :=
  let msg := replica.msg ref
  if replica.id = replica.currentLeader then
    let replica := { replica with lastLogIndex := replica.lastLogIndex + 1 }
    let (heap, ele) := replica.heap.alloc
      ⟨0, replica.lastLogIndex, replica.currentTerm, msg.data0, msg.payload⟩
    match enqueue heap replica.queue ele with
    | none => replica.crash []
    | some (heap, queue) =>
      let msg := { msg.withTag RAFT_APP with
        data1 := setTag (setRequestId msg.data1 replica.currentTerm) replica.currentLeader
        data2 := pred64 replica.lastLogIndex
        data3 := replica.commitIndex }
      (({ replica with heap := heap, queue := queue, waits := 0 :: replica.waits }).setMsg ref msg,
        sendEach (others cfg replica 0) msg)
  else (replica, [.send (.replica replica.currentLeader) msg])

def handleEmptyAppend (replica : RaftReplicaT) (ref : MsgRef) : Done :=
  let msg := replica.msg ref
  if msg.data1 ≥ replica.commitIndex then
    updateAppliedEntries cfg
      { replica with
        commitIndex := min msg.data1 replica.lastLogIndex
        electionTimeout := false }
  else ({ replica with electionTimeout := false }, [])

/-- The RAFT_APPR message that `handle_append` makes of the RAFT_APP message. -/
def answer (replica : RaftReplicaT) (msg : SmltMsg) (index success : Nat) : SmltMsg :=
  { msg.withTag RAFT_APPR with
    data1 := replica.currentTerm
    data2 := index
    data3 := replica.id
    data4 := success }

def reject (replica : RaftReplicaT) (ref : MsgRef) (leader : Nat) : Done :=
  let msg := answer replica (replica.msg ref) (replica.msg ref).data2 0
  (replica.setMsg ref msg, [.send (.replica leader) msg])

/-- The part of `handle_append` after the checks: the entry is appended and the leader told. -/
def appendEntry (replica : RaftReplicaT) (ref : MsgRef) (term leader : Nat) : Done :=
  let msg := replica.msg ref
  let (heap, ele) := replica.heap.alloc
    ⟨0, msg.data2 + 1, term, setTag msg.data0 RAFT_APPR, msg.payload⟩
  match enqueue heap replica.queue ele with
  | none => replica.crash []
  | some (heap, queue) =>
    let replica := { replica with
      heap := heap
      queue := queue
      lastLogIndex := msg.data2 + 1
      commitIndex := if msg.data3 > replica.commitIndex then min msg.data3 (msg.data2 + 1)
        else replica.commitIndex }
    let msg := answer replica msg (msg.data2 + 1) 1
    (replica.setMsg ref msg, [.send (.replica leader) msg])

/-- The entry at `index` and all that follow it are unlinked, if it is there. -/
def deleteConflict (replica : RaftReplicaT) (index : Nat) : Option LogHeap :=
  (queueContains replica.heap replica.queue index).bind fun
    | none => some replica.heap
    | some _ => removeFollowing (replica.heap.fresh + 1) replica.heap replica.queue index

def handleAppend (replica : RaftReplicaT) (ref : MsgRef) : Done :=
  let msg := replica.msg ref
  let term := getRequestId msg.data1
  let leader := getTag msg.data1 % 2 ^ 8
  let replica := updateState { replica with electionTimeout := false } term leader
  if replica.id ≠ leader then
    if term < replica.currentTerm then reject replica ref leader
    else
      match queueContains replica.heap replica.queue msg.data2 with
      | none => replica.crash []
      | some none => reject replica ref leader
      | some (some _) =>
        match deleteConflict replica (msg.data2 + 1) with
        | none => replica.crash []
        | some heap =>
          andThen (appendEntry { replica with heap := heap } ref term leader)
            (updateAppliedEntries cfg)
  else andThen (replica,
    [.print "Replica %d: Leader should not receive appendEntry requests \n" [replica.id]])
    (updateAppliedEntries cfg)

/-- The branch of `handle_append_response` that sends the entry after `ele` once more. -/
def resend (replica : RaftReplicaT) (ref : MsgRef) (ele replicaId lastIndex : Nat) : Done :=
  let texts : List Out := [.print "Resending to %d \n" [replicaId],
    .print "Log index %lu next_index %lu\n" [replica.lastLogIndex, replica.nextIndex replicaId]]
  match replica.heap.deref (replica.heap.next ele) with
  | none => replica.crash texts
  | some node =>
    let msg := replica.msg ref
    let msg := { msg.withTag RAFT_APP with
      data1 := setTag (setRequestId msg.data1 replica.currentTerm) replica.id
      data2 := lastIndex
      data3 := replica.commitIndex
      data4 := node.val.payload.word0
      data5 := node.val.payload.word1
      data6 := node.val.payload.word2 }
    (replica.setMsg ref msg, texts ++ [.send (.replica replicaId) msg])

def handleAppendResponse (replica : RaftReplicaT) (ref : MsgRef) : Done :=
  let msg := replica.msg ref
  let term := msg.data1 % 2 ^ 32
  let lastIndex := msg.data2
  let replicaId := msg.data3 % 2 ^ 8
  let replica := updateState replica term replica.currentLeader
  if msg.data4 ≠ 0 then
    let replica := { replica with
      nextIndex := Function.update replica.nextIndex replicaId (lastIndex + 1)
      matchIndex := Function.update replica.matchIndex replicaId lastIndex }
    match queueContains replica.heap replica.queue lastIndex with
    | some (some ele) =>
      match replica.heap.setVal (some ele)
        fun e => { e with execCount := (e.execCount + 1) % 2 ^ 8 } with
      | none => replica.crash []
      | some heap =>
        let replica := updateCommitIndexLeader cfg { replica with heap := heap }
        andThen
          (if replica.lastLogIndex ≥ replica.nextIndex replicaId then
            resend replica ref ele replicaId lastIndex
          else (replica, []))
          (updateAppliedEntries cfg)
    | _ => replica.crash []
  else if lastIndex < replica.matchIndex replicaId then (replica, [])
  else
    -- `assert(ele != NULL)`, and nothing has been assigned to `ele`
    ({ replica with
        nextIndex := Function.update replica.nextIndex replicaId (pred64 lastIndex) }).crash []

def messageHandlerRaft (replica : RaftReplicaT) (ref : MsgRef) : Done :=
  let msg := replica.msg ref
  if msg.tag = SETUP_TAG then
    (replica.setMsg ref (setupReply cfg.clients msg), handleSetup cfg msg)
  else if msg.tag = REQ_TAG then handleRequest cfg replica ref
  else if msg.tag = RAFT_APP then handleAppend cfg replica ref
  else if msg.tag = RAFT_APPE then handleEmptyAppend cfg replica ref
  else if msg.tag = RAFT_APPR then handleAppendResponse cfg replica ref
  else if msg.tag = RAFT_REQV then (replica, [])
  else if msg.tag = RAFT_REQVR then (replica, [])
  else (replica, [.print "Replica %d: unknown type in queue %u \n" [replica.currentCore, msg.tag]])

/-- Every `handle_request` on the stack goes on to its next `smlt_recv` or returns. -/
def settle (replica : RaftReplicaT) : List Nat → RaftReplicaT
  | [] => { replica with waits := [] }
  | i :: rest =>
    match (others cfg replica i).head? with
    | some j => { replica with waits := j :: rest }
    | none => settle { replica with previousTerm := replica.currentTerm } rest

/-- A message is received into `message` by the loop, or into `buf` inside of `handle_request`. -/
def messageHandlerLoop (replica : RaftReplicaT) (msg : SmltMsg) : Done :=
  let r := match replica.waits with
    | [] => messageHandlerRaft cfg { replica with message := msg } .message
    | i :: rest => messageHandlerRaft cfg { replica with buf := msg, waits := (i + 1) :: rest } .buf
  (settle cfg r.1 r.1.waits, r.2)

/-- A blocked handler receives from one replica. Otherwise the leader at start receives
from all replicas and clients, everyone else from the current leader. -/
def polls (replica : RaftReplicaT) (src : Party) : Bool :=
  if replica.crashed then false
  else
    match replica.waits with
    | i :: _ => decide (src = .replica i)
    | [] =>
      if replica.id = 0 then
        match src with
        | .client core => decide (core ∈ cfg.clients)
        | .replica j => decide (j < cfg.numReplicas)
      else decide (src = .replica replica.currentLeader)

def raftReplica : ReplicaProc where
  State := RaftReplicaT
  init := initReplicaRaft cfg
  polls := polls cfg
  handle := messageHandlerLoop cfg

section Handlers

variable {cfg}

/-- A message of no newer term changes no leader. -/
theorem updateState_eq (r : RaftReplicaT) {term : Nat} (hterm : term ≤ r.currentTerm)
    (hcandidate : r.isCandidate = false) (leader : Nat) : updateState r term leader = r := by
  have hnot : ¬ (term > r.currentTerm ∨ r.isCandidate = true) := by
    rw [hcandidate]
    simp [hterm]
  rw [updateState, if_neg hnot]

/-- A message that arrives while no handler is blocked. -/
theorem messageHandlerLoop_idle {r : RaftReplicaT} (hwaits : r.waits = []) {msg : SmltMsg}
    {r' : RaftReplicaT} {outs : List Out}
    (h : messageHandlerRaft cfg { r with message := msg } .message = (r', outs)) :
    messageHandlerLoop cfg r msg = (settle cfg r' r'.waits, outs) := by
  unfold messageHandlerLoop
  split
  · rw [h]
  · rename_i heq
    rw [hwaits] at heq
    cases heq

/-- A message that `handle_request` receives while it waits for replica `i`. -/
theorem messageHandlerLoop_blocked {r : RaftReplicaT} {i : Nat} {rest : List Nat}
    (hwaits : r.waits = i :: rest) {msg : SmltMsg} {r' : RaftReplicaT} {outs : List Out}
    (h : messageHandlerRaft cfg { r with buf := msg, waits := (i + 1) :: rest } .buf =
      (r', outs)) :
    messageHandlerLoop cfg r msg = (settle cfg r' r'.waits, outs) := by
  unfold messageHandlerLoop
  rw [hwaits]
  dsimp only
  rw [h]

variable {r : RaftReplicaT}

theorem updateAppliedEntries_none (h : r.commitIndex = r.lastApplied) :
    updateAppliedEntries cfg r = (r, []) := by
  rw [updateAppliedEntries, h, Nat.sub_self]
  rfl

/-- One committed entry is not applied yet. -/
theorem updateAppliedEntries_one {r' : RaftReplicaT} {outs : List Out}
    (h : r.commitIndex = r.lastApplied + 1) (hnext : applyNext cfg r = (r', outs)) :
    updateAppliedEntries cfg r = (r', outs) := by
  rw [updateAppliedEntries, h, Nat.add_sub_cancel_left, applyEntries, hnext, andThen]
  cases r'.crashed with
  | true => rfl
  | false => rw [if_neg Bool.false_ne_true, applyEntries, List.append_nil]

theorem andThen_eq {r' : RaftReplicaT} {outs : List Out} (h : r.crashed = false)
    (f : RaftReplicaT → Done) (hf : f r = (r', outs)) (outs' : List Out) :
    andThen (r, outs') f = (r', outs' ++ outs) := by
  rw [andThen, h, if_neg Bool.false_ne_true, hf]

/-- The replicas after the leader itself. -/
theorem others_eq {i : Nat} (hleader : r.currentLeader = 0) (hi : 1 ≤ i) :
    others cfg r i = List.range' i (cfg.numReplicas - i) := by
  rw [others, hleader]
  refine List.filter_eq_self.mpr fun j hj => ?_
  have hle := (List.mem_range'_1.mp hj).1
  exact decide_eq_true (by omega)

theorem others_zero (hleader : r.currentLeader = 0) :
    others cfg r 0 = List.range' 1 (cfg.numReplicas - 1) := by
  have hlen : cfg.numReplicas - 0 = cfg.numReplicas - 1 + 1 := by
    have h2 := cfg.two_le_numReplicas
    omega
  rw [← others_eq hleader le_rfl, others, others, hlen, List.range'_succ, hleader]
  rfl

/-- One blocked call of `handle_request` waits for the next replica, if there is one. -/
theorem settle_eq (hleader : r.currentLeader = 0) {i : Nat} (hi : 1 ≤ i) :
    settle cfg r [i] = { r with
      waits := if i < cfg.numReplicas then [i] else []
      previousTerm := if i < cfg.numReplicas then r.previousTerm else r.currentTerm } := by
  rw [settle, others_eq hleader hi]
  by_cases hlt : i < cfg.numReplicas
  · have hlen : cfg.numReplicas - i = cfg.numReplicas - i - 1 + 1 := by omega
    rw [if_pos hlt, if_pos hlt, hlen, List.range'_succ]
    rfl
  · have hlen : cfg.numReplicas - i = 0 := by omega
    rw [if_neg hlt, if_neg hlt, hlen]
    rfl

end Handlers

end SmeltConsensus.Raft.Replica
