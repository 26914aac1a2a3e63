import SmeltConsensus.Broadcast.Replica
import SmeltConsensus.TwoTier.ComLayer

/-!
The node-level broadcast replica with a core-level group below it. The leader
hands its message buffer down and then sends the same buffer to the client, with
whatever header the call has left there.
-/

set_option autoImplicit false
set_option relaxedAutoImplicit false

namespace SmeltConsensus.TwoTier.Broadcast

open SmeltConsensus.Message.Header
open SmeltConsensus.Cluster.Parties
open SmeltConsensus.Broadcast.Replica
open SmeltConsensus.TwoTier.ComLayer

/-- The replica with its field `alg_below`, and the communication layer of its thread. -/
structure NodeReplicaT where
  replica : ReplicaT
  algBelow : Nat
  com : ComLayerT

/-- The command goes to the core-level group, if there is one. -/
def forward (node : NodeReplicaT) (msg : SmltMsg) : NodeReplicaT × SmltMsg × List Effect :=
  if node.algBelow ≠ ALG_NONE then
    let (com, msg, es) := comLayerCoreSendRequest node.com msg
    ({ node with com := com }, msg, es)
  else (node, msg, [])

variable (cfg : Config)

/-- Only a leader at node level looks for a group below it. -/
def handleRequest (node : NodeReplicaT) (msg : SmltMsg) : NodeReplicaT × List Effect :=
  if node.replica.id = 0 then
    let msg := msg.withTag BROAD_COMMIT
    let commits := (sendEach (List.range' 1 (cfg.numReplicas - 1)) msg).map Effect.out
    match node.replica.level with
    | .node =>
      let (node, msg, es) := forward node msg
      (node, commits ++ es ++
        [.out (.exec msg.command), .out (.send (cfg.clientAt msg.clientId) msg)])
    | .core =>
      (node, commits ++
        [.out (.exec msg.command), .out (.send (.client cfg.startedFrom) msg)])
  else (node, [.out (.print "Only leader should receive requests \n" [])])

def handleCommit (node : NodeReplicaT) (msg : SmltMsg) : NodeReplicaT × List Effect :=
  if node.replica.id ≠ 0 then
    let (node, msg, es) := forward node msg
    (node, es ++ [.out (.exec msg.command)])
  else (node, [.out (.print "Replica %d: leader should not receive commit\n" [node.replica.id])])

/-- The message that an effect sends to a client. -/
def replyOf : Effect → Option SmltMsg
  | .out (.send (.client _) msg) => some msg
  | _ => none

/-- The messages to clients, in order. -/
def replies (es : List Effect) : List SmltMsg := es.filterMap replyOf

/-- The call returns with the caller's message as it was. -/
structure LeavesIntact (com : ComLayerT) (msg : SmltMsg) : Prop where
  tag : (comLayerCoreSendRequest com msg).2.1.tag = msg.tag
  clientId : (comLayerCoreSendRequest com msg).2.1.clientId = msg.clientId
  requestId : (comLayerCoreSendRequest com msg).2.1.requestId = msg.requestId
  payload : (comLayerCoreSendRequest com msg).2.1.payload = msg.payload

/-- The leader answers the request once, with the ids that the client put there. -/
def RepliesWithIds (node : NodeReplicaT) (msg : SmltMsg) : Prop :=
  ∃ reply, replies (handleRequest cfg node msg).2 = [reply] ∧
    reply.clientId = msg.clientId ∧ reply.requestId = msg.requestId

theorem tag_afterCall (com : ComLayerT) (msg : SmltMsg) : (afterCall com msg).tag = REQ_TAG :=
  (getTag_setClientId _ _).trans (tag_coreRequest com msg)

/-- The client id comes back through an `uint8_t`. -/
theorem clientId_afterCall (com : ComLayerT) (msg : SmltMsg) :
    (afterCall com msg).clientId = msg.clientId % 2 ^ 8 := by
  have hset : (afterCall com msg).clientId = msg.clientId % 2 ^ 8 % 2 ^ 16 :=
    getClientId_setClientId _ _
  omega

theorem requestId_afterCall (com : ComLayerT) (msg : SmltMsg) :
    (afterCall com msg).requestId = com.reqCount % 2 ^ 32 :=
  (getRequestId_setClientId _ _).trans (requestId_coreRequest com msg)

/-- The payload has nothing of the header. -/
theorem payload_header (msg : SmltMsg) (header : Nat) :
    SmltMsg.payload { msg with data0 := header } = msg.payload := rfl

theorem payload_afterCall (com : ComLayerT) (msg : SmltMsg) :
    (afterCall com msg).payload = msg.payload :=
  (payload_header (coreRequest com msg) _).trans (payload_header msg _)

theorem replies_append (es fs : List Effect) : replies (es ++ fs) = replies es ++ replies fs :=
  List.filterMap_append

/-- What goes to the other replicas is no reply. -/
theorem replies_sendEach (ids : List Nat) (msg : SmltMsg) :
    replies ((sendEach ids msg).map Effect.out) = [] := by
  induction ids with
  | nil => rfl
  | cons id ids ih => exact ih

variable {cfg} {com : ComLayerT} {replica : ReplicaT} {algBelow : Nat}

/-- The reply of the leader is the buffer that the call has left. -/
theorem replies_handleRequest (hinit : com.initDone = true) (hmp : com.algorithm ≠ ALG_SHM)
    (hid : replica.id = 0) (hlevel : replica.level = .node) (hbelow : algBelow ≠ ALG_NONE)
    (msg : SmltMsg) :
    replies (handleRequest cfg ⟨replica, algBelow, com⟩ msg).2 =
      [afterCall com (msg.withTag BROAD_COMMIT)] := by
  have hforward : forward ⟨replica, algBelow, com⟩ (msg.withTag BROAD_COMMIT) =
      (⟨replica, algBelow, { com with reqCount := com.reqCount + 1 }⟩,
        afterCall com (msg.withTag BROAD_COMMIT),
        [.nodeSend (com.cores.getD 0 0) (coreRequest com (msg.withTag BROAD_COMMIT)),
          .nodeRecv (com.cores.getD 0 0)]) := by
    rw [forward, if_pos hbelow, comLayerCoreSendRequest_mp hinit hmp]
  rw [handleRequest, if_pos hid, hlevel]
  dsimp only
  rw [hforward]
  dsimp only
  rw [replies_append, replies_append, replies_sendEach]
  rfl

/-- The buffer comes back as it was exactly when it already was the group's next request, apart
from the client id, which has to fit into eight bits. The reply of a broadcast leader has
the client's ids under the same condition on the ids. -/
theorem call_leaves_intact_iff (hinit : com.initDone = true) (hmp : com.algorithm ≠ ALG_SHM)
    (msg : SmltMsg) :
    (LeavesIntact com msg ↔
      msg.tag = REQ_TAG ∧ msg.clientId < 2 ^ 8 ∧ msg.requestId = com.reqCount % 2 ^ 32) ∧
    ∀ (cfg : Config) (replica : ReplicaT) (algBelow : Nat),
      replica.id = 0 → replica.level = .node → algBelow ≠ ALG_NONE →
      (RepliesWithIds cfg ⟨replica, algBelow, com⟩ msg ↔
        msg.clientId < 2 ^ 8 ∧ msg.requestId = com.reqCount % 2 ^ 32) := by
  have hbuffer : (comLayerCoreSendRequest com msg).2.1 = afterCall com msg := by
    rw [comLayerCoreSendRequest_mp hinit hmp]
  have hcid : msg.clientId % 2 ^ 8 = msg.clientId ↔ msg.clientId < 2 ^ 8 := by omega
  refine ⟨⟨fun h => ?_, fun ⟨htag, hlt, hrid⟩ => ?_⟩,
    fun cfg replica algBelow hid hlevel hbelow => ?_⟩
  · have htag := h.tag
    have hclient := h.clientId
    have hrequest := h.requestId
    rw [hbuffer, tag_afterCall] at htag
    rw [hbuffer, clientId_afterCall] at hclient
    rw [hbuffer, requestId_afterCall] at hrequest
    exact ⟨htag.symm, hcid.mp hclient, hrequest.symm⟩
  · constructor <;> rw [hbuffer]
    · rw [tag_afterCall, htag]
    · rw [clientId_afterCall, hcid.mpr hlt]
    · rw [requestId_afterCall, hrid]
    · exact payload_afterCall com msg
  · have hreply : replies (handleRequest cfg ⟨replica, algBelow, com⟩ msg).2 =
        [afterCall com (msg.withTag BROAD_COMMIT)] :=
      replies_handleRequest hinit hmp hid hlevel hbelow msg
    constructor
    · rintro ⟨reply, hone, hclient, hrequest⟩
      obtain rfl : afterCall com (msg.withTag BROAD_COMMIT) = reply :=
        List.singleton_inj.mp (hreply.symm.trans hone)
      rw [clientId_afterCall, SmltMsg.clientId_withTag] at hclient
      rw [requestId_afterCall] at hrequest
      exact ⟨hcid.mp hclient, hrequest.symm⟩
    · rintro ⟨hlt, hrid⟩
      refine ⟨_, hreply, ?_, ?_⟩
      · rw [clientId_afterCall, SmltMsg.clientId_withTag, hcid.mpr hlt]
      · rw [requestId_afterCall, hrid]

/-- A node of three cores that has started its 2PC group. -/
def threeCores : ComLayerT := (comLayerCoreInit ALG_TPC 2 [0, 1, 2] 3 8).1

/-- Request `rid` of client 5. -/
def requestOf5 (rid : Nat) : SmltMsg := SmltMsg.stamp ⟨0, 0, 0, 0, 0, 0, 0⟩ 5 rid 0 ⟨7, 8, 9⟩

theorem first_request_intact : LeavesIntact threeCores (requestOf5 0) := by
  have hinit : threeCores.initDone = true := rfl
  exact (call_leaves_intact_iff hinit (by decide) (requestOf5 0)).1.mpr (by decide)

/-- The second command of a group, with the first request of another client. -/
theorem second_request_not_intact :
    ¬ LeavesIntact { threeCores with reqCount := 1 } (requestOf5 0) := by
  intro h
  exact absurd h.requestId (by decide)

end SmeltConsensus.TwoTier.Broadcast
