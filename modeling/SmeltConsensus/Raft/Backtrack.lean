import SmeltConsensus.Raft.Log

/-!
A leader whose follower rejects an entry.

Nothing has been assigned to `ele` when the failure branch of
`handle_append_response` asserts that it is not null, so the branch never gets
past that.
-/

set_option autoImplicit false
set_option relaxedAutoImplicit false

namespace SmeltConsensus.Raft.Backtrack

open SmeltConsensus.Foundation.LinkedHeap
open SmeltConsensus.Message.Header
open SmeltConsensus.Cluster.Parties
open SmeltConsensus.Raft.LogQueue
open SmeltConsensus.Raft.Replica
open SmeltConsensus.Raft.Log

/-- The follower in a RAFT_APPR message. -/
def replicaId (msg : SmltMsg) : Nat := msg.data3 % 2 ^ 8

/-- A leader with its whole log gets a reply without success for an entry that it has and does
not know to be matched. -/
structure Rejected (l : RaftReplicaT) (as : List Nat) (msg : SmltMsg) : Prop where
  leader : l.id = l.currentLeader
  alive : l.crashed = false
  log : HoldsFrom l.heap l.queue as 0 l.lastLogIndex
  tag : msg.tag = RAFT_APPR
  failure : msg.data4 = 0
  pos : 1 ≤ msg.data2
  unmatched : l.matchIndex (replicaId msg) ≤ msg.data2
  le_last : msg.data2 ≤ l.lastLogIndex

/-- What the leader should do: step back by one entry and send the rejected one once more. -/
structure StepsBack (cfg : Config) (l : RaftReplicaT) (msg : SmltMsg) : Prop where
  alive : (handleAppendResponse cfg { l with message := msg } .message).1.crashed = false
  matchIndex :
    (handleAppendResponse cfg { l with message := msg } .message).1.matchIndex = l.matchIndex
  commitIndex :
    (handleAppendResponse cfg { l with message := msg } .message).1.commitIndex = l.commitIndex
  nextIndex : (handleAppendResponse cfg { l with message := msg } .message).1.nextIndex
    (replicaId msg) < l.nextIndex (replicaId msg)
  resent : ∃ m ele e, .send (.replica (replicaId msg)) m ∈
      (handleAppendResponse cfg { l with message := msg } .message).2 ∧
    queueContains l.heap l.queue msg.data2 = some (some ele) ∧ l.heap.val ele = some e ∧
    m.tag = RAFT_APP ∧ getRequestId m.data1 = l.currentTerm % 2 ^ 32 ∧
    getTag m.data1 = l.id % 2 ^ 16 ∧ m.data2 = msg.data2 - 1 ∧ m.payload = e.payload

variable {l : RaftReplicaT} {as : List Nat} {msg : SmltMsg}

theorem updateState_matchIndex (l : RaftReplicaT) (term leaderId : Nat) :
    (updateState l term leaderId).matchIndex = l.matchIndex := by
  unfold updateState
  split <;> rfl

/-- The failure branch for an entry that is not matched ends at the assertion, with nothing sent. -/
theorem handleAppendResponse_failure (cfg : Config) (r : RaftReplicaT) (ref : MsgRef)
    (hfailure : (r.msg ref).data4 = 0)
    (hmatch : r.matchIndex (replicaId (r.msg ref)) ≤ (r.msg ref).data2) :
    (handleAppendResponse cfg r ref).1.crashed = true ∧ (handleAppendResponse cfg r ref).2 = [] := by
  have hsuccess : ¬ (r.msg ref).data4 ≠ 0 := fun hne => hne hfailure
  have hunmatched : ¬ (r.msg ref).data2 < (updateState r ((r.msg ref).data1 % 2 ^ 32)
      r.currentLeader).matchIndex ((r.msg ref).data3 % 2 ^ 8) := by
    rw [updateState_matchIndex]
    exact Nat.not_lt.mpr hmatch
  unfold handleAppendResponse
  dsimp only
  rw [if_neg hsuccess, if_neg hunmatched]
  exact ⟨rfl, rfl⟩

theorem rejected_crashes (cfg : Config) (h : Rejected l as msg) :
    (handleAppendResponse cfg { l with message := msg } .message).1.crashed = true :=
  (handleAppendResponse_failure cfg { l with message := msg } .message h.failure h.unmatched).1

/-- No leader steps back. -/
theorem never_steps_back (cfg : Config) (l : RaftReplicaT) (as : List Nat) (msg : SmltMsg)
    (h : Rejected l as msg) : ¬ StepsBack cfg l msg := by
  intro hback
  have halive := hback.alive
  rw [rejected_crashes cfg h] at halive
  cases halive

section OneEntry

/-- A request of client 0 with payload 7. -/
private def oneRequest : SmltMsg := SmltMsg.withTag ⟨0, 0, 0, 0, 7, 7, 7⟩ REQ_TAG

/-- Follower 1 has not got entry 1. -/
private def noEntry : SmltMsg := SmltMsg.withTag ⟨0, 1, 1, 1, 0, 0, 0⟩ RAFT_APPR

/-- A leader that has taken one request. -/
private def oneLeader : RaftReplicaT :=
  (handleRequest Config.twoNodes
    { initReplicaRaft Config.twoNodes 0 with message := oneRequest } .message).1

private theorem oneLeader_rejected : Rejected oneLeader [0, 1] noEntry where
  leader := rfl
  alive := rfl
  log := by
    obtain ⟨heap, queue, henqueue, hlog, -⟩ := (logAt_init.holdsFrom (Nat.zero_le 2)).push
      (e := ⟨0, 1, 1, oneRequest.data0, ⟨7, 7, 7⟩⟩) rfl
    obtain rfl := (Prod.mk.inj (Option.some.inj henqueue)).1
    obtain rfl := (Prod.mk.inj (Option.some.inj henqueue)).2
    exact hlog
  tag := SmltMsg.tag_withTag _ _
  failure := rfl
  pos := le_rfl
  unmatched := Nat.zero_le _
  le_last := le_rfl

/-- A leader that has taken one request does not step back. -/
theorem never_steps_back_one : ¬ StepsBack Config.twoNodes oneLeader noEntry :=
  never_steps_back Config.twoNodes oneLeader [0, 1] noEntry oneLeader_rejected

/-- The leader of one request fails at the assertion. -/
theorem not_steps_back : Rejected oneLeader [0, 1] noEntry ∧
    ¬ StepsBack Config.twoNodes oneLeader noEntry :=
  ⟨oneLeader_rejected, fun hback => by
    have halive := hback.alive
    rw [rejected_crashes Config.twoNodes oneLeader_rejected] at halive
    cases halive⟩

end OneEntry

end SmeltConsensus.Raft.Backtrack
