import SmeltConsensus.Message.Codec
import SmeltConsensus.Raft.Replica

/-!
Word 1 of a RAFT_APP message. `handle_request` writes the term of the leader as
its request id and the id of the leader as its tag, and `handle_append` reads
both back, the id as a `uint8_t`.
-/

set_option autoImplicit false
set_option relaxedAutoImplicit false

namespace SmeltConsensus.Raft.AppendHeader

open SmeltConsensus.Foundation.Views
open SmeltConsensus.Foundation.Network
open SmeltConsensus.Message.Header
open SmeltConsensus.Message.Codec (IsCodec isCodec)
open SmeltConsensus.Cluster.Parties
open SmeltConsensus.Raft.LogQueue
open SmeltConsensus.Raft.Replica

variable (cfg : Config)

/-- `handle_append` after it has read `term` and `leader`. -/
def appendFrom (replica : RaftReplicaT) (ref : MsgRef) (term leader : Nat) : Done :=
  let msg := replica.msg ref
  let replica := updateState { replica with electionTimeout := false } term leader
  if replica.id ≠ leader then
    if term < replica.currentTerm then reject replica ref leader
    else
      match queueContains replica.heap replica.queue msg.data2 with
      | none => replica.crash []
      | some none => reject replica ref leader
      | some (some _) =>
        match deleteConflict replica (msg.data2 + 1) with
        | none => replica.crash []
        | some heap =>
          andThen (appendEntry { replica with heap := heap } ref term leader)
            (updateAppliedEntries cfg)
  else andThen (replica,
    [.print "Replica %d: Leader should not receive appendEntry requests \n" [replica.id]])
    (updateAppliedEntries cfg)

theorem handleAppend_eq_appendFrom (replica : RaftReplicaT) (ref : MsgRef) :
    handleAppend cfg replica ref = appendFrom cfg replica ref
      (getRequestId (replica.msg ref).data1) (getTag (replica.msg ref).data1 % 2 ^ 8) := rfl

/-- Whoever handles the RAFT_APP message handles it as one of this term and this leader. -/
structure Carries (msg : SmltMsg) (term leader : Nat) : Prop where
  term_eq : getRequestId msg.data1 = term
  leader_eq : getTag msg.data1 % 2 ^ 8 = leader
  handled : ∀ (follower : RaftReplicaT) (ref : MsgRef), follower.msg ref = msg →
    handleAppend cfg follower ref = appendFrom cfg follower ref term leader

variable {cfg} {replica : RaftReplicaT} {ref : MsgRef}

/-- What is left of the old word is its client id only. -/
theorem carries_of_data1 {msg : SmltMsg} {word term leader : Nat}
    (hdata : msg.data1 = setTag (setRequestId word term) leader) (hterm : term < 2 ^ 32)
    (hleader : leader < 2 ^ 8) : Carries cfg msg term leader := by
  have hrid : getRequestId msg.data1 = term := by
    rw [hdata, getRequestId_setTag, getRequestId_setRequestId, Nat.mod_eq_of_lt hterm]
  have htag : getTag msg.data1 % 2 ^ 8 = leader := by
    rw [hdata, getTag_setTag, Nat.mod_mod_of_dvd _ (by decide), Nat.mod_eq_of_lt hleader]
  refine ⟨hrid, htag, ?_⟩
  rintro follower ref rfl
  rw [handleAppend_eq_appendFrom, hrid, htag]

/-- The messages that the leader sends for a request. -/
theorem data1_of_handleRequest (hid : replica.id = replica.currentLeader) {dst : Party}
    {msg : SmltMsg} (hsend : .send dst msg ∈ (handleRequest cfg replica ref).2) :
    msg.data1 = setTag (setRequestId (replica.msg ref).data1 replica.currentTerm)
      replica.currentLeader := by
  unfold handleRequest at hsend
  rw [if_pos hid] at hsend
  dsimp only at hsend
  split at hsend
  · cases hsend
  · obtain ⟨i, -, heq⟩ := List.mem_map.mp hsend
    obtain ⟨-, rfl⟩ := Output.send.inj heq
    rfl

/-- The accessors of a header word do not get in each other's way, and so a follower reads
the term and the leader that the leader wrote over whatever was in the word. -/
theorem codec_and_append_header (mem : Memory) (addr : Nat) (cfg : Config)
    (replica : RaftReplicaT) (ref : MsgRef) (hid : replica.id = replica.currentLeader)
    (hterm : replica.currentTerm < 2 ^ 32) (hleader : replica.currentLeader < 2 ^ 8) :
    IsCodec mem addr ∧ ∀ dst msg, .send dst msg ∈ (handleRequest cfg replica ref).2 →
      Carries cfg msg replica.currentTerm replica.currentLeader := by
  refine ⟨isCodec mem addr, fun dst msg hsend => ?_⟩
  exact carries_of_data1 (data1_of_handleRequest hid hsend) hterm hleader

private def staleRequest : SmltMsg := ⟨setTag 0 REQ_TAG, 2 ^ 64 - 1, 5, 6, 7, 8, 9⟩

/-- Every bit of the old word 1 is set. -/
theorem codec_and_append_header_stale : IsCodec (fun _ => 0xFF#8) 16 ∧
    ∃ msg, .send (.replica 1) msg ∈ (handleRequest Config.twoNodes
        { initReplicaRaft Config.twoNodes 0 with message := staleRequest } .message).2 ∧
      Carries Config.twoNodes msg 1 0 := by
  obtain ⟨hcodec, hcarries⟩ := codec_and_append_header (fun _ => 0xFF#8) 16 Config.twoNodes
    { initReplicaRaft Config.twoNodes 0 with message := staleRequest } .message rfl (by decide)
    (by decide)
  exact ⟨hcodec, _, .head _, hcarries (.replica 1) _ (.head _)⟩

end SmeltConsensus.Raft.AppendHeader
