import SmeltConsensus.Raft.Safety

/-!
What never happens in a run of Raft without failures: no append is rejected, no
entry is sent once more and no lookup fails.
-/

set_option autoImplicit false
set_option relaxedAutoImplicit false

namespace SmeltConsensus.Raft.RunInvariant

open SmeltConsensus.Foundation.Network
open SmeltConsensus.Message.Header
open SmeltConsensus.Cluster.Parties
open SmeltConsensus.Raft.LogQueue
open SmeltConsensus.Raft.Replica
open SmeltConsensus.Raft.Log
open SmeltConsensus.Raft.CommitIndex
open SmeltConsensus.Raft.Follower
open SmeltConsensus.Raft.Leader
open SmeltConsensus.Raft.History
open SmeltConsensus.Raft.Safety

variable {cfg : Config} {C : ClientProc cfg} {s : Net (cluster (raftReplica cfg) C)}

/-- A run without failures, at any moment. -/
structure FailureFree (s : Net (cluster (raftReplica cfg) C)) : Prop where
  /-- No lookup came back with null, no freed entry was followed and no assertion failed. -/
  alive : ∀ i, (s.loc (.replica i)).crashed = false
  /-- All that followers send is that an append succeeded. -/
  accepted : ∀ i, 1 ≤ i → ∀ x ∈ sends (s.trace (.replica i)), x.2.tag = RAFT_APPR ∧ x.2.data4 = 1
  /-- The leader handles no other answer than a success. -/
  succeeded : ∀ x ∈ inputs (s.trace (.replica 0)), x.2.tag = RAFT_APPR → x.2.data4 = 1
  /-- The answer that the leader waits for names an entry of its log. -/
  acknowledged : ∀ i rest msg msgs, (s.loc (.replica 0)).waits = i :: rest →
    s.inFlight (.replica i) (.replica 0) = msg :: msgs →
    ∃ ele, queueContains (s.loc (.replica 0)).heap (s.loc (.replica 0)).queue msg.data2 =
      some (some ele)
  /-- Sending an entry once more prints. -/
  no_resend : ∀ text args, .out (.print text args) ∉ s.trace (.replica 0)
  match_le : ∀ i, i < cfg.numReplicas →
    (s.loc (.replica 0)).matchIndex i ≤ (s.loc (.replica i)).lastLogIndex
  /-- Between requests, index 0 and the two newest indices can be reached from the head. -/
  reachable : (s.loc (.replica 0)).waits = [] →
    ∀ fuel, (s.loc (.replica 0)).heap.fresh ≤ fuel →
      ((s.loc (.replica 0)).heap.values fuel (s.loc (.replica 0)).queue.head).map LogEntry.index =
        0 :: (List.range' 1 (s.loc (.replica 0)).lastLogIndex).drop
          ((s.loc (.replica 0)).lastLogIndex - 2)

/-- The acknowledgement that the leader waits for is for its newest entry. -/
private theorem next_acknowledged (h : s.Reachable) {w : Nat} {l : RaftReplicaT}
    (hw : LeaderHistory cfg w l (s.trace (.replica 0))) (hlt : w < cfg.numReplicas)
    {msg : SmltMsg} {msgs : List SmltMsg}
    (hnext : s.inFlight (.replica w) (.replica 0) = msg :: msgs) :
    msg.data2 = (requests (s.trace (.replica 0))).length ∧ 1 ≤ msg.data2 := by
  have hpos := hw.state.pos
  obtain ⟨i, rfl⟩ := Nat.exists_eq_add_of_le' hpos
  have hpre := h.next_prefix hnext
  rw [sentTo_leader h i] at hpre
  obtain ⟨m, -, rfl⟩ := next_of_prefix hpre
  have hlen := hw.replies (i + 1) hpos hlt
  rw [if_neg (Nat.lt_irrefl _)] at hlen
  have hne : requests (s.trace (.replica 0)) ≠ [] := fun hnil =>
    Nat.ne_of_lt hlt (hw.state.idle_of_nil (by rw [requested, hnil, List.map_nil]))
  have hrs := List.length_pos_of_ne_nil hne
  show _ + 1 = _ ∧ 1 ≤ _ + 1
  omega

/-- A run of Raft over channels that lose nothing rejects nothing, for any clients. -/
theorem failure_free (cfg : Config) (C : ClientProc cfg) (s : Net (cluster (raftReplica cfg) C))
    (h : s.Reachable) : FailureFree s := by
  obtain ⟨w, hw⟩ : ∃ w, LeaderHistory cfg w (s.loc (.replica 0)) (s.trace (.replica 0)) :=
    histories h 0
  have hfollower : ∀ i, FollowerHistory (i + 1) (s.loc (.replica (i + 1)))
      (s.trace (.replica (i + 1))) := fun i => histories h (i + 1)
  have hlast : (s.loc (.replica 0)).lastLogIndex = (requests (s.trace (.replica 0))).length := by
    rw [hw.state.lastLogIndex, requested, List.length_map]
  refine
    { alive := ?_
      accepted := ?_
      succeeded := ?_
      acknowledged := ?_
      no_resend := hw.prints
      match_le := ?_
      reachable := ?_ }
  · rintro (_ | i)
    · exact hw.state.alive
    · exact (hfollower i).state.alive
  · intro i h1 x hx
    obtain ⟨i, rfl⟩ := Nat.exists_eq_add_of_le' h1
    rw [(hfollower i).sends_eq] at hx
    obtain ⟨k, hk, rfl⟩ := List.mem_mapIdx.mp hx
    exact ⟨tag_replyMsg _ _ _, rfl⟩
  · rintro ⟨src, msg⟩ hx htag
    have hsent := (h.receivedFrom_prefix src (.replica 0)).subset (mem_receivedFrom_iff.mpr hx)
    rcases src with (_ | i) | core
    · rw [hw.appends_nil 0 (Or.inl rfl)] at hsent
      cases hsent
    · rw [sentTo_leader h i] at hsent
      obtain ⟨k, hk, rfl⟩ := List.mem_mapIdx.mp hsent
      rfl
    · have hmsg : msg.tag = 4 := htag
      rcases fromClient_of_mem_sentTo h hsent with ⟨hreq, -⟩ | ⟨hsetup, -⟩
      · rw [hmsg] at hreq
        cases hreq
      · rw [hmsg] at hsetup
        cases hsetup
  · intro i rest msg msgs hwaits hnext
    have hlt : w < cfg.numReplicas := by
      by_contra hge
      rw [hw.state.waits, if_neg hge] at hwaits
      cases hwaits
    rw [hw.state.waits, if_pos hlt] at hwaits
    obtain ⟨rfl, -⟩ := List.cons.inj hwaits
    obtain ⟨hindex, hpos⟩ := next_acknowledged h hw hlt hnext
    have hmem : msg.data2 ∈
        kept (committed cfg.numReplicas (requested (s.trace (.replica 0))).length w)
          (requested (s.trace (.replica 0))).length := by
      have hle : committed cfg.numReplicas (requested (s.trace (.replica 0))).length w ≤
          (requested (s.trace (.replica 0))).length := by
        rw [committed]
        split <;> omega
      rw [requested, List.length_map] at hle ⊢
      rw [mem_kept]
      omega
    refine ⟨msg.data2, ?_⟩
    rw [hw.state.log.contains, if_pos hmem]
  · rintro (_ | i) hi
    · rw [hw.state.match_zero]
      exact Nat.zero_le _
    · have hreplies := hw.replies (i + 1) (Nat.le_add_left 1 i) hi
      have hle := (h.receivedFrom_prefix (.replica (i + 1)) (.replica 0)).length_le
      rw [sentTo_leader h i, List.length_mapIdx, hreplies] at hle
      rw [hw.state.match_eq (i + 1) (Nat.le_add_left 1 i) hi, (hfollower i).state.lastLogIndex,
        List.length_map, requested, List.length_map]
      exact hle
  · intro hwaits fuel hfuel
    have hlog := hw.state.log
    rw [hw.state.idle hwaits, committed_idle, ← hw.state.lastLogIndex] at hlog
    rw [hlog.indices hfuel, kept_self]

/-- Two replicas and a client. -/
private def pair : Config := .twoNodes

/-- Three requests, one after the other. -/
private def threeRequests : List (Action (cluster (raftReplica pair) (anyClient pair))) :=
  let zero : SmltMsg := ⟨0, 0, 0, 0, 0, 0, 0⟩
  [1, 2, 3].flatMap fun rid =>
    [.stimulate (.client 10) (zero.stamp 0 rid 0 ⟨rid, rid, rid⟩),
      .deliver (.client 10) (.replica 0), .deliver (.replica 0) (.replica 1),
      .deliver (.replica 1) (.replica 0)]

/-- After the third request the entry at index 1 is gone. -/
theorem failure_free_run :
    ∃ s : Net (cluster (raftReplica pair) (anyClient pair)),
      (s.loc (.replica 0)).waits = [] ∧ (s.loc (.replica 0)).lastLogIndex = 3 ∧ FailureFree s :=
  ⟨((Net.initial _).run threeRequests).get rfl, by decide, by decide,
    failure_free pair _ _ (Net.reachable_of_run threeRequests rfl)⟩

end SmeltConsensus.Raft.RunInvariant
