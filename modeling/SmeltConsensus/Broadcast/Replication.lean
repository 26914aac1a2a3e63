import SmeltConsensus.Broadcast.Replica

/-!
Broadcast replication keeps every follower on a prefix of the leader.

The leader's history is a function of the requests it received, a follower's
one of the commits it received, and the channel between them is first-in
first-out; the rest is list arithmetic.
-/

set_option autoImplicit false
set_option relaxedAutoImplicit false

namespace SmeltConsensus.Broadcast.Replication

open SmeltConsensus.Foundation.Network
open SmeltConsensus.Message.Header
open SmeltConsensus.Cluster.Parties
open SmeltConsensus.Broadcast.Replica

variable {cfg : Config}

/-- The leader's history as a function of the requests in it. -/
structure LeaderHistory (cfg : Config) (t : List Ev) : Prop where
  commits : ∀ i, 1 ≤ i → i < cfg.numReplicas →
    sentTo (.replica i) t = (requests t).map fun x => x.2.withTag BROAD_COMMIT
  service : service t = (requests t).flatMap fun x =>
    [.exec x.2.command, .send x.1 (x.2.withTag BROAD_COMMIT)]

/-- A follower executes the messages of the leader as they come and sends nothing. -/
structure FollowerHistory (t : List Ev) : Prop where
  executed : executed t = (receivedFrom (.replica 0) t).map SmltMsg.command
  sends : sends t = []

/-- What travels on a channel: client messages to the leader, commits to the followers. -/
def OnChannel (cfg : Config) : Party → Party → SmltMsg → Prop
  | .client core, .replica _, msg => cfg.FromClient core msg
  | .replica _, .replica _, msg => msg.tag = BROAD_COMMIT
  | _, .client _, _ => True

private theorem handleSetup_channel {i : Nat} {msg m : SmltMsg} {dst : Party}
    (h : .send dst m ∈ handleSetup cfg msg) : OnChannel cfg (.replica i) dst m := by
  simp only [handleSetup, List.mem_singleton, Output.send.injEq] at h
  obtain ⟨rfl, -⟩ := h
  trivial

private theorem handleRequest_channel {replica : ReplicaT} {msg m : SmltMsg} {dst : Party}
    {i : Nat} (h : .send dst m ∈ handleRequest cfg replica msg) :
    OnChannel cfg (.replica i) dst m := by
  unfold handleRequest at h
  split at h
  · rcases List.mem_append.mp h with h | h
    · obtain ⟨rfl, j, -, rfl⟩ := mem_sendEach.mp h
      simp [OnChannel]
    · cases hl : replica.level <;>
        simp only [hl, List.mem_cons, List.not_mem_nil, reduceCtorEq, Output.send.injEq, false_or,
          or_false] at h
      · obtain ⟨rfl, -⟩ := h
        trivial
      · obtain ⟨rfl, -⟩ := h
        trivial
  · simp at h

private theorem handle_channel {replica : ReplicaT} {msg m : SmltMsg} {dst : Party}
    {i : Nat} (h : .send dst m ∈ messageHandlerBroadcast cfg replica msg) :
    OnChannel cfg (.replica i) dst m := by
  unfold messageHandlerBroadcast at h
  split at h
  · exact handleSetup_channel h
  · split at h
    · exact handleRequest_channel h
    · split at h
      · unfold handleCommit at h
        split at h <;> simp at h
      · simp at h

/-- A request at the leader is sent to everyone, executed and answered. -/
private theorem handleRequest_leader (hd : cfg.Direct) {msg : SmltMsg}
    (hk : msg.clientId < cfg.clients.length) :
    handleRequest cfg ⟨0, cfg.level⟩ msg =
      sendEach (List.range' 1 (cfg.numReplicas - 1)) (msg.withTag BROAD_COMMIT) ++
        [.exec msg.command, .send (cfg.clientAt msg.clientId) (msg.withTag BROAD_COMMIT)] := by
  cases hl : cfg.level with
  | node => simp [handleRequest]
  | core => simp [handleRequest, hd.clientAt_of_core hl hk]

/-- One message at the leader. -/
private theorem leader_step (hd : cfg.Direct) {t : List Ev} {core : Nat} {msg : SmltMsg}
    (ht : LeaderHistory cfg t) (hm : cfg.FromClient core msg) :
    LeaderHistory cfg (t ++ .recv (.client core) msg ::
      (messageHandlerBroadcast cfg ⟨0, cfg.level⟩ msg).map .out) := by
  by_cases hs : msg.tag = SETUP_TAG
  · -- a set-up message: one reply, which is no service
    constructor
    · intro i h1 hn
      simpa [messageHandlerBroadcast, handleSetup, hs] using ht.commits i h1 hn
    · simpa [messageHandlerBroadcast, handleSetup, hs] using ht.service
  · have hreq : msg.tag = REQ_TAG := hm.elim And.left fun h => absurd h.1 hs
    have hclient := cfg.clientAt_of_getElem? (hm.request hreq)
    have hmsg : msg.tag = 1 := hreq
    have heq : messageHandlerBroadcast cfg ⟨0, cfg.level⟩ msg =
        handleRequest cfg ⟨0, cfg.level⟩ msg := by
      simp [messageHandlerBroadcast, hmsg]
    rw [heq, handleRequest_leader hd (List.getElem?_eq_some_iff.mp (hm.request hreq)).1]
    constructor
    · intro i h1 hn
      have hmem : i ∈ List.range' 1 (cfg.numReplicas - 1) := by
        simp only [List.mem_range'_1]
        omega
      have hc := ht.commits i h1 hn
      simp [hmsg, List.nodup_range', hmem, hc]
    · have hc := ht.service
      simp [hmsg, hclient, hc]

theorem histories {C : ClientProc cfg} (hd : cfg.Direct)
    {s : Net (cluster (broadcastReplica cfg) C)} (h : s.Reachable) :
    LeaderHistory cfg (s.trace (.replica 0)) ∧
      (∀ i, i ≠ 0 → FollowerHistory (s.trace (.replica i))) ∧
      ∀ i, ∀ m ∈ s.inFlight (.replica 0) (.replica i), m.tag = BROAD_COMMIT := by
  have key := replica_invariant
    (fun i (l : ReplicaT) t => l = ⟨i, cfg.level⟩ ∧ (i = 0 → LeaderHistory cfg t) ∧
      (i ≠ 0 → FollowerHistory t)) (OnChannel cfg) ?_ ?_ ?_ h
  · refine ⟨(key.1 0).2.1 rfl, fun i hi => (key.1 i).2.2 hi, fun i m hm => ?_⟩
    refine key.2 (.replica 0) (.replica i) m ?_
    rw [h.fifo]
    exact List.mem_append_right _ hm
  · intro i
    refine ⟨rfl, fun _ => ⟨?_, ?_⟩, fun _ => ?_⟩
    · simp
    · simp
    · exact ⟨rfl, rfl⟩
  · exact fun _ _ hm => hm
  · rintro i l t src msg ⟨rfl, h0, hf⟩ hp hm
    refine ⟨⟨rfl, fun hi => ?_, fun hi => ?_⟩, fun dst m hs => handle_channel hs⟩
    · subst hi
      cases src with
      | replica j => simp [broadcastReplica, polls] at hp
      | client core => exact leader_step hd (h0 rfl) hm
    · have hsrc : src = .replica 0 := by simpa [broadcastReplica, polls, hi] using hp
      subst hsrc
      have htag : msg.tag = BROAD_COMMIT := hm
      have hexec := (hf hi).executed
      have hsends := (hf hi).sends
      constructor
      · simp [broadcastReplica, messageHandlerBroadcast, handleCommit, htag, hi, hexec]
      · simp [broadcastReplica, messageHandlerBroadcast, handleCommit, htag, hi, hsends]

theorem answersSetup (l : ReplicaT) (msg : SmltMsg) :
    AnswersSetup cfg msg (messageHandlerBroadcast cfg l msg) := by
  constructor
  · intro hs
    rw [messageHandlerBroadcast, if_pos hs]
  · intro hs core m h
    unfold messageHandlerBroadcast at h
    rw [if_neg hs] at h
    split at h
    · unfold handleRequest at h
      split at h
      · rcases List.mem_append.mp h with h | h
        · obtain ⟨-, j, -, hj⟩ := mem_sendEach.mp h
          cases hj
        · cases hl : l.level <;>
            simp only [hl, List.mem_cons, List.not_mem_nil, reduceCtorEq, Output.send.injEq,
              false_or, or_false] at h
          · rw [h.2]
            simp
          · rw [h.2]
            simp
      · simp at h
    · split at h
      · unfold handleCommit at h
        split at h <;> simp at h
      · simp at h

/-- The leader receives from clients only. -/
theorem inputs_from_clients {C : ClientProc cfg} {s : Net (cluster (broadcastReplica cfg) C)}
    (h : s.Reachable) : ∀ x ∈ inputs (s.trace (.replica 0)), ∃ core, x.1 = .client core := by
  have key := replica_induction (R := broadcastReplica cfg) 0
    (fun (l : ReplicaT) t => l.id = 0 ∧ ∀ x ∈ inputs t, ∃ core, x.1 = .client core)
    ⟨rfl, fun x hx => by cases hx⟩ ?_ h
  · exact key.2
  · rintro s s' l src msg - - ⟨hid, hI⟩ hp ht
    refine ⟨hid, fun x hx => ?_⟩
    rw [ht, inputs_append, inputs_recv, inputs_map_out, List.mem_append, List.mem_singleton] at hx
    rcases hx with hx | rfl
    · exact hI x hx
    · cases src with
      | replica j => simp [broadcastReplica, polls, hid] at hp
      | client core => exact ⟨core, rfl⟩

/-- Broadcast replication over a whole run of a node-level group. -/
structure Replicated (cfg : Config) {C : ClientProc cfg}
    (s : Net (cluster (broadcastReplica cfg) C)) : Prop where
  follower_prefix : ∀ i, 1 ≤ i → i < cfg.numReplicas →
    executed (s.trace (.replica i)) <+: executed (s.trace (.replica 0))
  /-- The messages in flight to a follower are commits, and they are the missing
  suffix of its sequence in order. -/
  missing_in_flight : ∀ i, 1 ≤ i → i < cfg.numReplicas →
    executed (s.trace (.replica 0)) = executed (s.trace (.replica i)) ++
      (s.inFlight (.replica 0) (.replica i)).map SmltMsg.command ∧
    ∀ m ∈ s.inFlight (.replica 0) (.replica i), m.tag = BROAD_COMMIT
  /-- The executions and responses of the leader, in program order: each request it
  took is executed once and then answered once, to the client it came from. -/
  served_once : service (s.trace (.replica 0)) =
    (requests (s.trace (.replica 0))).flatMap fun x =>
      [.exec x.2.command, .send x.1 (x.2.withTag BROAD_COMMIT)]
  /-- A request that a client sent has been taken by the leader or is in flight to it. -/
  none_lost : ∀ core, requestsSent (s.trace (.client core)) =
    ((requests (s.trace (.replica 0))).filter (·.1 = .client core)).map Prod.snd ++
      (s.inFlight (.client core) (.replica 0)).filter (·.tag = REQ_TAG)
  /-- Only the leader answers. -/
  follower_silent : ∀ i, 1 ≤ i → sends (s.trace (.replica i)) = []
  quiescent_equal : s.Quiescent → ∀ i, i < cfg.numReplicas →
    executed (s.trace (.replica i)) = executed (s.trace (.replica 0))

/-- The leader executes the requests it takes. -/
theorem LeaderHistory.executed_eq {t : List Ev} (h : LeaderHistory cfg t) :
    executed t = (requests t).map fun x => x.2.command := by
  rw [executed_eq_service, h.service, filterMap_execOf_flatMap]

/-- Broadcast replication, for any clients and any interleaving. -/
theorem broadcast_replicated (cfg : Config) (hl : cfg.level = .node) (C : ClientProc cfg)
    (s : Net (cluster (broadcastReplica cfg) C)) (h : s.Reachable) : Replicated cfg s := by
  obtain ⟨hlead, hfol, htag⟩ := histories (.inl hl) h
  -- what the leader executed is what it sent to any one follower
  have hsent : ∀ i, 1 ≤ i → i < cfg.numReplicas →
      executed (s.trace (.replica 0)) =
        (sentTo (.replica i) (s.trace (.replica 0))).map SmltMsg.command := by
    intro i h1 hn
    rw [hlead.executed_eq, hlead.commits i h1 hn, List.map_map]
    exact List.map_congr_left fun x _ => (SmltMsg.command_withTag x.2 _).symm
  have hmissing : ∀ i, 1 ≤ i → i < cfg.numReplicas →
      executed (s.trace (.replica 0)) = executed (s.trace (.replica i)) ++
        (s.inFlight (.replica 0) (.replica i)).map SmltMsg.command := by
    intro i h1 hn
    rw [hsent i h1 hn, h.fifo, List.map_append, (hfol i (by omega)).executed]
  refine
    { follower_prefix := fun i h1 hn => ⟨_, (hmissing i h1 hn).symm⟩
      missing_in_flight := fun i h1 hn => ⟨hmissing i h1 hn, htag i⟩
      served_once := hlead.service
      none_lost := requestsSent_eq h
      follower_silent := fun i h1 => (hfol i (by omega)).sends
      quiescent_equal := ?_ }
  intro hq i hn
  by_cases h0 : i = 0
  · rw [h0]
  · have hm := hmissing i (by omega) hn
    rw [hq, List.map_nil, List.append_nil] at hm
    exact hm.symm

/-- Three replicas and two clients whose requests interleave. -/
private def cfg3 : Config := .threeNodes

private def schedule3 : List (Action (cluster (broadcastReplica cfg3) (anyClient cfg3))) :=
  let zero : SmltMsg := ⟨0, 0, 0, 0, 0, 0, 0⟩
  [.stimulate (.client 10) (zero.stamp 0 0 0 ⟨7, 7, 7⟩),
    .stimulate (.client 11) (zero.stamp 1 0 0 ⟨8, 8, 8⟩),
    .deliver (.client 11) (.replica 0), .deliver (.client 10) (.replica 0),
    .deliver (.replica 0) (.replica 2), .deliver (.replica 0) (.replica 2)]

theorem broadcast_replicated_run :
    ∃ s : Net (cluster (broadcastReplica cfg3) (anyClient cfg3)),
      executed (s.trace (.replica 0)) = [⟨1, 0, ⟨8, 8, 8⟩⟩, ⟨0, 0, ⟨7, 7, 7⟩⟩] ∧
      executed (s.trace (.replica 1)) = [] ∧ Replicated cfg3 s :=
  ⟨((Net.initial _).run schedule3).get rfl, by decide, by decide,
    broadcast_replicated cfg3 rfl _ _ (Net.reachable_of_run schedule3 rfl)⟩

end SmeltConsensus.Broadcast.Replication
