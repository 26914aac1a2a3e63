import SmeltConsensus.OnePaxos.Learn

/-!
The leader's queue of pending requests in a run without failures. The acceptor numbers
what it accepts, so the index of the leader is the number of learn messages it has
handled; the queue has what is not learned yet and, once something is, the last request
that was.
-/

set_option autoImplicit false
set_option relaxedAutoImplicit false

namespace SmeltConsensus.OnePaxos.Backlog

open SmeltConsensus.Foundation.Network
open SmeltConsensus.Message.Header
open SmeltConsensus.Cluster.Parties
open SmeltConsensus.OnePaxos.EntryQueue
open SmeltConsensus.OnePaxos.Replica
open SmeltConsensus.OnePaxos.Execute
open SmeltConsensus.OnePaxos.Learn

variable {cfg : Config} {kvs : Bool}

/-- The leader after `k` requests and `m` learn messages. It keeps its oldest pending
request once more than it has to. -/
structure Proposing (l : OnepaxosReplicaT) (k m : Nat) : Prop where
  alive : l.crashed = false
  proposalIndex : l.proposalIndex = k
  index : l.index = m
  queued : ∃ es, Queued l.heap l.entryQueue es ∧ es.length = k - (m - 1)

theorem proposing_init : Proposing (initReplicaOnepaxos cfg 0) 0 0 :=
  ⟨rfl, rfl, rfl, [], entryQueueInit_queued, rfl⟩

variable (kvs) in
/-- A request at the leader. -/
theorem Proposing.request {l : OnepaxosReplicaT} {k m : Nat} (h : Proposing l k m) (hle : m ≤ k)
    (hid : l.id = 0) (hleader : l.currentLeader = 0) (hacceptor : l.currentAcceptor = 1)
    {msg : SmltMsg} (ht : msg.tag = REQ_TAG) :
    ∃ l', Proposing l' (k + 1) m ∧ messageHandlerLoop cfg kvs l msg =
      (l', [.send (.replica 1) (msg.withTag ONE_ACC)]) := by
  have hmsg : msg.tag = 1 := ht
  obtain ⟨es, hqueued, hlen⟩ := h.queued
  obtain ⟨heap, queue, henq, hqueued'⟩ := entryQEnqueue_queued hqueued
  refine ⟨{ l with heap := heap, entryQueue := queue, proposalIndex := l.proposalIndex + 1 },
    ⟨h.alive, ?_, h.index, es ++ [l.heap.fresh], hqueued', ?_⟩, ?_⟩
  · show l.proposalIndex + 1 = k + 1
    rw [h.proposalIndex]
  · rw [List.length_append, List.length_singleton, hlen]
    omega
  · have hhandle : handleRequest cfg l msg =
        ({ l with heap := heap, entryQueue := queue, proposalIndex := l.proposalIndex + 1 },
          msg.withTag ONE_ACC, [.send (.replica 1) (msg.withTag ONE_ACC)]) := by
      simp only [handleRequest, hid, hleader, henq, hacceptor, if_true]
    simp [messageHandlerLoop, messageHandlerOnepaxos, hmsg, hhandle, hid]

theorem notLearned_of_le {l : OnepaxosReplicaT} (h : l.index ≤ l.proposalIndex + 1) :
    notLearned l = l.proposalIndex + 1 - l.index := if_pos h

/-- The leader drops its oldest pending request, except when there is only one. -/
theorem Proposing.dropLearned {l : OnepaxosReplicaT} {k m : Nat} (h : Proposing l k m)
    (hlt : m < k) :
    ∃ l', OnePaxos.Replica.dropLearned { l with index := m + 1 } = some l' ∧
      Proposing l' k (m + 1) ∧ l'.level = l.level ∧ l'.id = l.id := by
  obtain ⟨es, hqueued, hlen⟩ := h.queued
  have hpending : notLearned { l with index := m + 1 } = k - m := by
    have hk := h.proposalIndex
    rw [notLearned_of_le (show m + 1 ≤ l.proposalIndex + 1 by omega)]
    show l.proposalIndex + 1 - (m + 1) = k - m
    omega
  have hsize : l.entryQueue.size = k - (m - 1) := hqueued.size.trans hlen
  unfold OnePaxos.Replica.dropLearned
  rw [hpending]
  dsimp only
  rw [hsize]
  rcases Nat.eq_zero_or_pos m with rfl | hpos
  · rw [if_neg (by omega)]
    exact ⟨_, rfl, ⟨h.alive, h.proposalIndex, rfl, es, hqueued, hlen⟩, rfl, rfl⟩
  · rw [if_pos (by omega)]
    obtain ⟨e, es, rfl⟩ := List.exists_cons_of_length_pos (l := es) (by omega)
    obtain ⟨queue, hdeq, hqueued'⟩ := entryQDequeue_queued hqueued
    rw [List.length_cons] at hlen
    rw [hdeq]
    refine ⟨_, rfl, ⟨h.alive, h.proposalIndex, rfl, es, hqueued', ?_⟩, rfl, rfl⟩
    omega

/-- The replicas of a group, with the leader taken as a proposer only. -/
theorem members {C : ClientProc cfg} (hmax : cfg.clients.length ≤ MAX_NUM_CLIENTS)
    {s : Net (cluster (onepaxosReplica cfg kvs) C)} (h : s.Reachable) :
    Proposer (s.loc (.replica 0)) (s.trace (.replica 0)) ∧
      Acceptor cfg (s.loc (.replica 1)) (s.trace (.replica 1)) ∧
      ∀ p q, ∀ m ∈ sentTo q (s.trace p), OnChannel cfg p q m := by
  have key := replica_invariant
    (fun i (l : OnepaxosReplicaT) t => (i = 0 → Proposer l t) ∧
      (i = 1 → Acceptor cfg l t) ∧ (2 ≤ i → Learner cfg kvs i l t)) (OnChannel cfg) ?_ ?_ ?_ h
  · exact ⟨(key.1 0).1 rfl, (key.1 1).2.1 rfl, key.2⟩
  · intro i
    refine ⟨?_, ?_, fun _ => learner_init i⟩
    · rintro rfl
      exact proposer_init
    · rintro rfl
      exact acceptor_init
  · exact fun _ _ hm => hm
  · rintro i l t src msg ⟨h0, h1, h2⟩ hp hm
    rcases i with _ | _ | i
    · have hstep : ProposerStep cfg kvs l t src msg := proposer_step (h0 rfl) hp hm
      obtain ⟨hleader, hchan⟩ := hstep
      exact ⟨⟨fun _ => hleader, by omega, by omega⟩, hchan⟩
    · obtain ⟨hacceptor, hchan⟩ := acceptor_turn (h1 rfl) hp hm hmax
      exact ⟨⟨by omega, fun _ => hacceptor, by omega⟩, hchan⟩
    · obtain ⟨hlearner, hchan⟩ := learner_turn (by omega) (h2 (by omega)) hp hm hmax
      exact ⟨⟨by omega, by omega, fun _ => hlearner⟩, hchan⟩

theorem learned_entryQueue (l : OnepaxosReplicaT) (msg : SmltMsg) :
    (learned l msg).entryQueue = l.entryQueue := by
  obtain ⟨success, table, hexec⟩ := execute_frame (unvoted l) msg
  rw [learned_eq hexec]

/-- The queue of the leader beside its two counters. -/
structure Accounted (l : OnepaxosReplicaT) : Prop where
  alive : l.crashed = false
  index_le : l.index ≤ l.proposalIndex
  size_reach : l.entryQueue.size = {e | Reach l.heap l.entryQueue.head e}.ncard
  /-- The last request that was learned stays. -/
  size_eq : l.entryQueue.size = l.proposalIndex - l.index + if 0 < l.index then 1 else 0
  /-- Whatever message is learned next, nothing is dequeued from an empty queue. -/
  dequeues : ∀ msg, (learned l msg).entryQueue.size > notLearned (learned l msg) →
    entryQEmpty (learned l msg).entryQueue = false

theorem Proposing.accounted {l : OnepaxosReplicaT} {k m : Nat} (h : Proposing l k m) (hle : m ≤ k) :
    Accounted l := by
  obtain ⟨es, hqueued, hlen⟩ := h.queued
  have hsize : l.entryQueue.size = k - (m - 1) := hqueued.size.trans hlen
  refine ⟨h.alive, ?_, hqueued.size_eq_ncard, ?_, ?_⟩
  · rw [h.index, h.proposalIndex]
    exact hle
  · rw [hsize, h.index, h.proposalIndex]
    split <;> omega
  · intro msg hlt
    rw [learned_entryQueue] at hlt ⊢
    rw [hqueued.size] at hlt
    obtain ⟨e, es, rfl⟩ := List.exists_cons_of_length_pos (Nat.zero_lt_of_lt hlt)
    rw [entryQEmpty, hqueued.head]
    rfl

variable (cfg) (kvs) in
/-- The leader handles the learn message of position `m`. -/
theorem Proposing.learn {l : OnepaxosReplicaT} {k m : Nat} (h : Proposing l k m) (hlt : m < k)
    (hid : l.id = 0) (hleader : l.currentLeader = 0) {msg : SmltMsg} (hindex : msg.data1 = m) :
    ∃ l', Proposing l' k (m + 1) ∧ l'.level = l.level ∧ (handleLearn cfg kvs l msg).1 = l' ∧
      (handleLearn cfg kvs l msg).2.2 = (execute (unvoted l) msg).2.2 ++
        if (execute (unvoted l) msg).1 then (reply cfg kvs l' msg).2 else [] := by
  obtain ⟨success, table, hexec⟩ := execute_frame (unvoted l) msg
  have hsame : (learned l msg).id = (learned l msg).currentLeader := by
    rw [learned_eq hexec]
    exact hid.trans hleader.symm
  have hexecuted : Proposing { unvoted l with lastExecutedRid := table } k m :=
    ⟨h.alive, h.proposalIndex, h.index, h.queued⟩
  obtain ⟨l', hdrop, hl', hlevel, -⟩ := hexecuted.dropLearned hlt
  rw [← hindex] at hdrop
  obtain ⟨hstate, hout⟩ := handleLearn_some cfg kvs hsame ((congrArg _ (learned_eq hexec)).trans hdrop)
  exact ⟨l', hl', hlevel, hstate, hout⟩

section Run

variable {C : ClientProc cfg} {s : Net (cluster (onepaxosReplica cfg kvs) C)}

/-- The leader learns no more than it was asked for. -/
theorem learned_le_requests (hmax : cfg.clients.length ≤ MAX_NUM_CLIENTS)
    (h : s.Reachable) : (receivedFrom (.replica 1) (s.trace (.replica 0))).length ≤
      (requests (s.trace (.replica 0))).length := by
  obtain ⟨hlead, hacc, -⟩ := members hmax h
  have hle := (hacc.history.learned_requested h hlead.proposals).length_le
  rwa [List.length_map, requested, List.length_map] at hle

/-- The next learn message of the leader has the next position. -/
theorem next_learn (hmax : cfg.clients.length ≤ MAX_NUM_CLIENTS) (h : s.Reachable) {t : List Ev}
    {msg : SmltMsg} {os : List Out}
    (ht : s.trace (.replica 0) = t ++ .recv (.replica 1) msg :: os.map .out) :
    msg.data1 = (receivedFrom (.replica 1) t).length := by
  have h2 := cfg.two_le_numReplicas
  obtain ⟨-, hacc, -⟩ := members hmax h
  have hnext := hacc.history.learned_accepted h Nat.zero_ne_one (by omega)
  rw [ht, receivedFrom_step] at hnext
  obtain ⟨x, -, hx⟩ := next_of_prefix hnext
  rw [hx]
  rfl

/-- The leader beside its requests and what it has learned. -/
theorem proposing (hmax : cfg.clients.length ≤ MAX_NUM_CLIENTS) (h : s.Reachable) :
    Proposing (s.loc (.replica 0)) (requests (s.trace (.replica 0))).length
      (receivedFrom (.replica 1) (s.trace (.replica 0))).length := by
  refine h.party_induction (.replica 0) (fun (l : OnepaxosReplicaT) t =>
    Proposing l (requests t).length (receivedFrom (.replica 1) t).length) proposing_init ?_ ?_
  · intro s s' src msg hr hr' hI hp ht
    have hI : Proposing (s.loc (.replica 0)) _ _ := hI
    obtain ⟨hlead, -, -⟩ := members hmax hr
    obtain ⟨-, -, hchan⟩ := members hmax hr'
    have hsent : msg ∈ sentTo (.replica 0) (s'.trace src) := by
      apply (hr'.receivedFrom_prefix src (.replica 0)).subset
      rw [ht, receivedFrom_step]
      exact List.mem_concat_self
    have hle := learned_le_requests hmax hr
    have hle' := learned_le_requests hmax hr'
    rcases src with (_ | _ | j) | core
    · have hp : polls cfg (s.loc (.replica 0)) (.replica 0) = true := hp
      simp [polls, hI.alive, hlead.id] at hp
    · have htag : msg.tag = ONE_LEARN := (hchan _ _ msg hsent).2.1
      have hmsg : msg.tag = 6 := htag
      have hreq : requests (s'.trace (.replica 0)) = requests (s.trace (.replica 0)) := by
        rw [ht]
        simp [hmsg]
      rw [hreq, ht, receivedFrom_step, List.length_append, List.length_singleton] at hle' ⊢
      obtain ⟨l', hl', -, hstate, -⟩ := hI.learn cfg kvs (by omega) hlead.id hlead.leader
        (next_learn hmax hr' ht)
      have heq : (onepaxosReplica cfg kvs).handle (s.loc (.replica 0)) msg = _ :=
        messageHandlerLoop_learn kvs hlead.id htag
      show Proposing ((onepaxosReplica cfg kvs).handle (s.loc (.replica 0)) msg).1 _ _
      rw [heq, hstate]
      exact hl'
    · exact (hchan _ _ msg hsent).elim
    · rcases hchan _ _ msg hsent with ⟨htag, -⟩ | ⟨htag, -⟩
      · have hmsg : msg.tag = 1 := htag
        obtain ⟨l', hl', heq⟩ := hI.request kvs hle hlead.id hlead.leader hlead.acceptor htag
        have heq : (onepaxosReplica cfg kvs).handle (s.loc (.replica 0)) msg = _ := heq
        show Proposing ((onepaxosReplica cfg kvs).handle (s.loc (.replica 0)) msg).1 _ _
        rw [ht, heq]
        simpa [hmsg] using hl'
      · have hmsg : msg.tag = 0 := htag
        have heq : (onepaxosReplica cfg kvs).handle (s.loc (.replica 0)) msg = _ :=
          messageHandlerLoop_setup kvs hlead.id htag
        show Proposing ((onepaxosReplica cfg kvs).handle (s.loc (.replica 0)) msg).1 _ _
        rw [ht, heq]
        simpa [hmsg] using hI
  · intro s s' x r _ _ _ hx
    cases hx

end Run

/-- The leader in every reachable state, for any clients and any interleaving. -/
theorem leader_backlog (cfg : Config) (kvs : Bool) (hmax : cfg.clients.length ≤ MAX_NUM_CLIENTS)
    (C : ClientProc cfg) (s : Net (cluster (onepaxosReplica cfg kvs) C)) (h : s.Reachable) :
    Accounted (s.loc (.replica 0)) :=
  (proposing hmax h).accounted (learned_le_requests hmax h)

/-- Three requests, of which two are learned. -/
private def pendingSchedule :
    List (Action (cluster (onepaxosReplica .threeNodes false) (anyClient .threeNodes))) :=
  let zero : SmltMsg := ⟨0, 0, 0, 0, 0, 0, 0⟩
  [.stimulate (.client 10) (zero.stamp 0 0 0 ⟨7, 7, 7⟩),
    .stimulate (.client 11) (zero.stamp 1 0 0 ⟨8, 8, 8⟩),
    .stimulate (.client 10) (zero.stamp 0 1 0 ⟨9, 9, 9⟩),
    .deliver (.client 11) (.replica 0), .deliver (.client 10) (.replica 0),
    .deliver (.replica 0) (.replica 1), .deliver (.replica 0) (.replica 1),
    .deliver (.replica 1) (.replica 0), .deliver (.client 10) (.replica 0),
    .deliver (.replica 1) (.replica 0)]

theorem leader_backlog_pending :
    ∃ s : Net (cluster (onepaxosReplica .threeNodes false) (anyClient .threeNodes)),
      (s.loc (.replica 0) : OnepaxosReplicaT).proposalIndex = 3 ∧
      (s.loc (.replica 0) : OnepaxosReplicaT).index = 2 ∧
      (s.loc (.replica 0) : OnepaxosReplicaT).entryQueue.size = 2 ∧
      Accounted (s.loc (.replica 0)) :=
  ⟨((Net.initial _).run pendingSchedule).get rfl, rfl, rfl, rfl,
    leader_backlog .threeNodes false (by decide) _ _ (Net.reachable_of_run pendingSchedule rfl)⟩

end SmeltConsensus.OnePaxos.Backlog
