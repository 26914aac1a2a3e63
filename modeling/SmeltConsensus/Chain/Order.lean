import SmeltConsensus.Chain.Replica

/-!
Chain replication carries the head's order down the chain.

Every replica's history is a function of what it received from its left
neighbour (the head's, of the requests). The order reaches replica `i` by
induction on `i` along the first-in first-out channels.
-/

set_option autoImplicit false
set_option relaxedAutoImplicit false

namespace SmeltConsensus.Chain.Order

open SmeltConsensus.Foundation.Network
open SmeltConsensus.Message.Header
open SmeltConsensus.Cluster.Parties
open SmeltConsensus.Chain.Replica

variable {cfg : Config}

/-- The head's history as a function of the requests in it. -/
structure HeadHistory (cfg : Config) (t : List Ev) : Prop where
  relayed : sentTo (.replica 1) t = (requests t).map fun x => x.2.withTag CHAIN_COMMIT
  service : service t = (requests t).map fun x => .exec x.2.command
  own_client : ∀ x ∈ requests t, cfg.clientAt x.2.clientId = x.1

/-- The history of a replica inside the chain. -/
structure MiddleHistory (i : Nat) (t : List Ev) : Prop where
  relayed : sentTo (.replica (i + 1)) t = receivedFrom (.replica (i - 1)) t
  service : service t = (receivedFrom (.replica (i - 1)) t).map fun m => .exec m.command

/-- The tail answers a command, then executes it. -/
def TailHistory (cfg : Config) (i : Nat) (t : List Ev) : Prop :=
  service t = (receivedFrom (.replica (i - 1)) t).flatMap fun m =>
    [.send (cfg.clientAt m.clientId) (m.withTag RESP_TAG), .exec m.command]

/-- What travels on a channel: client messages to the head, commits along the chain. -/
def OnChannel (cfg : Config) : Party → Party → SmltMsg → Prop
  | .client core, .replica _, msg => cfg.FromClient core msg
  | .replica _, .replica _, msg => msg.tag = CHAIN_COMMIT
  | _, .client _, _ => True

private theorem handleSetup_channel {i : Nat} {msg m : SmltMsg} {dst : Party}
    (h : .send dst m ∈ handleSetup cfg msg) : OnChannel cfg (.replica i) dst m := by
  simp only [handleSetup, List.mem_singleton, Output.send.injEq] at h
  obtain ⟨rfl, -⟩ := h
  trivial

private theorem handleRequest_channel {replica : ReplicaT} {msg m : SmltMsg} {dst : Party}
    {i : Nat} (h : .send dst m ∈ handleRequest cfg replica msg) :
    OnChannel cfg (.replica i) dst m := by
  unfold handleRequest at h
  split at h
  · rcases List.mem_cons.mp h with h | h
    · obtain ⟨rfl, rfl⟩ := Output.send.inj h
      simp [OnChannel]
    · cases hl : replica.level
      · simp only [hl, List.mem_cons, List.not_mem_nil, reduceCtorEq, Output.send.injEq, false_or,
          or_false] at h
        obtain ⟨rfl, -⟩ := h
        trivial
      · simp [hl] at h
  · simp at h

private theorem handleCommit_channel {replica : ReplicaT} {msg m : SmltMsg} {dst : Party}
    {i : Nat} (ht : msg.tag = CHAIN_COMMIT) (h : .send dst m ∈ handleCommit cfg replica msg) :
    OnChannel cfg (.replica i) dst m := by
  unfold handleCommit at h
  split at h
  · split at h
    · simp only [List.mem_cons, List.not_mem_nil, reduceCtorEq, Output.send.injEq,
        or_false] at h
      obtain ⟨rfl, rfl⟩ := h
      exact ht
    · simp only [List.mem_cons, List.not_mem_nil, reduceCtorEq, Output.send.injEq,
        or_false] at h
      obtain ⟨rfl, -⟩ := h
      trivial
  · simp at h

private theorem handle_channel {replica : ReplicaT} {msg m : SmltMsg} {dst : Party}
    {i : Nat} (h : .send dst m ∈ messageHandlerChain cfg replica msg) :
    OnChannel cfg (.replica i) dst m := by
  unfold messageHandlerChain at h
  split at h
  · exact handleSetup_channel h
  · split at h
    · exact handleRequest_channel h
    · split at h
      · rename_i hc
        exact handleCommit_channel hc h
      · simp at h

/-- One message at the head of a node-level chain. -/
private theorem head_step {replica : ReplicaT} {t : List Ev} {core : Nat} {msg : SmltMsg}
    (h0 : replica.id = 0) (hl : replica.level = .node)
    (ht : HeadHistory cfg t) (hm : cfg.FromClient core msg) :
    HeadHistory cfg (t ++ .recv (.client core) msg ::
      (messageHandlerChain cfg replica msg).map .out) := by
  by_cases hs : msg.tag = SETUP_TAG
  · constructor
    · simpa [messageHandlerChain, handleSetup, hs] using ht.relayed
    · simpa [messageHandlerChain, handleSetup, hs] using ht.service
    · simpa [messageHandlerChain, handleSetup, hs] using ht.own_client
  · have hreq : msg.tag = REQ_TAG := hm.elim And.left fun h => absurd h.1 hs
    have hclient := cfg.clientAt_of_getElem? (hm.request hreq)
    constructor
    · have hr := ht.relayed
      simp [messageHandlerChain, handleRequest, hreq, h0, hl, hr]
    · have hr := ht.service
      simp [messageHandlerChain, handleRequest, hreq, h0, hl, hr]
    · intro x hx
      simp only [requests_append, requests_recv, hreq, if_true, requests_map_out,
        List.mem_append, List.mem_singleton] at hx
      rcases hx with hx | rfl
      · exact ht.own_client x hx
      · exact hclient

theorem histories {C : ClientProc cfg} (hl : cfg.level = .node)
    {s : Net (cluster (chainReplica cfg) C)} (h : s.Reachable) :
    HeadHistory cfg (s.trace (.replica 0)) ∧
      (∀ i, 0 < i → i + 1 < cfg.numReplicas → MiddleHistory i (s.trace (.replica i))) ∧
      TailHistory cfg (cfg.numReplicas - 1) (s.trace (.replica (cfg.numReplicas - 1))) ∧
      ∀ i j, ∀ m ∈ s.inFlight (.replica i) (.replica j), m.tag = CHAIN_COMMIT := by
  have hn := cfg.two_le_numReplicas
  have hn' := cfg.numReplicas_lt
  have key := replica_invariant
    (fun i (l : ReplicaT) t => l = initReplicaChain cfg i ∧ (i = 0 → HeadHistory cfg t) ∧
      (0 < i → i + 1 < cfg.numReplicas → MiddleHistory i t) ∧
      (i = cfg.numReplicas - 1 → TailHistory cfg i t)) (OnChannel cfg) ?_ ?_ ?_ h
  · refine ⟨(key.1 0).2.1 rfl, fun i => (key.1 i).2.2.1, (key.1 _).2.2.2 rfl,
      fun i j m hm => ?_⟩
    refine key.2 (.replica i) (.replica j) m ?_
    rw [h.fifo]
    exact List.mem_append_right _ hm
  · intro i
    refine ⟨rfl, fun _ => ⟨by simp, by simp, by simp⟩, fun _ _ => ⟨by simp, by simp⟩, fun _ => ?_⟩
    simp [TailHistory]
  · exact fun _ _ hm => hm
  · rintro i l t src msg ⟨rfl, hhead, hmid, htail⟩ hp hm
    refine ⟨⟨rfl, fun hi => ?_, fun h0 hi => ?_, fun hi => ?_⟩,
      fun dst m hs => handle_channel hs⟩
    · subst hi
      cases src with
      | replica j => simp [chainReplica, initReplicaChain, polls] at hp
      | client core => exact head_step rfl hl (hhead rfl) hm
    · -- a replica inside the chain hears its left neighbour only
      have hi0 : i ≠ 0 := by omega
      have hleft : (i + 255) % 256 = i - 1 := by omega
      have hright : (i + 1) % 256 = i + 1 := by omega
      have hlast : i ≠ cfg.numReplicas - 1 := by omega
      have hsrc : src = .replica (i - 1) := by
        simpa [chainReplica, initReplicaChain, polls, hi0, hleft] using hp
      subst hsrc
      have htag : msg.tag = CHAIN_COMMIT := hm
      have hrel := (hmid h0 hi).relayed
      have hserv := (hmid h0 hi).service
      constructor
      · simp [chainReplica, initReplicaChain, messageHandlerChain, handleCommit, htag, hi0,
          hright, hlast, hrel]
      · simp [chainReplica, initReplicaChain, messageHandlerChain, handleCommit, htag, hi0,
          hright, hlast, hserv]
    · subst hi
      have hi0 : cfg.numReplicas - 1 ≠ 0 := by omega
      have hleft : (cfg.numReplicas - 1 + 255) % 256 = cfg.numReplicas - 1 - 1 := by omega
      have hsrc : src = .replica (cfg.numReplicas - 1 - 1) := by
        simpa [chainReplica, initReplicaChain, polls, hi0, hleft] using hp
      subst hsrc
      have htag : msg.tag = CHAIN_COMMIT := hm
      have hserv := htail rfl
      simp only [TailHistory] at hserv ⊢
      simp [chainReplica, initReplicaChain, messageHandlerChain, handleCommit, htag, hi0,
        Config.clientAt, hserv]

theorem answersSetup (l : ReplicaT) (msg : SmltMsg) :
    AnswersSetup cfg msg (messageHandlerChain cfg l msg) := by
  constructor
  · intro hs
    rw [messageHandlerChain, if_pos hs]
  · intro hs core m h
    unfold messageHandlerChain at h
    rw [if_neg hs] at h
    split_ifs at h
    · unfold handleRequest at h
      split at h
      · cases hl : l.level <;> simp [hl] at h
        rw [h.2]
        simp
      · simp at h
    · unfold handleCommit at h
      split at h
      · split at h
        · simp at h
        · simp only [List.mem_cons, reduceCtorEq, Output.send.injEq, List.not_mem_nil,
            or_false] at h
          rw [h.2]
          simp
      · simp at h
    · simp at h

/-- The head receives from clients only. -/
theorem inputs_from_clients {C : ClientProc cfg} {s : Net (cluster (chainReplica cfg) C)}
    (h : s.Reachable) : ∀ x ∈ inputs (s.trace (.replica 0)), ∃ core, x.1 = .client core := by
  have key := replica_induction (R := chainReplica cfg) 0
    (fun (l : ReplicaT) t => l.id = 0 ∧ ∀ x ∈ inputs t, ∃ core, x.1 = .client core)
    ⟨rfl, fun x hx => by cases hx⟩ ?_ h
  · exact key.2
  · rintro s s' l src msg - - ⟨hid, hI⟩ hp ht
    refine ⟨hid, fun x hx => ?_⟩
    rw [ht, inputs_append, inputs_recv, inputs_map_out, List.mem_append, List.mem_singleton] at hx
    rcases hx with hx | rfl
    · exact hI x hx
    · cases src with
      | replica j => simp [chainReplica, polls, hid] at hp
      | client core => exact ⟨core, rfl⟩

theorem HeadHistory.executed_eq {t : List Ev} (h : HeadHistory cfg t) :
    executed t = (requests t).map fun x => x.2.command := by
  rw [executed_eq_service, h.service]
  induction requests t with
  | nil => rfl
  | cons x xs ih => simpa using ih

theorem HeadHistory.responses_eq {t : List Ev} (h : HeadHistory cfg t) : responses t = [] := by
  rw [responses, h.service, List.filterMap_map]
  exact List.filterMap_eq_nil_iff.mpr fun _ _ => rfl

theorem MiddleHistory.executed_eq {i : Nat} {t : List Ev} (h : MiddleHistory i t) :
    executed t = (receivedFrom (.replica (i - 1)) t).map SmltMsg.command := by
  rw [executed_eq_service, h.service]
  induction receivedFrom (.replica (i - 1)) t with
  | nil => rfl
  | cons m ms ih => simpa using ih

theorem MiddleHistory.responses_eq {i : Nat} {t : List Ev} (h : MiddleHistory i t) :
    responses t = [] := by
  rw [responses, h.service, List.filterMap_map]
  exact List.filterMap_eq_nil_iff.mpr fun _ _ => rfl

theorem TailHistory.executed_eq {i : Nat} {t : List Ev} (h : TailHistory cfg i t) :
    executed t = (receivedFrom (.replica (i - 1)) t).map SmltMsg.command := by
  rw [executed_eq_service, show service t = _ from h]
  induction receivedFrom (.replica (i - 1)) t with
  | nil => rfl
  | cons m ms ih => simpa using ih

theorem TailHistory.responses_eq {i : Nat} {t : List Ev} (h : TailHistory cfg i t) :
    responses t = (receivedFrom (.replica (i - 1)) t).map fun m =>
      (cfg.clientAt m.clientId, m.withTag RESP_TAG) := by
  rw [responses, show service t = _ from h]
  induction receivedFrom (.replica (i - 1)) t with
  | nil => rfl
  | cons m ms ih => simpa using ih

section Chain

variable {C : ClientProc cfg} {s : Net (cluster (chainReplica cfg) C)}

/-- A replica executes what it receives from the left. -/
theorem executed_received (hl : cfg.level = .node) (h : s.Reachable) {i : Nat}
    (hi : i + 1 < cfg.numReplicas) : executed (s.trace (.replica (i + 1))) =
      (receivedFrom (.replica i) (s.trace (.replica (i + 1)))).map SmltMsg.command := by
  obtain ⟨-, hmid, htail, -⟩ := histories hl h
  by_cases hlast : i + 1 = cfg.numReplicas - 1
  · rw [← hlast] at htail
    exact htail.executed_eq
  · exact (hmid (i + 1) (by omega) (by omega)).executed_eq

/-- A replica sends to the right what it executes. -/
theorem executed_sent (hl : cfg.level = .node) (h : s.Reachable) {i : Nat}
    (hi : i + 1 < cfg.numReplicas) : executed (s.trace (.replica i)) =
      (sentTo (.replica (i + 1)) (s.trace (.replica i))).map SmltMsg.command := by
  obtain ⟨hhead, hmid, -, -⟩ := histories hl h
  cases i with
  | zero =>
    rw [hhead.executed_eq, hhead.relayed, List.map_map]
    exact List.map_congr_left fun x _ => (SmltMsg.command_withTag x.2 _).symm
  | succ i =>
    have hm := hmid (i + 1) (by omega) hi
    rw [hm.relayed, hm.executed_eq]

/-- What the left neighbour has executed and a replica has not is in flight between them. -/
theorem executed_in_flight (hl : cfg.level = .node) (h : s.Reachable) {i : Nat}
    (hi : i + 1 < cfg.numReplicas) : executed (s.trace (.replica i)) =
      executed (s.trace (.replica (i + 1))) ++
        (s.inFlight (.replica i) (.replica (i + 1))).map SmltMsg.command := by
  rw [executed_sent hl h hi, h.fifo, List.map_append, executed_received hl h hi]

/-- No replica has executed more than one to its left. -/
theorem prefix_executed (hl : cfg.level = .node) (h : s.Reachable) {i j : Nat} (hij : i ≤ j)
    (hj : j < cfg.numReplicas) :
    executed (s.trace (.replica j)) <+: executed (s.trace (.replica i)) := by
  induction j with
  | zero =>
    obtain rfl := Nat.le_zero.mp hij
    exact List.prefix_rfl
  | succ j ih =>
    rcases Nat.eq_or_lt_of_le hij with rfl | hlt
    · exact List.prefix_rfl
    · refine List.IsPrefix.trans ⟨_, (executed_in_flight hl h hj).symm⟩ ?_
      exact ih (Nat.le_of_lt_succ hlt) (Nat.lt_of_succ_lt hj)

/-- What a replica sends to the right is a prefix of what the head sent. -/
theorem prefix_relayed (hl : cfg.level = .node) (h : s.Reachable) {i : Nat}
    (hi : i + 1 < cfg.numReplicas) :
    sentTo (.replica (i + 1)) (s.trace (.replica i)) <+:
      (requests (s.trace (.replica 0))).map fun x => x.2.withTag CHAIN_COMMIT := by
  obtain ⟨hhead, hmid, -, -⟩ := histories hl h
  induction i with
  | zero => rw [hhead.relayed]
  | succ i ih =>
    have hm := hmid (i + 1) (by omega) hi
    rw [hm.relayed]
    exact (h.receivedFrom_prefix _ _).trans (ih (by omega))

/-- The tail answers the requests that it executes, each to the client it came from. -/
theorem tail_responses (hl : cfg.level = .node) (h : s.Reachable) :
    responses (s.trace (.replica (cfg.numReplicas - 1))) =
      ((requests (s.trace (.replica 0))).take
        (executed (s.trace (.replica (cfg.numReplicas - 1)))).length).map
          fun x => (x.1, x.2.withTag RESP_TAG) := by
  have hn := cfg.two_le_numReplicas
  obtain ⟨hhead, -, htail, -⟩ := histories hl h
  obtain ⟨k, hk⟩ : ∃ k, cfg.numReplicas = k + 2 := ⟨cfg.numReplicas - 2, by omega⟩
  have hk1 : cfg.numReplicas - 1 = k + 1 := by omega
  rw [hk1] at htail ⊢
  have htake : receivedFrom (.replica k) (s.trace (.replica (k + 1))) =
      ((requests (s.trace (.replica 0))).take
        (executed (s.trace (.replica (k + 1)))).length).map
          fun x => x.2.withTag CHAIN_COMMIT := by
    have hp := (h.receivedFrom_prefix (.replica k) (.replica (k + 1))).trans
      (prefix_relayed hl h (by omega))
    rw [List.map_take, executed_received hl h (by omega), List.length_map]
    exact List.prefix_iff_eq_take.mp hp
  rw [htail.responses_eq, Nat.add_sub_cancel, htake, List.map_map]
  refine List.map_congr_left fun x hx => ?_
  have hx' := hhead.own_client x (List.mem_of_mem_take hx)
  simp [hx']

end Chain

/-- Chain replication over a whole run of a node-level chain. -/
structure Ordered (cfg : Config) {C : ClientProc cfg}
    (s : Net (cluster (chainReplica cfg) C)) : Prop where
  /-- The head executes the requests in the order in which it took them. -/
  head_order : executed (s.trace (.replica 0)) =
    (requests (s.trace (.replica 0))).map fun x => x.2.command
  successor_prefix : ∀ i, i + 1 < cfg.numReplicas →
    executed (s.trace (.replica (i + 1))) <+: executed (s.trace (.replica i))
  /-- The messages in flight to the right neighbour are commits, of exactly the
  commands that it has not executed yet, in order. -/
  in_flight : ∀ i, i + 1 < cfg.numReplicas →
    executed (s.trace (.replica i)) = executed (s.trace (.replica (i + 1))) ++
      (s.inFlight (.replica i) (.replica (i + 1))).map SmltMsg.command ∧
    ∀ m ∈ s.inFlight (.replica i) (.replica (i + 1)), m.tag = CHAIN_COMMIT
  /-- The tail has answered, one for one and in the head's order, the requests whose
  commands it has executed, each to the client it came from. -/
  tail_answers : responses (s.trace (.replica (cfg.numReplicas - 1))) =
    ((requests (s.trace (.replica 0))).take
      (executed (s.trace (.replica (cfg.numReplicas - 1)))).length).map
        fun x => (x.1, x.2.withTag RESP_TAG)
  only_tail_answers : ∀ i, i + 1 < cfg.numReplicas → responses (s.trace (.replica i)) = []
  /-- A request that a client sent has been taken by the head or is in flight to it. -/
  none_lost : ∀ core, requestsSent (s.trace (.client core)) =
    ((requests (s.trace (.replica 0))).filter (·.1 = .client core)).map Prod.snd ++
      (s.inFlight (.client core) (.replica 0)).filter (·.tag = REQ_TAG)
  /-- With no message in flight every request has its one response. -/
  quiescent_answered : s.Quiescent →
    responses (s.trace (.replica (cfg.numReplicas - 1))) =
      (requests (s.trace (.replica 0))).map fun x => (x.1, x.2.withTag RESP_TAG)

/-- Chain replication, for any clients and any interleaving. -/
theorem chain_ordered (cfg : Config) (hl : cfg.level = .node) (C : ClientProc cfg)
    (s : Net (cluster (chainReplica cfg) C)) (h : s.Reachable) : Ordered cfg s := by
  have hn := cfg.two_le_numReplicas
  obtain ⟨hhead, hmid, -, htag⟩ := histories hl h
  refine
    { head_order := hhead.executed_eq
      successor_prefix := fun i hi => prefix_executed hl h (Nat.le_succ i) hi
      in_flight := fun i hi => ⟨executed_in_flight hl h hi, htag i (i + 1)⟩
      tail_answers := tail_responses hl h
      only_tail_answers := fun i hi => ?_
      none_lost := requestsSent_eq h
      quiescent_answered := fun hq => ?_ }
  · by_cases h0 : i = 0
    · rw [h0]
      exact hhead.responses_eq
    · exact (hmid i (by omega) hi).responses_eq
  · -- no commit is in flight, so the tail has executed as much as the head
    have hall : ∀ i, i < cfg.numReplicas →
        executed (s.trace (.replica i)) = executed (s.trace (.replica 0)) := by
      intro i
      induction i with
      | zero => exact fun _ => rfl
      | succ i ih =>
        intro hi
        have hf := executed_in_flight hl h hi
        rw [hq, List.map_nil, List.append_nil] at hf
        rw [← hf, ih (by omega)]
    rw [tail_responses hl h, hall _ (by omega), hhead.executed_eq, List.length_map,
      List.take_length]

/-- A chain of three replicas; the tail has answered one of two requests. -/
private def cfg3 : Config := .threeNodes

private def schedule3 : List (Action (cluster (chainReplica cfg3) (anyClient cfg3))) :=
  let zero : SmltMsg := ⟨0, 0, 0, 0, 0, 0, 0⟩
  [.stimulate (.client 10) (zero.stamp 0 0 0 ⟨7, 7, 7⟩),
    .stimulate (.client 11) (zero.stamp 1 0 0 ⟨8, 8, 8⟩),
    .deliver (.client 11) (.replica 0), .deliver (.client 10) (.replica 0),
    .deliver (.replica 0) (.replica 1), .deliver (.replica 1) (.replica 2)]

theorem chain_ordered_run :
    ∃ s : Net (cluster (chainReplica cfg3) (anyClient cfg3)),
      executed (s.trace (.replica 0)) = [⟨1, 0, ⟨8, 8, 8⟩⟩, ⟨0, 0, ⟨7, 7, 7⟩⟩] ∧
      (responses (s.trace (.replica 2))).map Prod.fst = [.client 11] ∧ Ordered cfg3 s :=
  ⟨((Net.initial _).run schedule3).get rfl, by decide, by decide,
    chain_ordered cfg3 rfl _ _ (Net.reachable_of_run schedule3 rfl)⟩

end SmeltConsensus.Chain.Order
