import SmeltConsensus.Bench.MessageCount
import SmeltConsensus.Foundation.AtomicLog

/-!
Every algorithm implements one atomic log. The log of a two-phase commit is what the leader
executes, in the other algorithms it is what the leader takes; replicas execute its prefixes and
clients are answered from it.
-/

set_option autoImplicit false
set_option relaxedAutoImplicit false

namespace SmeltConsensus.Bench.Linearizable

open SmeltConsensus.Foundation.Network
open SmeltConsensus.Foundation.LastSeen
open SmeltConsensus.Foundation.AtomicLog
open SmeltConsensus.Message.Header
open SmeltConsensus.Cluster.Parties
open SmeltConsensus.Cluster.Algorithms
open SmeltConsensus.OnePaxos.Execute (admitted admitted_prefix)
open SmeltConsensus.Bench.Client (recvReplica)
open SmeltConsensus.Bench.Routing
open SmeltConsensus.Bench.Answers
open SmeltConsensus.Bench.MessageCount

variable {cfg : Config}

/-- A command is the operation of the client in its header, which is told the ids. -/
def logService (cfg : Config) : Service Party Command (Nat × Nat) where
  client c := cfg.clientAt c.clientId
  answer := idsOf

section Abstraction

variable {R : ReplicaProc} {C : ClientProc cfg}

/-- The operations that a client invoked; in 1Paxos a repeated request is none. -/
def called (alg : Algorithm) (s : Net (cluster R C)) (core : Nat) : List Command :=
  due alg ((requestsSent (s.trace (.client core))).map SmltMsg.command)

/-- The order of the operations. -/
def logOf (alg : Algorithm) (s : Net (cluster R C)) : List Command :=
  match alg with
  | .tpc => executed (s.trace (.replica 0))
  | alg => due alg (requested (s.trace (.replica 0)))

/-- The state of the atomic log that a state of the group stands for. -/
def serviceState (alg : Algorithm) (s : Net (cluster R C)) :
    State Party Command where
  log := logOf alg s
  invoked
    | .client core => called alg s core
    | .replica _ => []
  replied
    | .client core => (responsesReceived (s.trace (.client core))).length
    | .replica _ => 0

/-- What a party sees as a client between two states: the operations it invokes and the
responses it receives. -/
def seen (alg : Algorithm) (s s' : Net (cluster R C)) :
    Party → List (Visible Party Command (Nat × Nat))
  | .replica _ => []
  | .client core =>
    ((called alg s' core).drop (called alg s core).length).map .invoke ++
      ((responsesReceived (s'.trace (.client core))).drop
        (responsesReceived (s.trace (.client core))).length).map
          fun x => .reply (.client core) (ids x.2)

/-- What the clients see of a run. -/
def clientHistory (alg : Algorithm) (s : Net (cluster R C)) :
    List (Action (cluster R C)) → List (Visible Party Command (Nat × Nat))
  | [] => []
  | a :: as =>
    match s.step a with
    | none => []
    | some s' => seen alg s s' (Net.actor a) ++ clientHistory alg s' as

end Abstraction

theorem prefix_due (alg : Algorithm) {cs ds : List Command} (h : cs <+: ds) :
    due alg cs <+: due alg ds := by
  cases alg with
  | onePaxos => exact admitted_prefix h
  | tpc => exact h
  | broad => exact h
  | chain => exact h
  | raft => exact h

theorem due_subset (alg : Algorithm) (cs : List Command) : due alg cs ⊆ cs := by
  cases alg with
  | onePaxos => exact (select_sublist _ _).subset
  | tpc => exact List.Subset.refl _
  | broad => exact List.Subset.refl _
  | chain => exact List.Subset.refl _
  | raft => exact List.Subset.refl _

/-- What holds between the log and the group: its operations were invoked, replicas execute its
prefixes, and one replica alone answers, what it executes. -/
structure Logged (alg : Algorithm) {R : ReplicaProc} {C : ClientProc cfg}
    (s : Net (cluster R C)) : Prop where
  own : ∀ c ∈ logOf alg s, c.clientId < cfg.clients.length
  called : ∀ cid core, cfg.clients[cid]? = some core →
    ofClient cid (logOf alg s) <+: called alg s core
  executed : ∀ i, i < cfg.numReplicas → executed (s.trace (.replica i)) <+: logOf alg s
  answers : (responses (s.trace (.replica (recvReplica cfg alg)))).map (fun x => (x.1, ids x.2)) =
    (Foundation.Network.executed (s.trace (.replica (recvReplica cfg alg)))).map
      fun c => (cfg.clientAt c.clientId, idsOf c)
  only : ∀ i, i ≠ recvReplica cfg alg → responses (s.trace (.replica i)) = []

theorem recvReplica_lt (cfg : Config) (alg : Algorithm) :
    recvReplica cfg alg < cfg.numReplicas := by
  have hn := cfg.two_le_numReplicas
  cases alg with
  | chain => exact Nat.sub_lt (by omega) Nat.one_pos
  | onePaxos => exact Nat.lt_of_succ_lt hn
  | tpc => exact Nat.lt_of_succ_lt hn
  | broad => exact Nat.lt_of_succ_lt hn
  | raft => exact Nat.lt_of_succ_lt hn

section Steps

variable {R : ReplicaProc} {C : ClientProc cfg} {s s' : Net (cluster R C)} {alg : Algorithm}
  {a : Action (cluster R C)}

theorem prefix_trace (ha : s.step a = some s') (p : Party) : s.trace p <+: s'.trace p := by
  obtain ⟨src, dst, m, rest, -, -, rfl⟩ | ⟨q, x, r, -, rfl⟩ := Net.step_cases ha
  · by_cases hp : p = dst
    · subst hp
      rw [Net.act_trace_self, Net.pop_trace]
      exact List.prefix_append _ _
    · rw [Net.act_trace_of_ne _ hp, Net.pop_trace]
  · by_cases hp : p = q
    · subst hp
      rw [Net.act_trace_self]
      exact List.prefix_append _ _
    · rw [Net.act_trace_of_ne _ hp]

theorem prefix_logOf (ha : s.step a = some s') : logOf alg s <+: logOf alg s' := by
  obtain ⟨t, ht⟩ := prefix_trace ha (.replica 0)
  have hrequested : requested (s.trace (.replica 0)) <+: requested (s'.trace (.replica 0)) := by
    rw [← ht, requested, requested, requests_append, List.map_append]
    exact List.prefix_append _ _
  cases alg with
  | tpc =>
    show executed _ <+: executed _
    rw [← ht, executed_append]
    exact List.prefix_append _ _
  | onePaxos => exact prefix_due .onePaxos hrequested
  | broad => exact hrequested
  | chain => exact hrequested
  | raft => exact hrequested

theorem prefix_called (alg : Algorithm) (ha : s.step a = some s') (core : Nat) :
    called alg s core <+: called alg s' core := by
  obtain ⟨t, ht⟩ := prefix_trace ha (.client core)
  refine prefix_due alg ?_
  rw [← ht, requestsSent, requestsSent, sentTo_append, List.filter_append, List.map_append]
  exact List.prefix_append _ _

theorem prefix_responsesReceived (ha : s.step a = some s') (core : Nat) :
    responsesReceived (s.trace (.client core)) <+: responsesReceived (s'.trace (.client core)) := by
  obtain ⟨t, ht⟩ := prefix_trace ha (.client core)
  rw [← ht, responsesReceived, responsesReceived, inputs_append, List.filter_append]
  exact List.prefix_append _ _

/-- A client invokes operations of its own. -/
theorem client_of_called (h : s.Reachable) {core : Nat} {c : Command}
    (hc : c ∈ called alg s core) : (logService cfg).client c = .client core := by
  obtain ⟨m, hm, rfl⟩ := List.mem_map.mp (due_subset alg _ hc)
  obtain ⟨hsent, htag⟩ := List.mem_filter.mp hm
  exact cfg.clientAt_of_getElem?
    ((fromClient_of_mem_sentTo h hsent).request (of_decide_eq_true htag))

/-- The operations of one client in the log. -/
theorem opsOf_log (hlog : Logged alg s) {cid core : Nat} (hcid : cfg.clients[cid]? = some core) :
    opsOf (logService cfg) (.client core) (logOf alg s) = ofClient cid (logOf alg s) := by
  refine List.filter_congr fun c hc => ?_
  exact decide_eq_decide.mpr (cfg.clientAt_eq_client_iff (hlog.own c hc) hcid)

/-- What one client has received are the answers to its first operations in the log. -/
theorem received_answers (h : s.Reachable) (hlog : Logged alg s) (core : Nat) :
    (responsesReceived (s.trace (.client core))).map (fun x => ids x.2) <+:
      (opsOf (logService cfg) (.client core) (logOf alg s)).map idsOf := by
  have honly : ∀ p, p ≠ .replica (recvReplica cfg alg) →
      ∀ m ∈ sentTo (.client core) (s.trace p), m.tag = SETUP_TAG := by
    rintro (i | core') hp m hm
    · by_contra htag
      have hmem : m ∈ (sentTo (.client core) (s.trace (.replica i))).filter (·.tag ≠ SETUP_TAG) :=
        List.mem_filter.mpr ⟨hm, decide_eq_true htag⟩
      rw [sentTo_client_eq_responses, hlog.only i fun heq => hp (by rw [heq])] at hmem
      cases hmem
    · rw [sentTo_eq_sends] at hm
      obtain ⟨x, hx, -⟩ := List.mem_map.mp hm
      obtain ⟨hx, hdst⟩ := List.mem_filter.mp hx
      have hleader := client_sends_leader h core' x hx
      rw [of_decide_eq_true hdst] at hleader
      cases hleader
  have hfrom : ∀ x ∈ responsesReceived (s.trace (.client core)),
      x.1 = .replica (recvReplica cfg alg) := by
    intro x hx
    obtain ⟨hx, ht⟩ := List.mem_filter.mp hx
    by_contra hne
    have hmem := (h.receivedFrom_prefix x.1 (.client core)).subset (mem_receivedFrom_iff.mpr hx)
    simp [honly x.1 hne x.2 hmem] at ht
  have heq : (responsesReceived (s.trace (.client core))).map Prod.snd =
      (receivedFrom (.replica (recvReplica cfg alg)) (s.trace (.client core))).filter
        (·.tag ≠ SETUP_TAG) := by
    rw [receivedFrom_eq_inputs, List.filter_map, List.filter_filter,
      ← List.filter_eq_self.mpr fun x hx => decide_eq_true (hfrom x hx), responsesReceived,
      List.filter_filter]
    congr 2
    funext x
    exact Bool.and_comm _ _
  have hsent := ((h.receivedFrom_prefix (.replica (recvReplica cfg alg)) (.client core)).filter
    (·.tag ≠ SETUP_TAG)).map ids
  rw [← heq, List.map_map, ← idsSent_eq_sentTo] at hsent
  have hanswers : idsSent (recvReplica cfg alg) core s =
      (opsOf (logService cfg) (.client core)
        (executed (s.trace (.replica (recvReplica cfg alg))))).map idsOf := by
    have hone := congrArg (fun xs => (xs.filter (·.1 = .client core)).map Prod.snd) hlog.answers
    rw [List.filter_map, List.filter_map, List.map_map, List.map_map] at hone
    exact hone
  rw [hanswers] at hsent
  exact hsent.trans (((hlog.executed _ (recvReplica_lt cfg alg)).filter _).map _)

/-- The operations in the log were invoked, each client's in its order. -/
theorem prefix_opsOf (hlog : Logged alg s) (p : Party) :
    opsOf (logService cfg) p (logOf alg s) <+: (serviceState alg s).invoked p := by
  have hnone : (∀ c ∈ logOf alg s, cfg.clientAt c.clientId ≠ p) →
      opsOf (logService cfg) p (logOf alg s) = [] := fun hne =>
    List.filter_eq_nil_iff.mpr fun c hc => by rw [decide_eq_true_eq]; exact hne c hc
  rcases p with i | core
  · rw [hnone fun c _ => cfg.clientAt_ne_replica c.clientId i]
    exact List.nil_prefix
  · by_cases hcore : core ∈ cfg.clients
    · obtain ⟨cid, hcid⟩ := List.mem_iff_getElem?.mp hcore
      rw [opsOf_log hlog hcid]
      exact hlog.called cid core hcid
    · rw [hnone]
      · exact List.nil_prefix
      · intro c hc heq
        have hget := List.getElem?_eq_getElem (hlog.own c hc)
        rw [cfg.clientAt_of_getElem? hget] at heq
        exact hcore (Party.client.inj heq ▸ List.getElem_mem _)

theorem take_drop_of_prefix {α : Type} {xs ys zs : List α} (h : xs ++ ys <+: zs) :
    (zs.drop xs.length).take ys.length = ys := by
  obtain ⟨rest, rfl⟩ := h
  rw [List.append_assoc, List.drop_left, List.take_left]

/-- A step of the group is a run of the atomic log in which the clients see the same. -/
theorem step_simulated (h : s.Reachable) (ha : s.step a = some s') (hlog : Logged alg s') :
    ∃ bs, Foundation.Machine.run (next (logService cfg)) (serviceState alg s) bs =
        some (serviceState alg s') ∧
      history (logService cfg) (serviceState alg s) bs = seen alg s s' (Net.actor a) := by
  have h' : s'.Reachable := h.step ha
  have hsame : ∀ p, p ≠ Net.actor a → (serviceState alg s').invoked p = (serviceState alg s).invoked p ∧
      (serviceState alg s').replied p = (serviceState alg s).replied p := by
    rintro (i | core) hp
    · exact ⟨rfl, rfl⟩
    · have htrace := Net.step_trace_of_ne ha (Ne.symm hp)
      constructor
      · show called alg s' core = called alg s core
        rw [called, called, htrace]
      · show (responsesReceived (s'.trace (.client core))).length = _
        rw [htrace]
        rfl
  have hreplied : ∀ p, (serviceState alg s').replied p ≤
      (opsOf (logService cfg) p (logOf alg s')).length := by
    rintro (i | core)
    · exact Nat.zero_le _
    · have hle := (received_answers h' hlog core).length_le
      rwa [List.length_map, List.length_map] at hle
  rcases hactor : Net.actor a with i | core
  · rw [hactor] at hsame
    have hinvoked : (serviceState alg s').invoked =
        ((serviceState alg s).invoking (.replica i) []).invoked := by
      rw [State.invoking_nil]
      funext p
      by_cases hp : p = .replica i
      · subst hp
        rfl
      · exact (hsame p hp).1
    have hcount : (serviceState alg s').replied =
        ((serviceState alg s).replying (.replica i) 0).replied := by
      rw [State.replying_zero]
      funext p
      by_cases hp : p = .replica i
      · subst hp
        rfl
      · exact (hsame p hp).2
    exact simulates (fun c hc => absurd hc List.not_mem_nil) hinvoked hcount (prefix_logOf ha)
      (prefix_opsOf hlog) (hreplied _)
  · rw [hactor] at hsame
    obtain ⟨cs, hcs⟩ := prefix_called alg ha core
    obtain ⟨ms, hms⟩ := prefix_responsesReceived ha core
    have hinvoked : (serviceState alg s').invoked =
        ((serviceState alg s).invoking (.client core) cs).invoked := by
      funext p
      by_cases hp : p = .client core
      · subst hp
        rw [State.invoking_self]
        exact hcs.symm
      · rw [State.invoking_of_ne _ hp]
        exact (hsame p hp).1
    have hcount : (serviceState alg s').replied =
        ((serviceState alg s).replying (.client core) ms.length).replied := by
      funext p
      by_cases hp : p = .client core
      · subst hp
        rw [State.replying_self]
        exact (congrArg List.length hms).symm.trans List.length_append
      · rw [State.replying_of_ne _ hp]
        exact (hsame p hp).2
    have hclient : ∀ c ∈ cs, (logService cfg).client c = .client core := fun c hc =>
      client_of_called h' (hcs ▸ List.mem_append_right _ hc)
    obtain ⟨bs, hrun, hhist⟩ := simulates hclient hinvoked hcount (prefix_logOf ha)
      (prefix_opsOf hlog) (hreplied _)
    -- the responses are the answers to the operations that come next
    have hanswers := received_answers h' hlog core
    rw [← hms, List.map_append] at hanswers
    have hnext := take_drop_of_prefix hanswers
    rw [List.length_map, List.length_map, ← List.map_drop, ← List.map_take] at hnext
    have hreplies := congrArg (List.map fun r =>
      (Visible.reply (Party.client core) r : Visible Party Command (Nat × Nat))) hnext
    rw [List.map_map, List.map_map] at hreplies
    refine ⟨bs, hrun, hhist.trans ?_⟩
    rw [seen, ← hcs, ← hms, List.drop_left, List.drop_left]
    exact congrArg _ hreplies

end Steps

section Algorithms

variable {C : ClientProc cfg}

/-- What the leader has taken, a client has invoked. -/
theorem taken_called {R : ReplicaProc} {s : Net (cluster R C)} (h : s.Reachable) (alg : Algorithm)
    (hown : OwnRequests cfg (s.trace (.replica 0))) {cid core : Nat}
    (hcid : cfg.clients[cid]? = some core) :
    ofClient cid (due alg (requested (s.trace (.replica 0)))) <+: called alg s core := by
  rw [ofClient_due, hown.ofClient_requested hcid]
  apply prefix_due
  rw [requestsSent_eq h, List.map_append, List.map_map]
  exact List.prefix_append _ _

theorem own_due {t : List Ev} (hown : OwnRequests cfg t) (alg : Algorithm) :
    ∀ c ∈ due alg (requested t), c.clientId < cfg.clients.length := fun c hc =>
  OwnRequests.lt hown c (due_subset alg _ hc)

section Broadcast

open SmeltConsensus.Broadcast.Replica
open SmeltConsensus.Broadcast.Replication

theorem broadcast_logged (hl : cfg.level = .node) {s : Net (cluster (broadcastReplica cfg) C)}
    (h : s.Reachable) : Logged .broad s := by
  obtain ⟨hlead, hfol, -⟩ := histories (.inl hl) h
  have hinputs := inputs_from_clients h
  have hown := ownRequests_of h fun x hx => hinputs x (List.mem_filter.mp hx).1
  refine ⟨own_due hown .broad, fun cid core hcid => taken_called h .broad hown hcid, ?_,
    broadcast_pairs hl h, ?_⟩
  · intro i hi
    have hexec : executed (s.trace (.replica 0)) = requested (s.trace (.replica 0)) :=
      hlead.executed_eq
    rcases Nat.eq_zero_or_pos i with rfl | h1
    · rw [hexec]
      exact List.prefix_rfl
    · have hreceived := (h.receivedFrom_prefix (.replica 0) (.replica i)).map SmltMsg.command
      have hsame : (requests (s.trace (.replica 0))).map
          (SmltMsg.command ∘ fun x => x.2.withTag BROAD_COMMIT) = requested (s.trace (.replica 0)) :=
        List.map_congr_left fun x _ => SmltMsg.command_withTag x.2 _
      rw [hlead.commits i h1 hi, List.map_map, hsame] at hreceived
      rw [(hfol i (by omega)).executed]
      exact hreceived
  · intro i hi
    apply responses_of_silent (i := 0)
    rw [(hfol i hi).sends]
    exact fun x hx => absurd hx List.not_mem_nil

end Broadcast

section Chain

open SmeltConsensus.Chain.Replica
open SmeltConsensus.Chain.Order

theorem chain_logged (hl : cfg.level = .node) {s : Net (cluster (chainReplica cfg) C)}
    (h : s.Reachable) : Logged .chain s := by
  obtain ⟨hhead, hmid, -, -⟩ := histories hl h
  have hinputs := inputs_from_clients h
  have hown := ownRequests_of h fun x hx => hinputs x (List.mem_filter.mp hx).1
  refine ⟨own_due hown .chain, fun cid core hcid => taken_called h .chain hown hcid, ?_,
    chain_pairs hl h, ?_⟩
  · intro i hi
    have hprefix := prefix_executed hl h (Nat.zero_le i) hi
    rw [hhead.executed_eq] at hprefix
    exact hprefix
  · intro i hi
    have hrecv : recvReplica cfg .chain = cfg.numReplicas - 1 := rfl
    rw [hrecv] at hi
    by_cases hlt : i < cfg.numReplicas
    · rcases Nat.eq_zero_or_pos i with rfl | hpos
      · exact hhead.responses_eq
      · exact (hmid i hpos (by omega)).responses_eq
    · rw [chain_outside h (Nat.le_of_not_lt hlt)]
      rfl

end Chain

section TwoPhase

open SmeltConsensus.TwoPhase.Replica
open SmeltConsensus.TwoPhase.Commit

variable {ready ack : ClientTable}

theorem tpc_logged (hone : OneOpen ready ack C) (hl : cfg.level = .node)
    (hmax : cfg.clients.length ≤ MAX_NUM_CLIENTS)
    {s : Net (cluster (tpcReplica cfg ready ack) C)} (h : s.Reachable) : Logged .tpc s := by
  obtain ⟨hlead, hpart, -⟩ := histories (.inl hl) hmax h
  refine ⟨tpc_own hl hmax h, fun cid core hcid => ?_, fun i hi => ?_, tpc_pairs hl hmax h, ?_⟩
  · exact (executed_requested hone hl hmax h cid).trans (taken_called h .tpc hlead.ownRequests hcid)
  · rcases Nat.eq_zero_or_pos i with rfl | h1
    · exact List.prefix_rfl
    · have hreceived := ((h.receivedFrom_prefix (.replica 0) (.replica i)).filter
        (·.tag = TPC_COM)).map SmltMsg.command
      rw [hlead.same i h1 hi] at hreceived
      show executed (s.trace (.replica i)) <+: executed (s.trace (.replica 0))
      rw [(hpart i (by omega)).executed, hlead.executed_eq]
      exact hreceived
  · exact fun i hi => responses_of_silent (hpart i hi).silent

end TwoPhase

section Raft

open SmeltConsensus.Raft.Replica
open SmeltConsensus.Raft.Follower
open SmeltConsensus.Raft.Leader
open SmeltConsensus.Raft.History
open SmeltConsensus.Raft.Safety

theorem raft_logged {s : Net (cluster (raftReplica cfg) C)} (h : s.Reachable) :
    Logged .raft s := by
  obtain ⟨w, hw⟩ : ∃ w, LeaderHistory cfg w (s.loc (.replica 0)) (s.trace (.replica 0)) :=
    histories h 0
  have hfollower : ∀ i, FollowerHistory (i + 1) (s.loc (.replica (i + 1)))
    (s.trace (.replica (i + 1))) := fun i => histories h (i + 1)
  refine ⟨own_due hw.ownRequests .raft, fun cid core hcid => taken_called h .raft hw.ownRequests hcid,
    ?_, raft_pairs h, ?_⟩
  · rintro (_ | i) hi
    · rw [leader_executed_eq h hw]
      exact List.take_prefix _ _
    · rw [(hfollower i).executed_eq]
      have hreceived := (follower_received h hw (Nat.le_add_left 1 i)).map SmltMsg.command
      rw [map_command_replicated] at hreceived
      exact (List.dropLast_prefix _).trans hreceived
  · intro i hi
    obtain ⟨i, rfl⟩ := Nat.exists_eq_succ_of_ne_zero hi
    apply responses_of_silent (i := 0)
    intro x hx
    rw [(hfollower i).sends_eq] at hx
    obtain ⟨k, hk, rfl⟩ := List.mem_mapIdx.mp hx
    rfl

end Raft

section OnePaxos

open SmeltConsensus.OnePaxos.Replica
open SmeltConsensus.OnePaxos.Learn

theorem paxos_logged (hl : cfg.level = .node) (hmax : cfg.clients.length ≤ MAX_NUM_CLIENTS)
    {s : Net (cluster (onepaxosReplica cfg false) C)} (h : s.Reachable) : Logged .onePaxos s := by
  obtain ⟨hlead, hacc, hlearn, -⟩ := histories hl hmax h
  -- the acceptor takes the first requests of the leader, and the others what it took
  have haccepted : (receivedFrom (.replica 0) (s.trace (.replica 1))).map SmltMsg.command <+:
      requested (s.trace (.replica 0)) := by
    have hproposed := ((h.receivedFrom_prefix (.replica 0) (.replica 1)).trans
      hlead.proposals).map SmltMsg.command
    have hsame : (requests (s.trace (.replica 0))).map
        (SmltMsg.command ∘ fun x => x.2.withTag ONE_ACC) = requested (s.trace (.replica 0)) :=
      List.map_congr_left fun x _ => SmltMsg.command_withTag x.2 _
    rwa [List.map_map, hsame] at hproposed
  refine ⟨own_due hlead.ownRequests .onePaxos,
    fun cid core hcid => taken_called h .onePaxos hlead.ownRequests hcid, ?_, paxos_pairs hl hmax h,
    ?_⟩
  · intro i hi
    by_cases h1 : i = 1
    · subst h1
      rw [hacc.executed_eq]
      exact admitted_prefix haccepted
    · have hlearned := (prefix_learned (.inl hl) hmax h h1 hi).map SmltMsg.command
      rw [commands_mapIdx_learnMsg] at hlearned
      have hexec : executed (s.trace (.replica i)) =
          admitted ((receivedFrom (.replica 1) (s.trace (.replica i))).map SmltMsg.command) := by
        rcases Nat.eq_zero_or_pos i with rfl | hpos
        · exact hlead.executed_eq
        · exact (hlearn i (by omega)).executed_eq
      rw [hexec]
      exact admitted_prefix (hlearned.trans haccepted)
  · intro i hi
    have hi : i ≠ 0 := hi
    by_cases h1 : i = 1
    · rw [h1]
      exact responses_of_sentTo_nil hacc.silent
    · apply responses_of_silent (i := 0)
      rw [(hlearn i (by omega)).replies, if_neg Bool.false_ne_true]
      exact fun x hx => absurd hx List.not_mem_nil

end OnePaxos

theorem logged (hl : cfg.level = .node) (hmax : cfg.clients.length ≤ MAX_NUM_CLIENTS)
    (ready ack : ClientTable) (C : WaitingClient cfg) (alg : Algorithm)
    {s : Net (cluster (initReplica cfg ready ack alg) C.toClientProc)} (h : s.Reachable) :
    Logged alg s := by
  cases alg with
  | onePaxos => exact paxos_logged hl hmax h
  | tpc =>
    have hone : TwoPhase.Commit.OneOpen ready ack C.toClientProc := fun s h cid core hcid =>
      TwoPhase.Commit.requested_length_le C (.inl hl) hmax h hcid
    exact tpc_logged hone hl hmax h
  | broad => exact broadcast_logged hl h
  | chain => exact chain_logged hl h
  | raft => exact raft_logged h

end Algorithms

section Runs

variable {R : ReplicaProc} {C : ClientProc cfg} {s s' : Net (cluster R C)} {alg : Algorithm}
  {as : List (Action (cluster R C))}

theorem serviceState_initial :
    serviceState alg (Net.initial (cluster R C)) = State.empty := by
  have hnone : due alg [] = [] := List.eq_nil_iff_forall_not_mem.mpr fun c hc =>
    absurd (due_subset alg [] hc) List.not_mem_nil
  have hlog : logOf alg (Net.initial (cluster R C)) = [] := by
    cases alg with
    | tpc => rfl
    | onePaxos => exact hnone
    | broad => rfl
    | chain => rfl
    | raft => rfl
  unfold serviceState
  rw [hlog]
  congr 1
  · funext p
    rcases p with i | core
    · rfl
    · exact hnone
  · funext p
    rcases p with i | core <;> rfl

/-- A run of the group is a run of the atomic log in which the clients see the same. -/
theorem run_simulated (hlog : ∀ t : Net (cluster R C), t.Reachable → Logged alg t)
    (h : s.Reachable) (hrun : s.run as = some s') :
    ∃ bs, Foundation.Machine.run (next (logService cfg)) (serviceState alg s) bs =
        some (serviceState alg s') ∧
      history (logService cfg) (serviceState alg s) bs = clientHistory alg s as := by
  induction as generalizing s with
  | nil =>
    obtain rfl := Option.some.inj hrun
    exact ⟨[], rfl, rfl⟩
  | cons a as ih =>
    obtain ⟨t, ha, hrest⟩ := Option.bind_eq_some_iff.mp hrun
    have ht : t.Reachable := h.step ha
    obtain ⟨bs, hbs, hseen⟩ := step_simulated h ha (hlog t ht)
    obtain ⟨cs, hcs, hlater⟩ := ih ht hrest
    refine ⟨bs ++ cs, ?_, ?_⟩
    · rw [Foundation.Machine.run_append, hbs]
      exact hcs
    · rw [history_append hbs, hseen, hlater, clientHistory, ha]

end Runs

/-- In every run of every algorithm, what the clients see is linearizable, in the order of one
log, and every replica has executed a prefix of that log. -/
theorem linearizable (cfg : Config) (hl : cfg.level = .node)
    (hfits : cfg.Fits) (ready ack : ClientTable)
    (C : WaitingClient cfg) (alg : Algorithm)
    (as : List (Action (cluster (initReplica cfg ready ack alg) C.toClientProc)))
    (s : Net (cluster (initReplica cfg ready ack alg) C.toClientProc))
    (hrun : (Net.initial _).run as = some s) :
    Linearizes (logService cfg) (logOf alg s) (clientHistory alg (Net.initial _) as) ∧
      ∀ i, i < cfg.numReplicas → executed (s.trace (.replica i)) <+: logOf alg s := by
  have hlog : ∀ t : Net (cluster (initReplica cfg ready ack alg) C.toClientProc),
      t.Reachable → Logged alg t := fun t ht => logged hl hfits.clients ready ack C alg ht
  refine ⟨?_, (hlog s (Net.Reachable.init.run hrun)).executed⟩
  obtain ⟨bs, hbs, hseen⟩ := run_simulated hlog Net.Reachable.init hrun
  rw [serviceState_initial] at hbs hseen
  rw [← hseen]
  exact linearizes hbs

/-- The operations of two clients overlap, and the later invocation comes first in the log. -/
theorem linearizable_run :
    ∃ s : Net (cluster (initReplica .threeNodes unset unset .tpc)
        (anyWaitingClient .threeNodes).toClientProc),
      logOf .tpc s = [⟨1, 0, ⟨8, 8, 8⟩⟩, ⟨0, 0, ⟨7, 7, 7⟩⟩] ∧
      clientHistory .tpc (Net.initial _) twoRequests =
        [.invoke ⟨0, 0, ⟨7, 7, 7⟩⟩, .invoke ⟨1, 0, ⟨8, 8, 8⟩⟩, .reply (.client 11) (1, 0),
          .reply (.client 10) (0, 0)] ∧
      Linearizes (logService .threeNodes) (logOf .tpc s)
        (clientHistory .tpc (Net.initial _) twoRequests) :=
  ⟨((Net.initial _).run twoRequests).get rfl, by decide, by decide,
    (linearizable .threeNodes rfl ⟨by decide, by decide⟩ unset unset _ .tpc twoRequests _ rfl).1⟩

end SmeltConsensus.Bench.Linearizable
