import SmeltConsensus.Bench.Routing
import SmeltConsensus.OnePaxos.Backlog

/-!
What the clients have got once no replica can take another message. A replica that waits
for a message waits for one that is on its way or for a client, so every request that was
sent has been answered by then.
-/

set_option autoImplicit false
set_option relaxedAutoImplicit false

namespace SmeltConsensus.Bench.Answers

open SmeltConsensus.Foundation.Network
open SmeltConsensus.Foundation.LastSeen
open SmeltConsensus.Message.Header
open SmeltConsensus.Cluster.Parties
open SmeltConsensus.Cluster.Algorithms
open SmeltConsensus.OnePaxos.Execute (admitted)
open SmeltConsensus.Bench.Client (recvReplica)
open SmeltConsensus.Bench.Routing

variable {cfg : Config}

/-- No replica can take a message. -/
def Halted {R : ReplicaProc} {C : ClientProc cfg} (s : Net (cluster R C)) : Prop :=
  ∀ src i, s.step (.deliver src (.replica i)) = none

/-- The commands that an algorithm answers: 1Paxos answers no repetition. -/
def due (alg : Algorithm) (cs : List Command) : List Command :=
  match alg with
  | .onePaxos => admitted cs
  | _ => cs

/-- Every client has been sent the answers to the requests it sent, in their order. -/
def Answered (recv : Nat) (alg : Algorithm) {R : ReplicaProc} {C : ClientProc cfg}
    (s : Net (cluster R C)) : Prop :=
  ∀ core ∈ cfg.clients, idsSent recv core s =
    (due alg ((requestsSent (s.trace (.client core))).map SmltMsg.command)).map idsOf

theorem ofClient_due (alg : Algorithm) (cid : Nat) (cs : List Command) :
    ofClient cid (due alg cs) = due alg (ofClient cid cs) := by
  cases alg with
  | onePaxos => exact filter_select cid rfl cs
  | tpc => rfl
  | broad => rfl
  | chain => rfl
  | raft => rfl

section Halt

variable {R : ReplicaProc} {C : ClientProc cfg} {s : Net (cluster R C)}

/-- A channel that its replica polls is empty. -/
theorem Halted.empty (h : Halted s) {src : Party} {i : Nat}
    (hp : R.polls (s.loc (.replica i)) src = true) : s.inFlight src (.replica i) = [] := by
  by_contra hne
  obtain ⟨m, rest, hq⟩ := List.exists_cons_of_ne_nil hne
  have hstep := Net.step_deliver (S := cluster R C) (p := src) (q := .replica i) hp hq rfl
  rw [h src i] at hstep
  cases hstep

/-- With its channel empty, all that a client requested is at the leader. -/
theorem requestsSent_taken (h : s.Reachable) {core : Nat}
    (hempty : s.inFlight (.client core) (.replica 0) = []) :
    requestsSent (s.trace (.client core)) =
      ((requests (s.trace (.replica 0))).filter (·.1 = .client core)).map Prod.snd := by
  rw [requestsSent_eq h, hempty, List.filter_nil, List.append_nil]

/-- A replica that answers commands, each to its client, sends one client the ids of its own. -/
theorem idsSent_of_commands {recv : Nat} {cs : List Command}
    (hresp : (responses (s.trace (.replica recv))).map (fun x => (x.1, ids x.2)) =
      cs.map fun c => (cfg.clientAt c.clientId, idsOf c))
    (hcs : ∀ c ∈ cs, c.clientId < cfg.clients.length) {cid core : Nat}
    (hcid : cfg.clients[cid]? = some core) :
    idsSent recv core s = (ofClient cid cs).map idsOf := by
  have hsent := congrArg (fun xs => (xs.filter (·.1 = .client core)).map Prod.snd) hresp
  rw [List.filter_map, List.filter_map, List.map_map, List.map_map] at hsent
  have hfilter : cs.filter ((fun x : Party × Nat × Nat => decide (x.1 = .client core)) ∘
      fun c => (cfg.clientAt c.clientId, idsOf c)) = ofClient cid cs := by
    apply List.filter_congr
    intro c hc
    exact decide_eq_decide.mpr (cfg.clientAt_eq_client_iff (hcs c hc) hcid)
  rw [hfilter] at hsent
  exact hsent

/-- A group that has nothing left of its clients' requests to take, and where one replica
has answered each client what it asked. -/
theorem answered_of (h : s.Reachable) {recv : Nat} {alg : Algorithm}
    (hown : OwnRequests cfg (s.trace (.replica 0)))
    (hempty : ∀ core ∈ cfg.clients, s.inFlight (.client core) (.replica 0) = [])
    (cs : List Command)
    (hresp : (responses (s.trace (.replica recv))).map (fun x => (x.1, ids x.2)) =
      cs.map fun c => (cfg.clientAt c.clientId, idsOf c))
    (hcs : ∀ c ∈ cs, c.clientId < cfg.clients.length)
    (hall : ∀ cid, cid < cfg.clients.length →
      ofClient cid cs = ofClient cid (due alg (requested (s.trace (.replica 0))))) :
    Answered recv alg s := by
  intro core hcore
  obtain ⟨cid, hcid⟩ := List.mem_iff_getElem?.mp hcore
  have hlt := (List.getElem?_eq_some_iff.mp hcid).1
  rw [idsSent_of_commands hresp hcs hcid, hall cid hlt, ofClient_due, hown.ofClient_requested hcid,
    requestsSent_taken h (hempty core hcore), List.map_map]
  rfl

theorem OwnRequests.lt {t : List Ev} (hown : OwnRequests cfg t) :
    ∀ c ∈ requested t, c.clientId < cfg.clients.length := by
  intro c hc
  obtain ⟨x, hx, rfl⟩ := List.mem_map.mp hc
  obtain ⟨core, -, hcid⟩ := hown x hx
  exact (List.getElem?_eq_some_iff.mp hcid).1

/-- Responses that are made one from each request. -/
theorem pairs_of_requests {t : List Ev} (hown : OwnRequests cfg t)
    {ys : List (Party × SmltMsg)} {f : Party × SmltMsg → Party × SmltMsg}
    (hys : ys = (requests t).map f) (hdst : ∀ x, (f x).1 = x.1)
    (hids : ∀ x, ids (f x).2 = ids x.2) :
    ys.map (fun x => (x.1, ids x.2)) =
      (requested t).map fun c => (cfg.clientAt c.clientId, idsOf c) := by
  rw [hys, requested, List.map_map, List.map_map]
  apply List.map_congr_left
  intro x hx
  obtain ⟨core, hsrc, hcid⟩ := hown x hx
  have hclient : cfg.clientAt x.2.command.clientId = x.1 := by
    rw [hsrc]
    exact cfg.clientAt_of_getElem? hcid
  rw [Function.comp_apply, Function.comp_apply, hdst, hids, hclient, ids_eq]

theorem ids_withTag (msg : SmltMsg) (tag : Nat) : ids (msg.withTag tag) = ids msg := by
  rw [ids, SmltMsg.clientId_withTag, SmltMsg.requestId_withTag]
  rfl

end Halt

section Broadcast

open SmeltConsensus.Broadcast.Replica
open SmeltConsensus.Broadcast.Replication

variable {C : ClientProc cfg}

theorem broadcast_loc {s : Net (cluster (broadcastReplica cfg) C)} (h : s.Reachable) (i : Nat) :
    s.loc (.replica i) = initReplicaBroadcast cfg i :=
  replica_induction (R := broadcastReplica cfg) i
    (fun (l : ReplicaT) _ => l = initReplicaBroadcast cfg i) rfl
    (fun _ _ _ _ _ _ _ hI _ _ => hI) h

/-- The leader answers what it executes, each command to its client. -/
theorem broadcast_pairs (hl : cfg.level = .node) {s : Net (cluster (broadcastReplica cfg) C)}
    (h : s.Reachable) : (responses (s.trace (.replica 0))).map (fun x => (x.1, ids x.2)) =
      (executed (s.trace (.replica 0))).map fun c => (cfg.clientAt c.clientId, idsOf c) := by
  obtain ⟨hlead, -, -⟩ := histories (.inl hl) h
  have hinputs := inputs_from_clients h
  have hown := ownRequests_of h fun x hx => hinputs x (List.mem_filter.mp hx).1
  rw [hlead.executed_eq]
  refine pairs_of_requests hown (f := fun x => (x.1, x.2.withTag BROAD_COMMIT)) ?_ (fun _ => rfl)
    fun x => ids_withTag x.2 _
  rw [responses, hlead.service, filterMap_sendOf_flatMap]

theorem broadcast_answered (hl : cfg.level = .node) {s : Net (cluster (broadcastReplica cfg) C)}
    (h : s.Reachable) (hhalt : Halted s) : Answered 0 .broad s := by
  obtain ⟨hlead, -, -⟩ := histories (.inl hl) h
  have hinputs := inputs_from_clients h
  have hown := ownRequests_of h fun x hx => hinputs x (List.mem_filter.mp hx).1
  have hexec : executed (s.trace (.replica 0)) = requested (s.trace (.replica 0)) :=
    hlead.executed_eq
  refine answered_of h hown ?_ _ (broadcast_pairs hl h) ?_ fun cid _ => by rw [hexec]; rfl
  · intro core hcore
    apply hhalt.empty
    rw [broadcast_loc h]
    exact decide_eq_true hcore
  · rw [hexec]
    exact OwnRequests.lt hown

end Broadcast

section Chain

open SmeltConsensus.Chain.Replica
open SmeltConsensus.Chain.Order

variable {C : ClientProc cfg}

theorem chain_loc {s : Net (cluster (chainReplica cfg) C)} (h : s.Reachable) (i : Nat) :
    s.loc (.replica i) = initReplicaChain cfg i :=
  replica_induction (R := chainReplica cfg) i
    (fun (l : ReplicaT) _ => l = initReplicaChain cfg i) rfl
    (fun _ _ _ _ _ _ _ hI _ _ => hI) h

/-- With no message between neighbours, the whole chain has executed the same. -/
theorem chain_executed (hl : cfg.level = .node) {s : Net (cluster (chainReplica cfg) C)}
    (h : s.Reachable) (hhalt : Halted s) {i : Nat} (hi : i < cfg.numReplicas) :
    executed (s.trace (.replica i)) = executed (s.trace (.replica 0)) := by
  have hmax := cfg.numReplicas_lt
  induction i with
  | zero => rfl
  | succ i ih =>
    have hempty : s.inFlight (.replica i) (.replica (i + 1)) = [] := by
      apply hhalt.empty
      rw [chain_loc h]
      have hleft : (i + 1 + 255) % 256 = i := by omega
      simp [chainReplica, polls, initReplicaChain, hleft]
    rw [← ih (Nat.lt_of_succ_lt hi), executed_in_flight hl h hi, hempty, List.map_nil,
      List.append_nil]

/-- The tail answers what it executes, each command to its client. -/
theorem chain_pairs (hl : cfg.level = .node) {s : Net (cluster (chainReplica cfg) C)}
    (h : s.Reachable) :
    (responses (s.trace (.replica (cfg.numReplicas - 1)))).map (fun x => (x.1, ids x.2)) =
      (executed (s.trace (.replica (cfg.numReplicas - 1)))).map
        fun c => (cfg.clientAt c.clientId, idsOf c) := by
  have hn := cfg.two_le_numReplicas
  obtain ⟨hhead, -, -, -⟩ := histories hl h
  have hinputs := inputs_from_clients h
  have hown := ownRequests_of h fun x hx => hinputs x (List.mem_filter.mp hx).1
  have hprefix := prefix_executed hl h (Nat.zero_le (cfg.numReplicas - 1)) (by omega)
  rw [hhead.executed_eq] at hprefix
  have htake := List.prefix_iff_eq_take.mp hprefix
  have hpairs := pairs_of_requests hown (f := fun x => (x.1, x.2.withTag RESP_TAG)) rfl
    (fun _ => rfl) fun x => ids_withTag x.2 _
  rw [tail_responses hl h]
  conv_rhs => rw [htake]
  rw [List.map_take, List.map_take, List.map_take, hpairs]
  rfl

theorem chain_answered (hl : cfg.level = .node) {s : Net (cluster (chainReplica cfg) C)}
    (h : s.Reachable) (hhalt : Halted s) : Answered (cfg.numReplicas - 1) .chain s := by
  have hn := cfg.two_le_numReplicas
  obtain ⟨hhead, -, -, -⟩ := histories hl h
  have hinputs := inputs_from_clients h
  have hown := ownRequests_of h fun x hx => hinputs x (List.mem_filter.mp hx).1
  have hexec : executed (s.trace (.replica (cfg.numReplicas - 1))) =
      requested (s.trace (.replica 0)) :=
    (chain_executed hl h hhalt (by omega)).trans hhead.executed_eq
  refine answered_of h hown ?_ _ (chain_pairs hl h) ?_ fun cid _ => by rw [hexec]; rfl
  · intro core hcore
    apply hhalt.empty
    rw [chain_loc h]
    exact decide_eq_true hcore
  · rw [hexec]
    exact OwnRequests.lt hown

end Chain

section TwoPhase

open SmeltConsensus.TwoPhase.Replica
open SmeltConsensus.TwoPhase.Commit

variable {C : ClientProc cfg} {ready ack : ClientTable}

theorem tpc_id {s : Net (cluster (tpcReplica cfg ready ack) C)} (h : s.Reachable) (i : Nat) :
    TpcReplicaT.id (s.loc (.replica i)) = i :=
  replica_induction (R := tpcReplica cfg ready ack) i
    (fun (l : TpcReplicaT) _ => l.id = i) rfl
    (fun _ _ l _ msg _ _ hI _ _ => (messageHandlerTpc_frame cfg l msg).1.trans hI) h

/-- The leader answers what it executes, each command to its client. -/
theorem tpc_pairs (hl : cfg.level = .node) (hmax : cfg.clients.length ≤ MAX_NUM_CLIENTS)
    {s : Net (cluster (tpcReplica cfg ready ack) C)} (h : s.Reachable) :
    (responses (s.trace (.replica 0))).map (fun x => (x.1, ids x.2)) =
      (executed (s.trace (.replica 0))).map fun c => (cfg.clientAt c.clientId, idsOf c) := by
  obtain ⟨hlead, -, -⟩ := histories (.inl hl) hmax h
  rw [responses, hlead.service, filterMap_sendOf_flatMap, hlead.executed_eq, List.map_map,
    List.map_map]
  apply List.map_congr_left
  intro m _
  rw [Function.comp_apply, Function.comp_apply, ids_withTag]
  rfl

theorem tpc_own (hl : cfg.level = .node) (hmax : cfg.clients.length ≤ MAX_NUM_CLIENTS)
    {s : Net (cluster (tpcReplica cfg ready ack) C)} (h : s.Reachable) :
    ∀ c ∈ executed (s.trace (.replica 0)), c.clientId < cfg.clients.length := by
  obtain ⟨hlead, -, hchan⟩ := histories (.inl hl) hmax h
  rw [hlead.executed_eq]
  intro c hc
  obtain ⟨m, hm, rfl⟩ := List.mem_map.mp hc
  exact (hchan (.replica 0) (.replica 1) m (List.mem_filter.mp hm).1).2

theorem tpc_answered (hone : OneOpen ready ack C) (hl : cfg.level = .node)
    (hmax : cfg.clients.length ≤ MAX_NUM_CLIENTS)
    {s : Net (cluster (tpcReplica cfg ready ack) C)} (h : s.Reachable) (hhalt : Halted s) :
    Answered 0 .tpc s := by
  obtain ⟨hlead, -, -⟩ := histories (.inl hl) hmax h
  have hempty : ∀ src i, polls cfg (s.loc (.replica i)) src = true →
      s.inFlight src (.replica i) = [] := fun src i hp => hhalt.empty hp
  have hpart : ∀ i, 1 ≤ i → i < cfg.numReplicas →
      readies (s.trace (.replica 0)) i = requested (s.trace (.replica 0)) := by
    intro i h1 hi
    apply readies_of_empty (.inl hl) hmax h h1 hi
    · apply hempty
      unfold polls
      rw [tpc_id h, if_neg (Nat.ne_of_gt h1)]
      exact decide_eq_true rfl
    · apply hempty
      unfold polls
      rw [tpc_id h, if_pos rfl]
      exact decide_eq_true ⟨h1, hi⟩
  refine answered_of h hlead.ownRequests ?_ (executed (s.trace (.replica 0)))
    (tpc_pairs hl hmax h) (tpc_own hl hmax h) ?_
  · intro core hcore
    apply hempty
    unfold polls
    rw [tpc_id h, if_pos rfl]
    exact decide_eq_true hcore
  · intro cid hcid
    obtain ⟨table, hvote⟩ := voting hone (.inl hl) hmax h (hcid.trans_le hmax)
    exact hvote.executed_eq hpart

end TwoPhase

section Raft

open SmeltConsensus.Raft.Replica
open SmeltConsensus.Raft.CommitIndex
open SmeltConsensus.Raft.Follower
open SmeltConsensus.Raft.Leader
open SmeltConsensus.Raft.History
open SmeltConsensus.Raft.Safety

variable {C : ClientProc cfg}

/-- The leader does not wait for a follower. -/
theorem raft_idle {s : Net (cluster (raftReplica cfg) C)} (h : s.Reachable) (hhalt : Halted s)
    {w : Nat} (hw : LeaderHistory cfg w (s.loc (.replica 0)) (s.trace (.replica 0))) :
    w = cfg.numReplicas := by
  have hstate := hw.state
  refine Nat.le_antisymm hstate.le (Nat.le_of_not_lt fun hlt => ?_)
  obtain ⟨i, rfl⟩ := Nat.exists_eq_add_of_le' hstate.pos
  have hfollower : FollowerHistory (i + 1) (s.loc (.replica (i + 1)))
      (s.trace (.replica (i + 1))) := histories h (i + 1)
  have hempty : ∀ src j, polls cfg (s.loc (.replica j)) src = true →
      s.inFlight src (.replica j) = [] := fun src j hp => hhalt.empty hp
  -- the follower has answered all appends, and the leader has all its answers
  have hto : s.inFlight (.replica 0) (.replica (i + 1)) = [] := by
    apply hempty
    simp [polls, hfollower.state.alive, hfollower.state.waits, hfollower.state.id,
      hfollower.state.leader]
  have hfrom : s.inFlight (.replica (i + 1)) (.replica 0) = [] := by
    apply hempty
    simp [polls, hstate.alive, hstate.waits, hlt]
  have hreplies := hw.replies (i + 1) hstate.pos hlt
  rw [if_neg (Nat.lt_irrefl _), h.received_eq_sent hfrom, hfollower.sentTo_leader,
    List.length_mapIdx, h.received_eq_sent hto, hw.appends (i + 1) hstate.pos hlt,
    List.length_mapIdx] at hreplies
  have hnil : requests (s.trace (.replica 0)) = [] := List.eq_nil_of_length_eq_zero (by omega)
  exact Nat.ne_of_lt hlt (hstate.idle_of_nil (by rw [requested, hnil, List.map_nil]))

/-- The leader answers what it executes, each command to its client. -/
theorem raft_pairs {s : Net (cluster (raftReplica cfg) C)} (h : s.Reachable) :
    (responses (s.trace (.replica 0))).map (fun x => (x.1, ids x.2)) =
      (executed (s.trace (.replica 0))).map fun c => (cfg.clientAt c.clientId, idsOf c) := by
  obtain ⟨w, hw⟩ : ∃ w, LeaderHistory cfg w (s.loc (.replica 0)) (s.trace (.replica 0)) :=
    histories h 0
  rw [leader_executed_eq h hw, responses, service_eq_answered h hw, filterMap_sendOf_flatMap,
    answered, requested, ← List.map_take, List.map_map, List.map_map]
  apply List.ext_getElem
  · simp
  · intro k hk hk'
    simp only [List.getElem_map, List.getElem_mapIdx, Function.comp_apply, ids, clientId_response,
      requestId_response]
    rfl

theorem raft_answered {s : Net (cluster (raftReplica cfg) C)} (h : s.Reachable)
    (hhalt : Halted s) : Answered 0 .raft s := by
  obtain ⟨w, hw⟩ : ∃ w, LeaderHistory cfg w (s.loc (.replica 0)) (s.trace (.replica 0)) :=
    histories h 0
  have hidle := raft_idle h hhalt hw
  have hstate := hw.state
  have hexec : executed (s.trace (.replica 0)) = requested (s.trace (.replica 0)) := by
    rw [leader_executed_eq h hw, hstate.lastApplied, hidle, committed_idle, List.take_length]
  refine answered_of h hw.ownRequests ?_ _ (raft_pairs h) ?_ fun cid _ => by rw [hexec]; rfl
  · intro core hcore
    apply hhalt.empty
    show polls cfg (s.loc (.replica 0)) (.client core) = true
    simp [polls, hstate.alive, hstate.waits, hidle, hstate.id, hcore]
  · rw [hexec]
    exact OwnRequests.lt hw.ownRequests

end Raft

section OnePaxos

open SmeltConsensus.OnePaxos.Replica
open SmeltConsensus.OnePaxos.Execute
open SmeltConsensus.OnePaxos.Learn
open SmeltConsensus.OnePaxos.Backlog

variable {C : ClientProc cfg}

theorem answering (hl : cfg.level = .node) : Answering cfg false := .inl hl

/-- A learn message at the leader: what it executes, it answers. -/
theorem learn_answered (hl : cfg.level = .node) {l : OnepaxosReplicaT} {cs : List Command}
    {k m : Nat} (h : Proposing l k m) (hlt : m < k) (hsteady : Steady cfg 0 l cs) {msg : SmltMsg}
    (ht : msg.tag = ONE_LEARN) (hcid : msg.clientId < cfg.clients.length) (hindex : msg.data1 = m) :
    ∃ success : Bool, (messageHandlerLoop cfg false l msg).2 = if success then
      [.exec msg.command, .send (cfg.clientAt msg.clientId) (msg.withTag RESP_TAG)] else [] := by
  obtain ⟨success, table, hexec⟩ := execute_frame (unvoted l) msg
  obtain ⟨l', -, hlevel, -, hout⟩ := h.learn cfg false hlt hsteady.id hsteady.leader hindex
  have hreply := reply_eq (answering hl) (hlevel.trans hsteady.level) hcid
  rw [if_pos rfl] at hreply
  refine ⟨success, ?_⟩
  rw [messageHandlerLoop_learn false hsteady.id ht, hout, hexec, hreply]
  cases success <;> rfl

/-- The leader has as many responses as executions. -/
theorem paxos_responses (hl : cfg.level = .node) (hmax : cfg.clients.length ≤ MAX_NUM_CLIENTS)
    {s : Net (cluster (onepaxosReplica cfg false) C)} (h : s.Reachable) :
    (responses (s.trace (.replica 0))).length = (executed (s.trace (.replica 0))).length := by
  refine h.party_induction (.replica 0) (fun _ (t : List Ev) =>
    (responses t).length = (executed t).length) rfl ?_ ?_
  · intro s s' src msg hr hr' hI hp ht
    obtain ⟨hlead, -, -, -⟩ := parties (.inl hl) hmax hr
    obtain ⟨-, -, -, hchan⟩ := parties (.inl hl) hmax hr'
    have hprop : Proposing (s.loc (.replica 0)) _ _ := proposing hmax hr
    have hsent : msg ∈ sentTo (.replica 0) (s'.trace src) := by
      apply (hr'.receivedFrom_prefix src (.replica 0)).subset
      rw [ht, receivedFrom_step]
      exact List.mem_concat_self
    have ht : s'.trace (.replica 0) = s.trace (.replica 0) ++ .recv src msg ::
      ((onepaxosReplica cfg false).handle (s.loc (.replica 0)) msg).2.map .out := ht
    rcases src with (_ | _ | j) | core
    · have hp : polls cfg (s.loc (.replica 0)) (.replica 0) = true := hp
      simp [polls, hprop.alive, hlead.steady.id] at hp
    · have htag : msg.tag = ONE_LEARN := (hchan _ _ msg hsent).2.1
      have hmsg : msg.tag = 6 := htag
      have hle := learned_le_requests hmax hr'
      have hreq : requests (s'.trace (.replica 0)) = requests (s.trace (.replica 0)) := by
        rw [ht]
        simp [hmsg]
      rw [hreq, ht, receivedFrom_step, List.length_append, List.length_singleton] at hle
      obtain ⟨success, heq⟩ := learn_answered hl hprop (by omega) hlead.steady htag
        (hchan _ _ msg hsent).2.2 (next_learn hmax hr' ht)
      have heq : ((onepaxosReplica cfg false).handle (s.loc (.replica 0)) msg).2 = _ := heq
      rw [ht, heq]
      cases success with
      | false => simpa [responses] using hI
      | true => simpa [responses] using hI
    · exact (hchan _ _ msg hsent).elim
    · rcases hchan _ _ msg hsent with ⟨htag, -⟩ | ⟨htag, -⟩
      · obtain ⟨l', -, heq⟩ := hprop.request false (learned_le_requests hmax hr) hlead.steady.id
          hlead.steady.leader hlead.steady.acceptor htag
        have heq : (onepaxosReplica cfg false).handle (s.loc (.replica 0)) msg = _ := heq
        rw [ht, heq]
        simpa [responses] using hI
      · have hmsg : msg.tag = 0 := htag
        have heq : (onepaxosReplica cfg false).handle (s.loc (.replica 0)) msg = _ :=
          messageHandlerLoop_setup false hlead.steady.id htag
        rw [ht, heq]
        simpa [responses, handleSetup, hmsg] using hI
  · intro s s' x r _ _ _ hx
    cases hx

/-- The leader has learned all that it was requested. -/
theorem paxos_learned (hl : cfg.level = .node) (hmax : cfg.clients.length ≤ MAX_NUM_CLIENTS)
    {s : Net (cluster (onepaxosReplica cfg false) C)} (h : s.Reachable) (hhalt : Halted s) :
    (receivedFrom (.replica 1) (s.trace (.replica 0))).map SmltMsg.command =
      requested (s.trace (.replica 0)) := by
  have h2 := cfg.two_le_numReplicas
  obtain ⟨hlead, hacc, -, -⟩ := parties (.inl hl) hmax h
  have hprop : Proposing (s.loc (.replica 0)) _ _ := proposing hmax h
  have hto : s.inFlight (.replica 0) (.replica 1) = [] := by
    apply hhalt.empty
    show polls cfg (s.loc (.replica 1)) (.replica 0) = true
    simp [polls, hacc.alive, hacc.steady.id, hacc.steady.leader]
  have hfrom : s.inFlight (.replica 1) (.replica 0) = [] := by
    apply hhalt.empty
    show polls cfg (s.loc (.replica 0)) (.replica 1) = true
    simp [polls, hprop.alive, hlead.steady.id]
    omega
  rw [h.received_eq_sent hfrom, hacc.history.learns 0 Nat.zero_ne_one (by omega),
    commands_mapIdx_learnMsg, h.received_eq_sent hto, hlead.proposals hprop.alive, requested,
    List.map_map]
  exact List.map_congr_left fun x _ => SmltMsg.command_withTag x.2 _

/-- The leader answers what it executes, each command to its client. -/
theorem paxos_pairs (hl : cfg.level = .node) (hmax : cfg.clients.length ≤ MAX_NUM_CLIENTS)
    {s : Net (cluster (onepaxosReplica cfg false) C)} (h : s.Reachable) :
    (responses (s.trace (.replica 0))).map (fun x => (x.1, ids x.2)) =
      (executed (s.trace (.replica 0))).map fun c => (cfg.clientAt c.clientId, idsOf c) := by
  obtain ⟨hlead, -, -, -⟩ := parties (.inl hl) hmax h
  have hresp := hlead.history.responses
  rw [if_neg Bool.false_ne_true] at hresp
  have hall : (responses (s.trace (.replica 0))).map (fun x => (x.1, x.2.command)) =
      (executed (s.trace (.replica 0))).map fun c => (cfg.clientAt c.clientId, c) := by
    apply hresp.eq_of_length
    rw [List.length_map, List.length_map, paxos_responses hl hmax h]
  have hids := congrArg (List.map fun x : Party × Command => (x.1, idsOf x.2)) hall
  rw [List.map_map, List.map_map] at hids
  exact hids

theorem paxos_answered (hl : cfg.level = .node) (hmax : cfg.clients.length ≤ MAX_NUM_CLIENTS)
    {s : Net (cluster (onepaxosReplica cfg false) C)} (h : s.Reachable) (hhalt : Halted s) :
    Answered 0 .onePaxos s := by
  obtain ⟨hlead, -, -, -⟩ := parties (.inl hl) hmax h
  have hprop : Proposing (s.loc (.replica 0)) _ _ := proposing hmax h
  have hexec := hlead.history.executed_eq
  rw [paxos_learned hl hmax h hhalt] at hexec
  have hown := hlead.history.ownRequests
  refine answered_of h hown ?_ (executed (s.trace (.replica 0))) (paxos_pairs hl hmax h) ?_ ?_
  · intro core hcore
    apply hhalt.empty
    show polls cfg (s.loc (.replica 0)) (.client core) = true
    simp [polls, hprop.alive, hlead.steady.id, hcore]
  · rw [hexec]
    exact fun c hc => OwnRequests.lt hown c ((select_sublist _ _).subset hc)
  · intro cid _
    rw [hexec]
    rfl

end OnePaxos

theorem halted_of_quiescent {R : ReplicaProc} {C : ClientProc cfg} {s : Net (cluster R C)}
    (hq : s.Quiescent) : Halted s := by
  intro src i
  rw [Net.step]
  split
  case isTrue => rw [hq src (.replica i)]
  case isFalse => rfl

/-- Counters that start with garbage. -/
def unset : ClientTable := Vector.replicate 64 5

/-- The requests of two clients go through the two phases together, and the replica 0 takes and
answers the later one first. -/
def twoRequests : List (Action (cluster (initReplica .threeNodes unset unset .tpc)
    (anyWaitingClient .threeNodes).toClientProc)) :=
  let zero : SmltMsg := ⟨0, 0, 0, 0, 0, 0, 0⟩
  [.stimulate (.client 10) (zero.stamp 0 0 0 ⟨7, 7, 7⟩),
    .stimulate (.client 11) (zero.stamp 1 0 0 ⟨8, 8, 8⟩),
    .deliver (.client 11) (.replica 0), .deliver (.client 10) (.replica 0),
    .deliver (.replica 0) (.replica 1), .deliver (.replica 0) (.replica 1),
    .deliver (.replica 0) (.replica 2), .deliver (.replica 0) (.replica 2),
    .deliver (.replica 1) (.replica 0), .deliver (.replica 2) (.replica 0),
    .deliver (.replica 0) (.client 11),
    .deliver (.replica 1) (.replica 0), .deliver (.replica 2) (.replica 0),
    .deliver (.replica 0) (.replica 1), .deliver (.replica 0) (.replica 1),
    .deliver (.replica 0) (.replica 2), .deliver (.replica 0) (.replica 2),
    .deliver (.replica 0) (.client 10)]

theorem twoRequests_quiescent : (((Net.initial _).run twoRequests).get rfl).Quiescent :=
  Net.quiescent_of_run twoRequests rfl (by decide)

end SmeltConsensus.Bench.Answers
