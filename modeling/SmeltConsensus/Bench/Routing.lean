import SmeltConsensus.Bench.Client
import SmeltConsensus.Broadcast.Replication
import SmeltConsensus.Chain.Order
import SmeltConsensus.OnePaxos.Learn
import SmeltConsensus.Raft.Safety
import SmeltConsensus.TwoPhase.Commit

/-!
Which replica answers which client with which ids.

The client id of a response comes from the header of a request, through whatever
buffers and logs the algorithm keeps it in. In every algorithm the responses are
made from the requests that the leader took, so it is enough to pair them up.
-/

set_option autoImplicit false
set_option relaxedAutoImplicit false

namespace SmeltConsensus.Bench.Routing

open SmeltConsensus.Foundation.LastSeen
open SmeltConsensus.Foundation.Network
open SmeltConsensus.Message.Header
open SmeltConsensus.Cluster.Parties
open SmeltConsensus.Cluster.Algorithms
open SmeltConsensus.Bench.Client
open SmeltConsensus.Chain.Replica (chainReplica)
open SmeltConsensus.KeyValue.Client (ClientT receive)

variable {cfg : Config}

/-- The client id and the request id in a header. -/
def ids (msg : SmltMsg) : Nat × Nat := (msg.clientId, msg.requestId)

/-- The ids that a command takes from its header. -/
def idsOf (c : Command) : Nat × Nat := (c.clientId, c.requestId)

theorem ids_eq (msg : SmltMsg) : ids msg = idsOf msg.command := rfl

/-- The ids of the responses that replica `i` sent to a client, in order. -/
def idsSent (i core : Nat) {R : ReplicaProc} {C : ClientProc cfg} (s : Net (cluster R C)) :
    List (Nat × Nat) :=
  ((responses (s.trace (.replica i))).filter (·.1 = .client core)).map fun x => ids x.2

/-- Responses and requests of a group whose clients receive from replica `recv`. -/
structure Routed (recv : Nat) (alg : Algorithm) {R : ReplicaProc} {C : ClientProc cfg}
    (s : Net (cluster R C)) : Prop where
  /-- Only the replica that the clients receive from answers. -/
  only_recv : ∀ i, i < cfg.numReplicas → i ≠ recv → responses (s.trace (.replica i)) = []
  to_clients : ∀ x ∈ responses (s.trace (.replica recv)), ∃ core ∈ cfg.clients, x.1 = .client core
  /-- The responses to a client carry the ids of requests of its own, in the order of these
  and at most one for each. -/
  own_ids : ∀ core ∈ cfg.clients,
    (idsSent recv core s).Sublist ((requestsSent (s.trace (.client core))).map ids)
  /-- Except in 1Paxos, which answers no repetition, none is left out. -/
  in_order : alg ≠ .onePaxos → ∀ core ∈ cfg.clients,
    idsSent recv core s <+: (requestsSent (s.trace (.client core))).map ids

section Pairs

variable {R : ReplicaProc} {C : ClientProc cfg} {s : Net (cluster R C)}

/-- The requests of a client that the leader took are its first ones. -/
theorem prefix_taken (h : s.Reachable) (core : Nat) :
    ((requests (s.trace (.replica 0))).filter (·.1 = .client core)).map Prod.snd <+:
      requestsSent (s.trace (.client core)) := ⟨_, (requestsSent_eq h core).symm⟩

/-- Responses that are made one from each of the first requests, with its client and ids. -/
theorem prefix_of_pairs (h : s.Reachable) {α : Type} {ys : List α}
    {req resp : α → Party × SmltMsg} {i : Nat}
    (hresp : responses (s.trace (.replica i)) = ys.map resp)
    (hreq : ys.map req <+: requests (s.trace (.replica 0)))
    (hsame : ∀ y ∈ ys, (resp y).1 = (req y).1 ∧ ids (resp y).2 = ids (req y).2) (core : Nat) :
    idsSent i core s <+: (requestsSent (s.trace (.client core))).map ids := by
  have hpairs : idsSent i core s =
      (((ys.map req).filter (·.1 = .client core)).map Prod.snd).map ids := by
    rw [idsSent, hresp, List.filter_map, List.filter_map, List.map_map, List.map_map, List.map_map]
    have hfilter : ys.filter ((fun x : Party × SmltMsg => decide (x.1 = .client core)) ∘ resp) =
        ys.filter ((fun x : Party × SmltMsg => decide (x.1 = .client core)) ∘ req) := by
      apply List.filter_congr
      intro y hy
      simp only [Function.comp_apply, (hsame y hy).1]
    rw [hfilter]
    apply List.map_congr_left
    intro y hy
    exact (hsame y (List.mem_of_mem_filter hy)).2
  rw [hpairs]
  exact (((hreq.filter _).map _).trans (prefix_taken h core)).map _

/-- A group in which one replica answers the first requests. -/
theorem routed_of_pairs (h : s.Reachable) {recv : Nat} {alg : Algorithm} {α : Type}
    (ys : List α) (req resp : α → Party × SmltMsg)
    (honly : ∀ i, i < cfg.numReplicas → i ≠ recv → responses (s.trace (.replica i)) = [])
    (hresp : responses (s.trace (.replica recv)) = ys.map resp)
    (hreq : ys.map req <+: requests (s.trace (.replica 0)))
    (hown : OwnRequests cfg (s.trace (.replica 0)))
    (hsame : ∀ y ∈ ys, (resp y).1 = (req y).1 ∧ ids (resp y).2 = ids (req y).2) :
    Routed recv alg s where
  only_recv := honly
  to_clients x hx := by
    rw [hresp] at hx
    obtain ⟨y, hy, rfl⟩ := List.mem_map.mp hx
    obtain ⟨core, hsrc, hcid⟩ := hown (req y) (hreq.subset (List.mem_map_of_mem hy))
    exact ⟨core, List.mem_of_getElem? hcid, (hsame y hy).1.trans hsrc⟩
  own_ids core _ := (prefix_of_pairs h hresp hreq hsame core).sublist
  in_order _ core _ := prefix_of_pairs h hresp hreq hsame core

/-- The ids of a client's requests at the leader. -/
theorem ids_requested (h : s.Reachable) (hown : OwnRequests cfg (s.trace (.replica 0)))
    {cid core : Nat} (hcid : cfg.clients[cid]? = some core) :
    (ofClient cid (requested (s.trace (.replica 0)))).map idsOf <+:
      (requestsSent (s.trace (.client core))).map ids := by
  rw [hown.ofClient_requested hcid, List.map_map]
  have htaken := (prefix_taken h core).map ids
  rwa [List.map_map] at htaken

/-- The responses to a client are what it is sent beside set-up replies. -/
theorem idsSent_eq_sentTo (i core : Nat) : idsSent i core s =
    ((sentTo (.client core) (s.trace (.replica i))).filter (·.tag ≠ SETUP_TAG)).map ids := by
  rw [sentTo_client_eq_responses, List.map_map]
  rfl

/-- A replica that sends no client anything has no response. -/
theorem responses_of_sentTo_nil {i : Nat}
    (hnone : ∀ core, sentTo (.client core) (s.trace (.replica i)) = []) :
    responses (s.trace (.replica i)) = [] := by
  rw [List.eq_nil_iff_forall_not_mem]
  rintro ⟨dst, msg⟩ hx
  obtain ⟨core, hcore⟩ := mem_responses hx
  obtain rfl : dst = .client core := hcore
  have hsend := (responses_sublist _).subset hx
  have hmem : msg ∈ sentTo (.client core) (s.trace (.replica i)) := by
    rw [sentTo_eq_sends]
    exact List.mem_map.mpr ⟨_, List.mem_filter.mpr ⟨hsend, decide_eq_true rfl⟩, rfl⟩
  rw [hnone core] at hmem
  cases hmem

end Pairs

section Algorithms

variable {C : ClientProc cfg}

section Broadcast

open SmeltConsensus.Broadcast.Replica
open SmeltConsensus.Broadcast.Replication

theorem broadcast_routed (hl : cfg.level = .node) {s : Net (cluster (broadcastReplica cfg) C)}
    (h : s.Reachable) : Routed 0 .broad s := by
  obtain ⟨hlead, hfol, -⟩ := histories (.inl hl) h
  have hinputs := inputs_from_clients h
  apply routed_of_pairs h (requests (s.trace (.replica 0))) id
    fun x => (x.1, x.2.withTag BROAD_COMMIT)
  · intro i _ hi
    apply responses_of_silent (i := 0)
    rw [(hfol i hi).sends]
    exact fun x hx => by cases hx
  · rw [responses, hlead.service, filterMap_sendOf_flatMap]
  · rw [List.map_id]
  · exact ownRequests_of h fun x hx => hinputs x (List.mem_filter.mp hx).1
  · intro x _
    refine ⟨rfl, ?_⟩
    rw [ids, SmltMsg.clientId_withTag, SmltMsg.requestId_withTag]
    rfl

end Broadcast

section Chain

open SmeltConsensus.Chain.Replica
open SmeltConsensus.Chain.Order

theorem chain_routed (hl : cfg.level = .node) {s : Net (cluster (chainReplica cfg) C)}
    (h : s.Reachable) : Routed (cfg.numReplicas - 1) .chain s := by
  obtain ⟨hhead, hmid, -, -⟩ := histories hl h
  have hinputs := inputs_from_clients h
  apply routed_of_pairs h ((requests (s.trace (.replica 0))).take
      (executed (s.trace (.replica (cfg.numReplicas - 1)))).length) id
    fun x => (x.1, x.2.withTag RESP_TAG)
  · intro i hi hne
    rcases Nat.eq_zero_or_pos i with rfl | hpos
    · exact hhead.responses_eq
    · exact (hmid i hpos (by omega)).responses_eq
  · exact tail_responses hl h
  · rw [List.map_id]
    exact List.take_prefix _ _
  · exact ownRequests_of h fun x hx => hinputs x (List.mem_filter.mp hx).1
  · intro x _
    refine ⟨rfl, ?_⟩
    rw [ids, SmltMsg.clientId_withTag, SmltMsg.requestId_withTag]
    rfl

end Chain

section Raft

open SmeltConsensus.Raft.Replica
open SmeltConsensus.Raft.CommitIndex
open SmeltConsensus.Raft.Follower
open SmeltConsensus.Raft.Leader
open SmeltConsensus.Raft.History
open SmeltConsensus.Raft.Safety

theorem raft_routed {s : Net (cluster (raftReplica cfg) C)} (h : s.Reachable) :
    Routed 0 .raft s := by
  obtain ⟨w, hw⟩ : ∃ w, LeaderHistory cfg w (s.loc (.replica 0)) (s.trace (.replica 0)) :=
    histories h 0
  have hservice := service_eq_answered h hw
  apply routed_of_pairs h (answered cfg.numReplicas
      (RaftReplicaT.lastApplied (s.loc (.replica 0))) (s.trace (.replica 0))) Prod.fst
    fun x : (Party × SmltMsg) × SmltMsg => (cfg.clientAt x.1.2.clientId, x.2)
  · intro i _ hi
    obtain ⟨i, rfl⟩ := Nat.exists_eq_succ_of_ne_zero hi
    have hfollower : FollowerHistory (i + 1) (s.loc (.replica (i + 1)))
        (s.trace (.replica (i + 1))) := histories h (i + 1)
    apply responses_of_silent (i := 0)
    intro x hx
    rw [hfollower.sends_eq] at hx
    obtain ⟨k, hk, rfl⟩ := List.mem_mapIdx.mp hx
    rfl
  · rw [responses, hservice, filterMap_sendOf_flatMap]
  · rw [map_fst_answered]
    exact List.take_prefix _ _
  · exact hw.ownRequests
  · intro x hx
    obtain ⟨k, hk, rfl⟩ := List.mem_mapIdx.mp hx
    obtain ⟨core, hsrc, hcid⟩ := hw.ownRequests _ (List.mem_of_mem_take (List.getElem_mem hk))
    constructor
    · rw [cfg.clientAt_of_getElem? hcid, hsrc]
    · rw [ids, clientId_response, requestId_response]
      rfl

end Raft

section OnePaxos

open SmeltConsensus.OnePaxos.Replica
open SmeltConsensus.OnePaxos.Execute
open SmeltConsensus.OnePaxos.Learn

theorem onepaxos_routed (hl : cfg.level = .node) (hmax : cfg.clients.length ≤ MAX_NUM_CLIENTS)
    {s : Net (cluster (onepaxosReplica cfg false) C)} (h : s.Reachable) :
    Routed 0 .onePaxos s := by
  obtain ⟨hlead, hacc, hlearn, -⟩ := histories hl hmax h
  have hown := hlead.ownRequests
  have hresp := hlead.responses
  rw [if_neg Bool.false_ne_true] at hresp
  -- the leader executes what it learned, which it was requested
  have hexec : (executed (s.trace (.replica 0))).Sublist (requested (s.trace (.replica 0))) := by
    rw [hlead.executed_eq]
    exact (select_sublist _ _).trans (learned_requested (.inl hl) hmax h).sublist
  have hclient : ∀ c ∈ executed (s.trace (.replica 0)),
      ∃ core, cfg.clients[c.clientId]? = some core := by
    intro c hc
    obtain ⟨x, hx, rfl⟩ := List.mem_map.mp (hexec.subset hc)
    obtain ⟨core, -, hcid⟩ := hown x hx
    exact ⟨core, hcid⟩
  constructor
  · intro i hi hne
    by_cases h1 : i = 1
    · rw [h1]
      exact responses_of_sentTo_nil hacc.silent
    · apply responses_of_silent (i := 0)
      rw [(hlearn i (by omega)).replies, if_neg Bool.false_ne_true]
      exact fun x hx => by cases hx
  · intro x hx
    have hmem := hresp.subset (List.mem_map_of_mem hx)
    obtain ⟨c, hc, heq⟩ := List.mem_map.mp hmem
    obtain ⟨core, hcid⟩ := hclient c hc
    refine ⟨core, List.mem_of_getElem? hcid, ?_⟩
    rw [← (Prod.mk.inj heq).1]
    exact cfg.clientAt_of_getElem? hcid
  · intro core hcore
    obtain ⟨cid, hcid⟩ := List.mem_iff_getElem?.mp hcore
    apply List.Sublist.trans _ (ids_requested h hown hcid).sublist
    have hsub := ((hresp.filter (·.1 = .client core)).map Prod.snd).map idsOf
    rw [List.filter_map, List.filter_map, List.map_map, List.map_map, List.map_map,
      List.map_map] at hsub
    have hfilter : (executed (s.trace (.replica 0))).filter
        ((fun x : Party × Command => decide (x.1 = .client core)) ∘
          fun c => (cfg.clientAt c.clientId, c)) = ofClient cid (executed (s.trace (.replica 0))) := by
      apply List.filter_congr
      intro c hc
      obtain ⟨core', hcid'⟩ := hclient c hc
      have hlt := (List.getElem?_eq_some_iff.mp hcid').1
      exact decide_eq_decide.mpr (cfg.clientAt_eq_client_iff hlt hcid)
    rw [hfilter] at hsub
    exact hsub.trans ((hexec.filter _).map _)
  · exact fun hne => absurd rfl hne

end OnePaxos

section TwoPhase

open SmeltConsensus.TwoPhase.Replica
open SmeltConsensus.TwoPhase.Commit

variable {ready ack : ClientTable}

theorem tpc_routed (hone : OneOpen ready ack C) (hl : cfg.level = .node)
    (hmax : cfg.clients.length ≤ MAX_NUM_CLIENTS)
    {s : Net (cluster (tpcReplica cfg ready ack) C)} (h : s.Reachable) : Routed 0 .tpc s := by
  obtain ⟨hlead, hpart, hchan⟩ := histories (.inl hl) hmax h
  have hids : ∀ m ∈ commits (s.trace (.replica 0)), m.clientId < cfg.clients.length :=
    fun m hm => (hchan (.replica 0) (.replica 1) m (List.mem_filter.mp hm).1).2
  have horder : ∀ core ∈ cfg.clients,
      idsSent 0 core s <+: (requestsSent (s.trace (.client core))).map ids := by
    intro core hcore
    obtain ⟨cid, hcid⟩ := List.mem_iff_getElem?.mp hcore
    have hlt := (List.getElem?_eq_some_iff.mp hcid).1
    obtain ⟨table, hvote⟩ := voting hone (.inl hl) hmax h (hlt.trans_le hmax)
    apply List.IsPrefix.trans _ (ids_requested h hlead.ownRequests hcid)
    -- the responses are the client's commits, which are its executions
    have hcommits : idsSent 0 core s =
        (ofClient cid (executed (s.trace (.replica 0)))).map idsOf := by
      rw [idsSent_eq_sentTo, hlead.responses_eq hids hcid, hlead.executed_eq, ofClient,
        List.filter_map, List.map_map, List.map_map]
      apply List.map_congr_left
      intro m _
      rw [Function.comp_apply, ids_eq, SmltMsg.command_withTag]
      rfl
    rw [hcommits]
    exact hvote.closed_prefix.map _
  constructor
  · intro i _ hne
    exact responses_of_silent (hpart i hne).silent
  · intro x hx
    rw [responses, hlead.service, filterMap_sendOf_flatMap] at hx
    obtain ⟨m, hm, rfl⟩ := List.mem_map.mp hx
    have hcid := List.getElem?_eq_getElem (hids m hm)
    exact ⟨_, List.getElem_mem (hids m hm), cfg.clientAt_of_getElem? hcid⟩
  · exact fun core hcore => (horder core hcore).sublist
  · exact fun _ => horder

end TwoPhase

end Algorithms

section Clients

variable {recv : Nat} {buf : Nat → SmltMsg} {R : ReplicaProc}

/-- Where the leader takes set-up messages from clients only, a client is sent one reply. -/
theorem one_setup {s : Net (cluster R (benchClient cfg recv buf))} (h : s.Reachable)
    (ha : SetupsAnswered cfg (s.trace (.replica 0)))
    (hsrc : ∀ x ∈ inputs (s.trace (.replica 0)), x.2.tag = SETUP_TAG → ∃ core, x.1 = .client core)
    (core : Nat) :
    ((sentTo (.client core) (s.trace (.replica 0))).filter (·.tag = SETUP_TAG)).length ≤ 1 := by
  rw [ha core, List.length_map]
  have hsetups : setupsOf core (s.trace (.replica 0)) =
      ((receivedFrom (.client core) (s.trace (.replica 0))).filter (·.tag = SETUP_TAG)) := by
    rw [setupsOf, receivedFrom_eq_inputs, List.filter_map, List.filter_map, List.filter_filter]
    congr 1
    apply List.filter_congr
    rintro ⟨src, msg⟩ hx
    have hiff : (msg.tag = SETUP_TAG ∧ msg.clientId = core) ↔
        (msg.tag = SETUP_TAG ∧ src = .client core) := by
      constructor
      · rintro ⟨htag, hcore⟩
        obtain ⟨core', rfl⟩ := hsrc _ hx htag
        have hsent := (h.receivedFrom_prefix _ _).subset (mem_receivedFrom_iff.mpr hx)
        rcases fromClient_of_mem_sentTo h hsent with ⟨hreq, -⟩ | ⟨-, hid⟩
        · rw [hreq] at htag
          cases htag
        · exact ⟨htag, by rw [← hid, hcore]⟩
      · rintro ⟨htag, rfl⟩
        have hsent := (h.receivedFrom_prefix _ _).subset (mem_receivedFrom_iff.mpr hx)
        rcases fromClient_of_mem_sentTo h hsent with ⟨hreq, -⟩ | ⟨-, hid⟩
        · rw [hreq] at htag
          cases htag
        · exact ⟨htag, hid⟩
    by_cases htag : msg.tag = SETUP_TAG
    · by_cases hcore : msg.clientId = core
      · have hsource := (hiff.mp ⟨htag, hcore⟩).2
        simp [htag, hcore, hsource]
      · have hother : src ≠ .client core := fun heq => hcore (hiff.mpr ⟨htag, heq⟩).2
        simp [hcore, hother]
    · have hmsg : ¬ msg.tag = 0 := htag
      simp [hmsg]
  rw [hsetups]
  exact (((h.receivedFrom_prefix _ _).filter _).length_le).trans (clientHistory h core).setups

/-- Where that client receives from the leader only, it has sent one request more than it has
responses, at most. -/
theorem requestsSent_le {s : Net (cluster R (benchClient cfg 0 buf))} (h : s.Reachable)
    {core : Nat}
    (hone : ((sentTo (.client core) (s.trace (.replica 0))).filter
      (·.tag = SETUP_TAG)).length ≤ 1) :
    (requestsSent (s.trace (.client core))).length ≤
      (responsesReceived (s.trace (.client core))).length + 1 := by
  have hclient := clientHistory h core
  have hreceived := hclient.received
  have hsplit := List.length_eq_length_filter_add (l := inputs (s.trace (.client core)))
    fun x => decide (x.2.tag ≠ SETUP_TAG)
  have hsetups : ((inputs (s.trace (.client core))).filter
      fun x => !decide (x.2.tag ≠ SETUP_TAG)).length ≤ 1 := by
    have hfrom : receivedFrom (.replica 0) (s.trace (.client core)) =
        (inputs (s.trace (.client core))).map Prod.snd := by
      rw [receivedFrom_eq_inputs, List.filter_eq_self.mpr]
      intro x hx
      rcases hclient.sources x hx with hsrc | hsrc <;> exact decide_eq_true hsrc
    have hle := ((h.receivedFrom_prefix (.replica 0) (.client core)).filter
      (·.tag = SETUP_TAG)).length_le
    rw [hfrom, List.filter_map, List.length_map] at hle
    have heq : (inputs (s.trace (.client core))).filter
        (fun x => !decide (x.2.tag ≠ SETUP_TAG)) = (inputs (s.trace (.client core))).filter
          ((fun m : SmltMsg => decide (m.tag = SETUP_TAG)) ∘ Prod.snd) := by
      apply List.filter_congr
      intro x _
      by_cases htag : x.2.tag = 0 <;> simp [htag]
    rw [heq]
    omega
  rw [responsesReceived]
  omega

/-- Before its first request the leader sends a client nothing but set-up replies. -/
theorem setup_first {alg : Algorithm} {C : ClientProc cfg} {s : Net (cluster R C)}
    (hrouted : Routed recv alg s) {core : Nat} (hcore : core ∈ cfg.clients)
    (hnone : requestsSent (s.trace (.client core)) = []) {msg : SmltMsg}
    (hmem : msg ∈ sentTo (.client core) (s.trace (.replica 0))) : msg.tag = SETUP_TAG := by
  have hempty : ((responses (s.trace (.replica 0))).filter (·.1 = .client core)).map Prod.snd =
      [] := by
    by_cases hrecv : recv = 0
    · have hids := hrouted.own_ids core hcore
      rw [hnone, List.map_nil, List.sublist_nil, hrecv, idsSent] at hids
      rw [List.map_eq_nil_iff] at hids ⊢
      exact hids
    · have htwo := cfg.two_le_numReplicas
      rw [hrouted.only_recv 0 (by omega) (Ne.symm hrecv)]
      rfl
  rw [← sentTo_client_eq_responses] at hempty
  by_contra hne
  have hresp : msg ∈ (sentTo (.client core) (s.trace (.replica 0))).filter (·.tag ≠ SETUP_TAG) :=
    List.mem_filter.mpr ⟨hmem, decide_eq_true hne⟩
  rw [hempty] at hresp
  cases hresp

/-- The client id that `client_t` holds is the client's own from the set-up on. -/
theorem own_id {alg : Algorithm}
    (hsetup : ∀ s : Net (cluster R (benchClient cfg recv buf)), s.Reachable →
      ∀ core ∈ cfg.clients, ∀ msg ∈ sentTo (.client core) (s.trace (.replica 0)),
        msg.tag = SETUP_TAG → cfg.clients[msg.data4]? = some core)
    (hrouted : ∀ s : Net (cluster R (benchClient cfg recv buf)), s.Reachable → Routed recv alg s)
    {s : Net (cluster R (benchClient cfg recv buf))} (h : s.Reachable) {core : Nat}
    (hcore : core ∈ cfg.clients) : OwnId cfg core (s.loc (.client core)) := by
  refine h.party_induction (.client core) (fun l _ => OwnId cfg core l) ?_ ?_ ?_
  · rintro (hphase | hphase) <;> cases hphase
  · intro s s' src msg hr hr' hI hp ht
    have htrace : s'.trace (.client core) = s.trace (.client core) ++ [.recv src msg] := ht
    show OwnId cfg core (receive (s.loc (.client core)) msg)
    rcases receive_cases hp msg with ⟨hsetting, rfl, hl⟩ | ⟨hwaiting, -, hl⟩
    · have hmem : msg ∈ sentTo (.client core) (s'.trace (.replica 0)) := by
        apply (hr'.receivedFrom_prefix _ _).subset
        rw [htrace, receivedFrom_append, List.mem_append]
        exact .inr (by simp)
      have hnone : requestsSent (s'.trace (.client core)) = [] := by
        rw [htrace, requestsSent_recv]
        exact (clientHistory hr core).early (.inr hsetting)
      have htag := setup_first (hrouted s' hr') hcore hnone hmem
      rw [hl]
      exact fun _ => hsetup s' hr' core hcore msg hmem htag
    · rw [hl]
      exact fun _ => hI (.inr hwaiting)
  · intro s s' x r _ _ hI hx _
    obtain ⟨c, hc, rfl⟩ := Option.map_eq_some_iff.mp hx
    rcases call_cases hc with ⟨-, rfl⟩ | ⟨hready, payload, rfl⟩
    · rintro (hphase | hphase) <;> cases hphase
    · exact fun _ => hI (.inl hready)

end Clients

section TwoPhase

open SmeltConsensus.TwoPhase.Replica
open SmeltConsensus.TwoPhase.Commit

/-- The leader of two-phase commit holds one open request of each client at most. -/
theorem tpc_one_open (hl : cfg.level = .node) (hmax : cfg.clients.length ≤ MAX_NUM_CLIENTS)
    {ready ack : ClientTable} {buf : Nat → SmltMsg} :
    OneOpen ready ack (benchClient cfg 0 buf) := by
  intro s h cid core hcid
  obtain ⟨-, -, hchan⟩ := histories (.inl hl) hmax h
  apply requested_length_le_of (.inl hl) hmax h hcid
  refine requests_length_le_of h core 0 ?_ (only_leader_answers (.inl hl) hmax h core)
  apply requestsSent_le h
  apply one_setup h (setupsAnswered answersSetup h 0)
  rintro ⟨src, msg⟩ hx htag
  have hsent := (h.receivedFrom_prefix src (.replica 0)).subset (mem_receivedFrom_iff.mpr hx)
  have hm := hchan _ _ msg hsent
  have hsetup : msg.tag = 0 := htag
  rcases src with (_ | i) | core
  · rcases hm.1 with hprep | hcom
    · rw [hsetup] at hprep
      cases hprep
    · rw [hsetup] at hcom
      cases hcom
  · have hready := hm.2.1
    rw [hsetup] at hready
    cases hready
  · exact ⟨core, rfl⟩

end TwoPhase

/-- Every algorithm answers a client of the benchmark from the replica that the client receives
from, with the ids of the client's own requests; and the clients always send what their code
sends, since none of it is for another client. -/
theorem responses_routed (cfg : Config) (hl : cfg.level = .node)
    (hmax : cfg.clients.length ≤ MAX_NUM_CLIENTS) (ready ack : ClientTable)
    (buf : Nat → SmltMsg) (alg : Algorithm)
    (s : Net (cluster (initReplica cfg ready ack alg)
      (benchClient cfg (recvReplica cfg alg) buf))) (h : s.Reachable) :
    Routed (recvReplica cfg alg) alg s ∧ ∀ core ∈ cfg.clients, ∀ x,
      (benchClient cfg (recvReplica cfg alg) buf).call core (s.loc (.client core)) x =
        call cfg (recvReplica cfg alg) core (s.loc (.client core)) x := by
  have hrouted : ∀ s : Net (cluster (initReplica cfg ready ack alg)
      (benchClient cfg (recvReplica cfg alg) buf)), s.Reachable →
        Routed (recvReplica cfg alg) alg s := by
    intro s h
    cases alg with
    | onePaxos => exact onepaxos_routed hl hmax h
    | tpc => exact tpc_routed (tpc_one_open hl hmax) hl hmax h
    | broad => exact broadcast_routed hl h
    | chain => exact chain_routed hl h
    | raft => exact raft_routed h
  have hsetup : ∀ s : Net (cluster (initReplica cfg ready ack alg)
      (benchClient cfg (recvReplica cfg alg) buf)), s.Reachable →
        ∀ core ∈ cfg.clients, ∀ msg ∈ sentTo (.client core) (s.trace (.replica 0)),
          msg.tag = SETUP_TAG → cfg.clients[msg.data4]? = some core := by
    intro s h core hcore msg hmem htag
    cases alg with
    | onePaxos =>
      obtain ⟨-, -, -, hchan⟩ := OnePaxos.Learn.histories hl hmax h
      exact (hchan (.replica 0) (.client core) msg hmem).2 htag hcore
    | tpc => exact (setupsAnswered TwoPhase.Commit.answersSetup h 0).data4 hcore hmem htag
    | broad =>
      exact (setupsAnswered (fun l => Broadcast.Replication.answersSetup l) h 0).data4 hcore
        hmem htag
    | chain =>
      exact (setupsAnswered (fun l => Chain.Order.answersSetup l) h 0).data4 hcore hmem htag
    | raft =>
      obtain ⟨w, hw⟩ : ∃ w, Raft.History.LeaderHistory cfg w (s.loc (.replica 0))
        (s.trace (.replica 0)) := Raft.History.histories h 0
      exact hw.setups.data4 hcore hmem htag
  refine ⟨hrouted s h, fun core hcore x => ?_⟩
  exact call_unchecked hcore (own_id hsetup hrouted h hcore) x

private def cfg2 : Config := { Config.twoNodes with
  clients := Config.threeNodes.clients
  clients_nodup := Config.threeNodes.clients_nodup
  numClients_lt := Config.threeNodes.numClients_lt
  core_lt := Config.threeNodes.core_lt }

private def clients2 : ClientProc cfg2 := benchClient cfg2 1 fun _ => ⟨0, 0, 0, 0, 0, 0, 0⟩

private def schedule2 : List (Action (cluster (chainReplica cfg2) clients2)) :=
  [.stimulate (.client 11) .setup, .stimulate (.client 10) .setup,
    .deliver (.client 11) (.replica 0), .deliver (.client 10) (.replica 0),
    .deliver (.replica 0) (.client 10), .deliver (.replica 0) (.client 11),
    .stimulate (.client 11) (.request ⟨8, 8, 8⟩), .stimulate (.client 10) (.request ⟨7, 7, 7⟩),
    .deliver (.client 11) (.replica 0), .deliver (.client 10) (.replica 0),
    .deliver (.replica 0) (.replica 1), .deliver (.replica 0) (.replica 1)]

/-- A chain of two replicas whose tail answers two clients. -/
theorem responses_routed_chain :
    ∃ s : Net (cluster (initReplica cfg2 (Vector.replicate 64 0) (Vector.replicate 64 0) .chain)
        (benchClient cfg2 (recvReplica cfg2 .chain) fun _ => ⟨0, 0, 0, 0, 0, 0, 0⟩)),
      (responses (s.trace (.replica 1))).map (fun x => (x.1, ids x.2)) =
        [(.client 11, (1, 0)), (.client 10, (0, 0))] ∧ Routed 1 .chain s :=
  ⟨((Net.initial (cluster (chainReplica cfg2) clients2)).run schedule2).get rfl, by decide,
    (responses_routed cfg2 rfl (by decide) (Vector.replicate 64 0) (Vector.replicate 64 0) _ .chain
      _ (Net.reachable_of_run schedule2 rfl)).1⟩

end SmeltConsensus.Bench.Routing
