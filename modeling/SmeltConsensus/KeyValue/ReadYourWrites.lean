import SmeltConsensus.Foundation.FineGrain
import SmeltConsensus.KeyValue.Client
import SmeltConsensus.KeyValue.Memory
import SmeltConsensus.OnePaxos.Learn

/-!
What a client of the key-value store reads after its own writes.

A `kvs_set` returns when one learner has answered it, and `kvs_get` reads the
memory of the replica on the client's NUMA node. On all nodes but the first two these
are the same replica, which executes a command before it answers it. Every send and
every execution is a step of its own, so a client may read while a handler is running.
-/

set_option autoImplicit false
set_option relaxedAutoImplicit false

namespace SmeltConsensus.KeyValue.ReadYourWrites

open SmeltConsensus.Foundation
open SmeltConsensus.Foundation.Network
open SmeltConsensus.Foundation.FineGrain
open SmeltConsensus.Message.Header
open SmeltConsensus.Cluster.Parties
open SmeltConsensus.OnePaxos.Replica
open SmeltConsensus.OnePaxos.Execute
open SmeltConsensus.OnePaxos.Learn
open SmeltConsensus.KeyValue.Client
open SmeltConsensus.KeyValue.Memory

variable {cfg : Config} {numa : Nat → Nat} {buf : SmltMsg}

/-- The store on 1Paxos, in the KVS build. -/
abbrev store (cfg : Config) (numa : Nat → Nat) (buf : SmltMsg) : System Party SmltMsg Command :=
  cluster (onepaxosReplica cfg true) (kvsClient cfg numa buf)

theorem two_le_recvReplica (core : Nat) : 2 ≤ recvReplica numa core := by
  unfold recvReplica
  dsimp only
  split <;> omega

/-- The replies the client waited for inside of `kvs_set`. -/
def replies (numa : Nat → Nat) (core : Nat) (t : List Ev) : List SmltMsg :=
  receivedFrom (.replica (recvReplica numa core)) t

/-- A client's history: one reply for each request, and request ids that count up. -/
structure ClientHistory (cfg : Config) (numa : Nat → Nat) (core : Nat) (l : ClientT)
    (t : List Ev) : Prop where
  count : l.requestCount = (replies numa core t).length % 2 ^ 32
  answered : (requestsSent t).length =
    (replies numa core t).length + if l.phase = .waiting then 1 else 0
  early : l.phase = .start ∨ l.phase = .settingUp → replies numa core t = []
  stamps : ∀ j m, (requestsSent t)[j]? = some m → m.requestId = j % 2 ^ 32
  own : ∀ m ∈ requestsSent t, cfg.clients[m.clientId]? = some core

@[simp] private theorem setupMsg_tag (core : Nat) (l : ClientT) : (setupMsg core l).tag = 0 := by
  simp [setupMsg, SmltMsg.tag]

@[simp] private theorem requestMsg_tag (core : Nat) (l : ClientT) (payload : Payload) :
    (requestMsg cfg numa core l payload).tag = 1 := SmltMsg.tag_stamp _ _ _ _ _

/-- One more request, with the next id. -/
private theorem stamps_concat {ms : List SmltMsg} {msg : SmltMsg}
    (h : ∀ j m, ms[j]? = some m → m.requestId = j % 2 ^ 32)
    (hmsg : msg.requestId = ms.length % 2 ^ 32) (j : Nat) (m : SmltMsg)
    (hj : (ms ++ [msg])[j]? = some m) : m.requestId = j % 2 ^ 32 := by
  rcases Nat.lt_or_ge j ms.length with hlt | hge
  · rw [List.getElem?_append_left hlt] at hj
    exact h j m hj
  · have hlt := (List.getElem?_eq_some_iff.mp hj).1
    rw [List.length_append, List.length_singleton] at hlt
    obtain rfl : j = ms.length := by omega
    rw [List.getElem?_concat_length] at hj
    obtain rfl := Option.some.inj hj
    exact hmsg

private theorem clientHistory_call {core : Nat} {l : ClientT} {t : List Ev} {x : Call}
    {r : ClientT × SmltMsg} (h : ClientHistory cfg numa core l t)
    (hr : (kvsClient cfg numa buf).call core l x = some r) :
    ClientHistory cfg numa core r.1 (t ++ [.out (.send (.replica 0) r.2)]) := by
  obtain ⟨hcall, hfrom⟩ := Option.filter_eq_some_iff.mp hr
  have hfrom : cfg.FromClient core r.2 := of_decide_eq_true hfrom
  have hreplies : replies numa core (t ++ [.out (.send (.replica 0) r.2)]) =
      replies numa core t := by
    simp [replies]
  cases x with
  | setup =>
    unfold call at hcall
    dsimp only at hcall
    split at hcall
    · rename_i hstart
      obtain rfl := Option.some.inj hcall
      have hsent : requestsSent (t ++ [.out (.send (.replica 0) (setupMsg core l))]) =
          requestsSent t := by
        simp [requestsSent]
      have hans := h.answered
      refine ⟨?_, ?_, ?_, ?_, ?_⟩
      · rw [hreplies]
        exact h.count
      · rw [hsent, hreplies]
        simpa [hstart] using hans
      · intro _
        rw [hreplies]
        exact h.early (.inl hstart)
      · rw [hsent]
        exact h.stamps
      · rw [hsent]
        exact h.own
    · cases hcall
  | kvsSet key v1 v2 =>
    unfold call at hcall
    dsimp only at hcall
    split at hcall
    · rename_i hready
      obtain rfl := Option.some.inj hcall
      have htag : (requestMsg cfg numa core l ⟨key, v1, v2⟩).tag = 1 := requestMsg_tag _ _ _
      have hsent : requestsSent
          (t ++ [.out (.send (.replica 0) (requestMsg cfg numa core l ⟨key, v1, v2⟩))]) =
            requestsSent t ++ [requestMsg cfg numa core l ⟨key, v1, v2⟩] := by
        simp [requestsSent]
      have hlen : (requestsSent t).length = (replies numa core t).length := by
        simpa [hready] using h.answered
      refine ⟨?_, ?_, ?_, ?_, ?_⟩
      · rw [hreplies]
        exact h.count
      · rw [hsent, hreplies, List.length_append, List.length_singleton, hlen]
        simp
      · rintro (hp | hp) <;> cases hp
      · rw [hsent]
        apply stamps_concat h.stamps
        rw [requestMsg, SmltMsg.requestId_stamp, h.count, hlen, Nat.mod_mod]
      · intro m hm
        rw [hsent, List.mem_append, List.mem_singleton] at hm
        rcases hm with hm | rfl
        · exact h.own m hm
        · exact hfrom.request htag
    · cases hcall

private theorem clientHistory_receive {core : Nat} {l : ClientT} {t : List Ev} {src : Party}
    {msg : SmltMsg} (h : ClientHistory cfg numa core l t) (hp : Client.polls numa core l src = true) :
    ClientHistory cfg numa core (receive l msg) (t ++ [.recv src msg]) := by
  have hsent : requestsSent (t ++ [.recv src msg]) = requestsSent t := by
    simp [requestsSent]
  obtain ⟨hcount, hans, hearly, hstamps, hown⟩ := h
  cases hphase : l.phase with
  | start => simp [Client.polls, hphase] at hp
  | ready => simp [Client.polls, hphase] at hp
  | settingUp =>
    have hsrc : src = .replica 0 := by simpa [Client.polls, hphase] using hp
    subst hsrc
    have hne : recvReplica numa core ≠ 0 := by
      have htwo : 2 ≤ recvReplica numa core := two_le_recvReplica core
      omega
    have hreplies : replies numa core (t ++ [.recv (.replica 0) msg]) = replies numa core t := by
      simp [replies, Ne.symm hne]
    have hloc : receive l msg = { l with phase := .ready, id := msg.data4, msgBuf := msg } := by
      simp [receive, hphase]
    refine ⟨?_, ?_, ?_, ?_, ?_⟩
    · rw [hreplies, hloc]
      exact hcount
    · rw [hsent, hreplies, hloc]
      simpa [hphase] using hans
    · rw [hloc]
      rintro (hc | hc) <;> cases hc
    · rw [hsent]
      exact hstamps
    · rw [hsent]
      exact hown
  | waiting =>
    have hsrc : src = .replica (recvReplica numa core) := by simpa [Client.polls, hphase] using hp
    subst hsrc
    have hreplies : replies numa core (t ++ [.recv (.replica (recvReplica numa core)) msg]) =
        replies numa core t ++ [msg] := by
      simp [replies]
    have hloc : receive l msg = { l with
        phase := .ready
        requestCount := (l.requestCount + 1) % 2 ^ 32
        msgBuf := msg } := by
      simp [receive, hphase]
    refine ⟨?_, ?_, ?_, ?_, ?_⟩
    · rw [hreplies, hloc, List.length_append, List.length_singleton]
      dsimp only
      rw [hcount, Nat.mod_add_mod]
    · rw [hsent, hreplies, hloc, hans, hphase, List.length_append, List.length_singleton]
      simp
    · rw [hloc]
      rintro (hc | hc) <;> cases hc
    · rw [hsent]
      exact hstamps
    · rw [hsent]
      exact hown

theorem clientHistory {s : Net (store cfg numa buf)} (h : s.Reachable) (core : Nat) :
    ClientHistory cfg numa core (s.loc (.client core)) (s.trace (.client core)) := by
  refine client_induction (C := kvsClient cfg numa buf) core (ClientHistory cfg numa core) ?_ ?_ ?_ h
  · refine ⟨rfl, rfl, fun _ => rfl, ?_, ?_⟩
    · intro j m hj
      simp [requestsSent] at hj
    · intro m hm
      simp [requestsSent] at hm
  · intro s s' l src msg _ _ hI hp ht
    rw [ht]
    exact clientHistory_receive hI hp
  · intro l t x r hI hx
    exact clientHistory_call hI hx

/-- In the KVS build the leader sends a client nothing but its set-up reply. -/
private theorem leader_sends_setup (hl : cfg.level = .node)
    (hmax : cfg.clients.length ≤ MAX_NUM_CLIENTS) {s : Net (store cfg numa buf)}
    (h : s.Reachable) {core : Nat} {m : SmltMsg}
    (hm : m ∈ sentTo (.client core) (s.trace (.replica 0))) : m.tag = SETUP_TAG := by
  have hresp := (histories hl hmax h).1.responses
  rw [if_pos rfl, List.sublist_nil, List.map_eq_nil_iff] at hresp
  have hnone := sentTo_client_eq_responses core (s.trace (.replica 0))
  rw [hresp, List.filter_nil, List.map_nil, List.filter_eq_nil_iff] at hnone
  have hm := hnone m hm
  rwa [decide_eq_true_eq, ne_eq, not_not] at hm

/-- A client of the group that is set up has its own client id. -/
theorem client_id_own (hl : cfg.level = .node) (hmax : cfg.clients.length ≤ MAX_NUM_CLIENTS)
    {s : Net (store cfg numa buf)} (h : s.Reachable) {core : Nat} (hcore : core ∈ cfg.clients)
    (hphase : (s.loc (.client core) : ClientT).phase = .ready ∨
      (s.loc (.client core) : ClientT).phase = .waiting) :
    cfg.clients[(s.loc (.client core) : ClientT).id]? = some core := by
  refine client_induction (C := kvsClient cfg numa buf) (R := onepaxosReplica cfg true) core
    (fun (l : ClientT) _ => l.phase = .ready ∨ l.phase = .waiting →
      cfg.clients[l.id]? = some core) ?_ ?_ ?_ h hphase
  · rintro (hp | hp) <;> cases hp
  · intro s s' l src msg _ hr' hI hp ht _
    change cfg.clients[(receive l msg).id]? = some core
    cases hl' : l.phase with
    | start => simp [kvsClient, Client.polls, hl'] at hp
    | ready => simp [kvsClient, Client.polls, hl'] at hp
    | waiting =>
      have hid : (receive l msg).id = l.id := by simp [receive, hl']
      rw [hid]
      exact hI (.inr hl')
    | settingUp =>
      have hsrc : src = .replica 0 := by simpa [kvsClient, Client.polls, hl'] using hp
      subst hsrc
      have hsent : msg ∈ sentTo (.client core) (s'.trace (.replica 0)) := by
        refine (hr'.receivedFrom_prefix (.replica 0) (.client core)).subset ?_
        rw [ht]
        simp
      have hid : (receive l msg).id = msg.data4 := by simp [receive, hl']
      rw [hid]
      exact ((histories hl hmax hr').2.2.2 (.replica 0) (.client core) msg hsent).2
        (leader_sends_setup hl hmax hr' hsent) hcore
  · intro l t x r hI hx hp
    obtain ⟨hcall, -⟩ := Option.filter_eq_some_iff.mp hx
    cases x with
    | setup =>
      unfold call at hcall
      dsimp only at hcall
      split at hcall
      · obtain rfl := Option.some.inj hcall
        rcases hp with hp | hp <;> cases hp
      · cases hcall
    | kvsSet key v1 v2 =>
      unfold call at hcall
      dsimp only at hcall
      split at hcall
      · rename_i hready
        obtain rfl := Option.some.inj hcall
        exact hI (.inl hready)
      · cases hcall

/-- The check on the client's messages never stops a call. -/
theorem call_unchecked (hl : cfg.level = .node) (hmax : cfg.clients.length ≤ MAX_NUM_CLIENTS)
    {s : Net (store cfg numa buf)} (h : s.Reachable) {core : Nat} (hcore : core ∈ cfg.clients)
    (x : Call) :
    (kvsClient cfg numa buf).call core (s.loc (.client core)) x =
      call cfg numa core (s.loc (.client core)) x := by
  change (call cfg numa core (s.loc (.client core)) x).filter _ = _
  suffices hfrom : ∀ r, call cfg numa core (s.loc (.client core)) x = some r →
      cfg.FromClient core r.2 by
    cases hcall : call cfg numa core (s.loc (.client core)) x with
    | none => rfl
    | some r => rw [Option.filter_some, if_pos (decide_eq_true (hfrom r hcall))]
  rintro ⟨l, msg⟩ hcall
  cases x with
  | setup =>
    unfold call at hcall
    dsimp only at hcall
    split at hcall
    · obtain ⟨-, rfl⟩ := Prod.mk.inj (Option.some.inj hcall)
      have hlt := cfg.core_lt core hcore
      have hid : (setupMsg core (s.loc (.client core))).clientId = core % 2 ^ 16 :=
        getClientId_setClientId _ _
      refine .inr ⟨setupMsg_tag _ _, ?_⟩
      rw [hid]
      exact Nat.mod_eq_of_lt (by omega)
    · cases hcall
  | kvsSet key v1 v2 =>
    unfold call at hcall
    dsimp only at hcall
    split at hcall
    · rename_i hready
      obtain ⟨-, rfl⟩ := Prod.mk.inj (Option.some.inj hcall)
      have hown := client_id_own hl hmax h hcore (.inl hready)
      have hlt := (List.getElem?_eq_some_iff.mp hown).1
      have hnum := cfg.numClients_lt
      have hid : (requestMsg cfg numa core (s.loc (.client core)) ⟨key, v1, v2⟩).clientId =
          (s.loc (.client core) : ClientT).id % 2 ^ 16 := SmltMsg.clientId_stamp _ _ _ _ _
      refine .inl ⟨requestMsg_tag _ _ _, ?_⟩
      rw [hid, Nat.mod_eq_of_lt (by omega)]
      exact hown
    · cases hcall

/-- The commands that replica `i` has handled, executed or not. -/
def handled (t : List Ev) (i : Nat) : List Command :=
  (receivedFrom (.replica (if i = 1 then 0 else 1)) t).map SmltMsg.command

theorem executed_eq_handled (hl : cfg.level = .node) (hmax : cfg.clients.length ≤ MAX_NUM_CLIENTS)
    {s : Net (store cfg numa buf)} (h : s.Reachable) {i : Nat} (hi : 1 ≤ i) :
    executed (s.trace (.replica i)) = admitted (handled (s.trace (.replica i)) i) := by
  obtain ⟨-, hacc, hlearn, -⟩ := histories hl hmax h
  unfold handled
  by_cases h1 : i = 1
  · subst h1
    exact hacc.executed_eq
  · rw [if_neg h1]
    exact (hlearn i (by omega)).executed_eq

/-- No replica is ahead of the acceptor. -/
theorem prefix_handled (hl : cfg.level = .node) (hmax : cfg.clients.length ≤ MAX_NUM_CLIENTS)
    {s : Net (store cfg numa buf)} (h : s.Reachable) {i : Nat} (hn : i < cfg.numReplicas) :
    handled (s.trace (.replica i)) i <+: handled (s.trace (.replica 1)) 1 := by
  by_cases h1 : i = 1
  · rw [h1]
  · have hcmds := (prefix_learned (.inl hl) hmax h h1 hn).map SmltMsg.command
    rw [commands_mapIdx_learnMsg] at hcmds
    unfold handled
    rw [if_neg h1]
    exact hcmds

/-- What the acceptor has handled of a client's commands are the first that the leader
took. -/
theorem handled_requested (hl : cfg.level = .node) (hmax : cfg.clients.length ≤ MAX_NUM_CLIENTS)
    {s : Net (store cfg numa buf)} (h : s.Reachable) {cid core : Nat}
    (hcid : cfg.clients[cid]? = some core) :
    ofClient cid (handled (s.trace (.replica 1)) 1) <+:
      ((requests (s.trace (.replica 0))).filter (·.1 = .client core)).map fun x =>
        x.2.command := by
  obtain ⟨hlead, -, -, -⟩ := histories hl hmax h
  have hacc := (h.receivedFrom_prefix (.replica 0) (.replica 1)).trans hlead.proposals
  have hreq : handled (s.trace (.replica 1)) 1 <+: requested (s.trace (.replica 0)) := by
    have hcmds := hacc.map SmltMsg.command
    rw [List.map_map] at hcmds
    refine hcmds.trans ?_
    simp [requested, Function.comp_def]
  have hof := hreq.filter (·.clientId = cid)
  change ofClient cid _ <+: ofClient cid _ at hof
  rwa [hlead.ownRequests.ofClient_requested hcid] at hof

/-- A client that has not wrapped its request count sends increasing request ids. -/
theorem sent_increasing {s : Net (store cfg numa buf)} (h : s.Reachable) (core : Nat)
    (hcount : (requestsSent (s.trace (.client core))).length ≤ 2 ^ 32) :
    ((requestsSent (s.trace (.client core))).map SmltMsg.command).Pairwise
      fun c d => c.requestId < d.requestId := by
  have hstamps := (clientHistory h core).stamps
  rw [List.pairwise_map, List.pairwise_iff_getElem]
  intro i j hi hj hij
  have hri := hstamps i _ (List.getElem?_eq_getElem hi)
  have hrj := hstamps j _ (List.getElem?_eq_getElem hj)
  rw [Nat.mod_eq_of_lt (by omega)] at hri hrj
  change SmltMsg.requestId _ < SmltMsg.requestId _
  omega

section SmallSteps

variable {s : Fine (store cfg numa buf)}

/-- The leader takes a client's requests in the order in which they were sent. -/
theorem taken_sent (h : s.Reachable) (core : Nat) :
    ((requests (s.net.trace (.replica 0))).filter (·.1 = .client core)).map (fun x => x.2.command) <+:
      (requestsSent (s.net.trace (.client core))).map SmltMsg.command := by
  have htaken : ((requests (s.net.trace (.replica 0))).filter (·.1 = .client core)).map Prod.snd <+:
      requestsSent (s.net.trace (.client core)) := by
    unfold requestsSent requests
    rw [h.fifo, List.filter_append, receivedFrom_eq_inputs, List.filter_map, List.filter_filter,
      List.filter_filter]
    simp only [Bool.and_comm, Function.comp_def]
    exact List.prefix_append _ _
  have hcommands := htaken.map SmltMsg.command
  rwa [List.map_map] at hcommands

theorem requestsSent_flush (core : Nat) : requestsSent (s.net.trace (.client core)) <+:
    requestsSent (s.flush.trace (.client core)) := by
  rw [Fine.flush_trace, requestsSent, requestsSent, sentTo_append, List.filter_append]
  exact List.prefix_append _ _

/-- A reply goes to the client of the command. -/
theorem answers_length_le {cid core : Nat} (hcid : cfg.clients[cid]? = some core) (i : Nat)
    {ms : List SmltMsg} (hids : ∀ m ∈ ms, m.clientId < cfg.clients.length) {t : List Ev}
    (ht : sends t <+: answersTo cfg i ms) :
    (sentTo (.client core) t).length ≤ (ofClient cid (ms.map SmltMsg.command)).length := by
  have hle := (ht.filter fun x => decide (x.1 = .client core)).length_le
  rw [sentTo_eq_sends, List.length_map]
  refine hle.trans ?_
  rw [answersTo, List.filter_map, List.length_map, List.filter_filter, ofClient, List.filter_map,
    List.length_map]
  have hsame : ms.filter (fun m => ((fun x : Party × SmltMsg => decide (x.1 = .client core)) ∘
      fun m => (cfg.clientAt m.clientId, m.withTag RESP_TAG)) m &&
        decide (m.data3 = cfg.coreOf i)) =
      ms.filter (fun m => decide (m.clientId = cid) && decide (m.data3 = cfg.coreOf i)) := by
    refine List.filter_congr fun m hm => ?_
    congr 1
    exact decide_eq_decide.mpr (cfg.clientAt_eq_client_iff (hids m hm) hcid)
  rw [hsame]
  refine (List.Sublist.length_le (List.monotone_filter_right _ ?_))
  intro m hm
  exact (Bool.and_eq_true_iff.mp hm).1

/-- Outside of a `kvs_set`, the learner that answers the client has executed what it was
sent for all the client's requests. -/
theorem learned_sent (hl : cfg.level = .node) (hmax : cfg.clients.length ≤ MAX_NUM_CLIENTS)
    (h : s.Reachable) {cid core : Nat} (hcid : cfg.clients[cid]? = some core)
    (hlearner : 2 ≤ numa core) (hnode : numa core < cfg.numReplicas)
    (hready : (s.net.loc (.client core) : ClientT).phase = .ready) :
    ∃ cs, cs <+: handled (s.flush.trace (.replica (numa core))) (numa core) ∧
      executed (s.net.trace (.replica (numa core))) = admitted cs ∧
      ofClient cid cs = (requestsSent (s.net.trace (.client core))).map SmltMsg.command ∧
      requestsSent (s.flush.trace (.client core)) = requestsSent (s.net.trace (.client core)) := by
  have hrecv : recvReplica numa core = numa core := by
    have hnot : ¬ (numa core = 1 ∨ numa core = 0) := by omega
    exact if_neg hnot
  have hne : ¬ numa core = 1 := by omega
  obtain ⟨ms, hms, hexec, hsends⟩ := executes_first hl hmax h.flush hlearner
    (t := s.net.trace (.replica (numa core))) (List.prefix_append _ _)
  rw [← Fine.receivedFrom_flush] at hms
  have hids : ∀ m ∈ ms, m.clientId < cfg.clients.length := fun m hm =>
    ((histories hl hmax h.flush).2.2.2 (.replica 1) (.replica (numa core)) m
      ((h.flush.receivedFrom_prefix _ _).subset (hms.subset hm))).2.2
  have hcs : ms.map SmltMsg.command <+: handled (s.flush.trace (.replica (numa core))) (numa core) := by
    rw [handled, if_neg hne]
    exact hms.map _
  -- what it has executed of the client's commands are the first requests
  have hsent : ofClient cid (ms.map SmltMsg.command) <+:
      (requestsSent (s.net.trace (.client core))).map SmltMsg.command := by
    have hacc := (hcs.trans (prefix_handled hl hmax h.flush hnode)).filter (·.clientId = cid)
    have htaken := handled_requested hl hmax h.flush hcid
    rw [Fine.flush_trace s (.replica 0), requests_append, requests_map_out, List.append_nil] at htaken
    exact (hacc.trans htaken).trans (taken_sent h core)
  -- and every request has a reply, which is for one of these commands
  have hans := (clientHistory h.flush core).answered
  have hphase : (s.flush.loc (.client core) : ClientT).phase = .ready := hready
  have hreplies : replies numa core (s.flush.trace (.client core)) =
      receivedFrom (.replica (numa core)) (s.net.trace (.client core)) := by
    rw [replies, hrecv, Fine.receivedFrom_flush]
  have hfifo := congrArg List.length (h.fifo (.replica (numa core)) (.client core))
  have hanswers := answers_length_le hcid (numa core) hids hsends
  have hflush := requestsSent_flush (s := s) core
  have hgrow := hflush.length_le
  have hle := hsent.length_le
  rw [hphase, hreplies] at hans
  rw [List.length_append] at hfifo
  rw [List.length_map] at hle
  simp only [reduceCtorEq, if_false, Nat.add_zero] at hans
  refine ⟨ms.map SmltMsg.command, hcs, hexec, ?_, ?_⟩
  · refine hsent.eq_of_length ?_
    rw [List.length_map]
    omega
  · exact (hflush.eq_of_length (by omega)).symm

private theorem split_ofClient {cid : Nat} {cs pre post : List Command} {c : Command}
    (h : ofClient cid cs = pre ++ c :: post) :
    ∃ before after, cs = before ++ c :: after ∧ ofClient cid after = post := by
  obtain ⟨l₁, l₂, rfl, -, h2⟩ := List.filter_eq_append_iff.mp h
  obtain ⟨m₁, m₂, rfl, -, -, hm⟩ := List.filter_eq_cons_iff.mp h2
  exact ⟨l₁ ++ m₁, m₂, by rw [List.append_assoc], hm⟩

/-- What the client on `core` reads outside of a `kvs_set`: for every key below 1024 that
it has set, its last value for the key, unless another client's set of the key comes
after it among the commands that the acceptor has taken, in the order in which it executes
them. `kvs` is what the memories hold at start. -/
def ReadsOwnWrites (kvs : Nat → KvsMemory) (s : Fine (store cfg numa buf)) (core : Nat) : Prop :=
  (s.net.loc (.client core) : ClientT).phase = .ready →
  ∀ pre c post,
    (requestsSent (s.net.trace (.client core))).map SmltMsg.command = pre ++ c :: post →
    c.payload.word0 < 1024 → (∀ d ∈ post, d.payload.word0 ≠ c.payload.word0) →
    kvsGet (memoryAfter (numa core) (kvs (numa core))
        (executed (s.net.trace (.replica (numa core))))) c.payload.word0 =
      (c.payload.word1, c.payload.word2) ∨
    ∃ before after, executed (s.flush.trace (.replica 1)) = before ++ c :: after ∧
      ∃ d ∈ after, d.clientId ≠ c.clientId ∧ d.payload.word0 = c.payload.word0

end SmallSteps

/-- Four replicas on the cores and NUMA nodes 0 to 3, and a client on each of three nodes. -/
private def cfg4 : Config := { Config.fourNodes with
  clients := [4, 5, 6]
  clients_nodup := by decide
  numClients_lt := by decide
  core_lt := by decide }

private def numa4 (core : Nat) : Nat := core % 4

private def zero : SmltMsg := ⟨0, 0, 0, 0, 0, 0, 0⟩

/-- The client on `core` sets itself up and sets key 5; the acceptor tells learner `i`, and
has not executed the command when the client has its reply. -/
private def schedule4 (core i : Nat) : List (FineAction (store cfg4 numa4 zero)) :=
  [.stimulate (.client core) .setup, .perform (.client core),
    .deliver (.client core) (.replica 0), .perform (.replica 0),
    .deliver (.replica 0) (.client core), .stimulate (.client core) (.kvsSet 5 7 9),
    .perform (.client core), .deliver (.client core) (.replica 0), .perform (.replica 0),
    .deliver (.replica 0) (.replica 1), .perform (.replica 1), .perform (.replica 1),
    .perform (.replica 1), .deliver (.replica 1) (.replica i), .perform (.replica i),
    .perform (.replica i), .deliver (.replica i) (.client core)]

private def stateAfter (core i : Nat)
    (hrun : (Machine.run Fine.step (Fine.initial _) (schedule4 core i)).isSome) :
    Fine (store cfg4 numa4 zero) :=
  (Machine.run Fine.step (Fine.initial _) (schedule4 core i)).get hrun

private theorem reachable_stateAfter (core i : Nat)
    (hrun : (Machine.run Fine.step (Fine.initial _) (schedule4 core i)).isSome) :
    (stateAfter core i hrun).Reachable :=
  ⟨schedule4 core i, (Option.some_get _).symm⟩

/-- A client reads the old value of a key that it alone has set, if the replica that it reads
has executed nothing. -/
private theorem not_readsOwnWrites {s : Fine (store cfg4 numa4 zero)} {core : Nat} {c : Command}
    (hready : (s.net.loc (.client core) : ClientT).phase = .ready)
    (hsent : (requestsSent (s.net.trace (.client core))).map SmltMsg.command = [c])
    (hkey : c.payload.word0 < 1024) (hvalue : c.payload.word1 ≠ 0)
    (hnone : executed (s.net.trace (.replica (numa4 core))) = [])
    (horder : executed (s.flush.trace (.replica 1)) = [c]) :
    ¬ ReadsOwnWrites (fun _ _ => 0) s core := by
  intro h
  rcases h hready [] c [] hsent hkey (fun d hd => absurd hd List.not_mem_nil)
    with hget | ⟨before, after, hexec, d, hd, -⟩
  · rw [hnone] at hget
    exact hvalue (Prod.mk.inj hget).1.symm
  · have hlen := congrArg List.length (horder.symm.trans hexec)
    have hpos := List.length_pos_of_mem hd
    simp only [List.length_append, List.length_cons, List.length_nil] at hlen
    omega

end SmeltConsensus.KeyValue.ReadYourWrites
