import Mathlib.Order.Interval.Finset.Nat
import SmeltConsensus.Foundation.Unanimity
import SmeltConsensus.TwoPhase.Replica

/-!
Two-phase commit commits a request only after every participant is ready for it.

Each client's requests are the questions of a unanimous vote: a waiting client
leaves at most one of them open, so the one `ready_counter` of the client counts
the participants that are ready for that request and for no other.
-/

set_option autoImplicit false
set_option relaxedAutoImplicit false

namespace SmeltConsensus.TwoPhase.Commit

open SmeltConsensus.Foundation.Network
open SmeltConsensus.Foundation.Unanimity
open SmeltConsensus.Message.Header
open SmeltConsensus.Cluster.Parties
open SmeltConsensus.TwoPhase.Replica

variable {cfg : Config} {ready ack : ClientTable}

/-- The commit messages the leader sent, as participant 1 is sent them. -/
def commits (t : List Ev) : List SmltMsg :=
  (sentTo (.replica 1) t).filter (·.tag = TPC_COM)

/-- The commands for which participant `i` answered that it is ready, as the leader got them. -/
def readies (t : List Ev) (i : Nat) : List Command :=
  (receivedFrom (.replica i) t).map SmltMsg.command

/-- The leader's history: what it prepares, commits, executes and answers. -/
structure LeaderHistory (cfg : Config) (t : List Ev) : Prop where
  same : ∀ i, 1 ≤ i → i < cfg.numReplicas → sentTo (.replica i) t = sentTo (.replica 1) t
  prepares : (sentTo (.replica 1) t).filter (·.tag = TPC_PREP) =
    (requests t).map fun x => x.2.withTag TPC_PREP
  indices : (commits t).map SmltMsg.data3 = List.range' 1 (commits t).length
  service : service t = (commits t).flatMap fun m =>
    [.exec m.command, .send (cfg.clientAt m.clientId) (m.withTag RESP_TAG)]
  ownRequests : OwnRequests cfg t

/-- A participant answers what it is told to prepare and executes what is committed. -/
structure ParticipantHistory (t : List Ev) : Prop where
  readies : sentTo (.replica 0) t =
    ((receivedFrom (.replica 0) t).filter (·.tag = TPC_PREP)).map (·.withTag TPC_RDY)
  executed : executed t =
    ((receivedFrom (.replica 0) t).filter (·.tag = TPC_COM)).map SmltMsg.command
  silent : ∀ x ∈ sends t, x.1 = .replica 0

/-- What travels on a channel. -/
def OnChannel (cfg : Config) : Party → Party → SmltMsg → Prop
  | .client core, .replica _, msg => cfg.FromClient core msg
  | .replica 0, .replica _, msg =>
    (msg.tag = TPC_PREP ∨ msg.tag = TPC_COM) ∧ msg.clientId < cfg.clients.length
  | .replica (_ + 1), .replica j, msg =>
    j = 0 ∧ msg.tag = TPC_RDY ∧ msg.clientId < cfg.clients.length
  | .replica i, .client _, _ => i = 0
  | .client _, .client _, _ => False

@[simp] private theorem commitMsg_tag (replica : TpcReplicaT) (msg : SmltMsg) :
    (commitMsg replica msg).tag = TPC_COM := SmltMsg.tag_withTag _ _

@[simp] private theorem commitMsg_clientId (replica : TpcReplicaT) (msg : SmltMsg) :
    (commitMsg replica msg).clientId = msg.clientId := SmltMsg.clientId_withTag _ _

@[simp] private theorem commitMsg_command (replica : TpcReplicaT) (msg : SmltMsg) :
    (commitMsg replica msg).command = msg.command := SmltMsg.command_withTag _ _

/-- The leader's own state beside its history. -/
private structure Leader (cfg : Config) (l : TpcReplicaT) (t : List Ev) : Prop where
  id : l.id = 0
  level : l.level = cfg.level
  index : l.index = (commits t).length
  history : LeaderHistory cfg t

/-- What the handling of one message at the leader has to establish. -/
private def LeaderStep (cfg : Config) (l : TpcReplicaT) (t : List Ev) (src : Party)
    (msg : SmltMsg) : Prop :=
  Leader cfg (messageHandlerTpc cfg l msg).1
    (t ++ .recv src msg :: (messageHandlerTpc cfg l msg).2.map .out) ∧
  ∀ dst m, .send dst m ∈ (messageHandlerTpc cfg l msg).2 → OnChannel cfg (.replica 0) dst m

/-- A step of the leader that sends the messages `ms` to every participant. -/
private theorem leader_append {t u : List Ev} {l l' : TpcReplicaT} (h : Leader cfg l t)
    (ms : List SmltMsg) (hid : l'.id = l.id) (hlevel : l'.level = l.level)
    (hl : l'.index = l.index + (ms.filter (·.tag = TPC_COM)).length)
    (hsend : ∀ i, 1 ≤ i → i < cfg.numReplicas → sentTo (.replica i) u = ms)
    (hprep : ms.filter (·.tag = TPC_PREP) = (requests u).map fun x => x.2.withTag TPC_PREP)
    (hindex : (ms.filter (·.tag = TPC_COM)).map SmltMsg.data3 =
      List.range' (1 + l.index) (ms.filter (·.tag = TPC_COM)).length)
    (hserv : service u = (ms.filter (·.tag = TPC_COM)).flatMap fun m =>
      [.exec m.command, .send (cfg.clientAt m.clientId) (m.withTag RESP_TAG)])
    (hfrom : OwnRequests cfg u) :
    Leader cfg l' (t ++ u) := by
  have ht := h.history
  have hone := hsend 1 le_rfl cfg.two_le_numReplicas
  have hcommits : commits (t ++ u) = commits t ++ ms.filter (·.tag = TPC_COM) := by
    rw [commits, commits, sentTo_append, List.filter_append, hone]
  refine ⟨hid.trans h.id, hlevel.trans h.level, ?_, ?_, ?_, ?_, ?_, ?_⟩
  · rw [hl, h.index, hcommits, List.length_append]
  · intro i h1 hn
    rw [sentTo_append, sentTo_append, ht.same i h1 hn, hsend i h1 hn, hone]
  · rw [sentTo_append, hone, List.filter_append, ht.prepares, hprep, requests_append,
      List.map_append]
  · rw [hcommits, List.map_append, ht.indices, hindex, h.index, List.length_append,
      List.range'_append_1]
  · rw [hcommits, List.flatMap_append, service_append, ht.service, hserv]
  · exact ht.ownRequests.append hfrom

private theorem mem_participants {i : Nat} (h1 : 1 ≤ i) (hn : i < cfg.numReplicas) :
    i ∈ List.range' 1 (cfg.numReplicas - 1) := by
  rw [List.mem_range'_1]
  omega

private theorem leader_setup {t : List Ev} {l : TpcReplicaT} {core : Nat} {msg : SmltMsg}
    (h : Leader cfg l t) (hs : msg.tag = SETUP_TAG) :
    LeaderStep cfg l t (.client core) msg := by
  have hmsg : msg.tag = 0 := hs
  have heq : messageHandlerTpc cfg l msg = (l, handleSetup cfg msg) := by
    simp [messageHandlerTpc, hmsg]
  rw [LeaderStep, heq]
  constructor
  · refine leader_append h [] rfl rfl rfl ?_ ?_ ?_ ?_ ?_
    · intro i _ _
      simp [handleSetup]
    all_goals simp [OwnRequests, handleSetup, hmsg]
  · intro dst m hm
    simp only [handleSetup, List.mem_singleton, Output.send.injEq] at hm
    obtain ⟨rfl, -⟩ := hm
    rfl

/-- A request at the leader: every participant is sent the same prepare message. -/
private theorem leader_request {t : List Ev} {l : TpcReplicaT} {core : Nat} {msg : SmltMsg}
    (h : Leader cfg l t) (hr : msg.tag = REQ_TAG)
    (hclient : cfg.clients[msg.clientId]? = some core) :
    LeaderStep cfg l t (.client core) msg := by
  have hmsg : msg.tag = 1 := hr
  have heq : messageHandlerTpc cfg l msg = handleRequest cfg l msg := by
    simp [messageHandlerTpc, hmsg]
  rw [LeaderStep, heq, handleRequest, if_pos h.id]
  constructor
  · refine leader_append h [msg.withTag TPC_PREP] rfl rfl ?_ ?_ ?_ ?_ ?_ ?_
    · simp
    · intro i h1 hn
      simp [List.nodup_range', mem_participants h1 hn]
    all_goals simp [OwnRequests, hmsg, hclient]
  · intro dst m hm
    obtain ⟨rfl, i, -, rfl⟩ := mem_sendEach.mp hm
    refine ⟨.inl (SmltMsg.tag_withTag _ _), ?_⟩
    rw [SmltMsg.clientId_withTag]
    exact (List.getElem?_eq_some_iff.mp hclient).1

/-- The handling of a ready message that leaves the counter below the number of participants. -/
private theorem handleReady_wait {l : TpcReplicaT} {msg : SmltMsg} (hid : l.id = 0)
    (ht : msg.tag = TPC_RDY) (hk : msg.clientId < MAX_NUM_CLIENTS) {count : Nat}
    (hcount : (l.readyCounter.read msg.clientId + 1) % 2 ^ 8 = count)
    (hlt : count < cfg.numReplicas - 1) :
    messageHandlerTpc cfg l msg =
      ({ l with readyCounter := l.readyCounter.write msg.clientId count }, []) := by
  have hmsg : msg.tag = 4 := ht
  have hread := ClientTable.read_write_self l.readyCounter hk count
  simp only [messageHandlerTpc, handleReady, hmsg, hid, hcount, hread]
  simp [Nat.not_le.mpr hlt]

/-- The handling of the ready message that completes the count. -/
private theorem handleReady_commit {l : TpcReplicaT} {msg : SmltMsg} (hid : l.id = 0)
    (hl : l.level = cfg.level) (ht : msg.tag = TPC_RDY) (hd : cfg.Direct)
    (hmax : cfg.clients.length ≤ MAX_NUM_CLIENTS) (hk : msg.clientId < cfg.clients.length)
    {count : Nat} (hcount : (l.readyCounter.read msg.clientId + 1) % 2 ^ 8 = count)
    (hle : cfg.numReplicas - 1 ≤ count) :
    messageHandlerTpc cfg l msg =
      ({ l with
          readyCounter := l.readyCounter.write msg.clientId count
          index := l.index + 1 },
        sendEach (List.range' 1 (cfg.numReplicas - 1)) (commitMsg l msg) ++
          [.exec msg.command,
            .send (cfg.clientAt msg.clientId) ((commitMsg l msg).withTag RESP_TAG)]) := by
  have hmsg : msg.tag = 4 := ht
  have hread := ClientTable.read_write_self l.readyCounter (hk.trans_le hmax) count
  cases hlevel : cfg.level with
  | node =>
    rw [hlevel] at hl
    simp only [messageHandlerTpc, handleReady, hmsg, hid, hl, hcount, hread]
    simp [hle]
  | core =>
    rw [hlevel] at hl
    rw [hd.clientAt_of_core hlevel hk]
    simp only [messageHandlerTpc, handleReady, hmsg, hid, hl, hcount, hread]
    simp [hle]

/-- A ready message at the leader: it is counted, or it commits the request. -/
private theorem leader_ready (hd : cfg.Direct) {t : List Ev} {l : TpcReplicaT} {i : Nat}
    {msg : SmltMsg} (h : Leader cfg l t) (hr : msg.tag = TPC_RDY) (hk : msg.clientId < cfg.clients.length)
    (hmax : cfg.clients.length ≤ MAX_NUM_CLIENTS) :
    LeaderStep cfg l t (.replica i) msg := by
  have hmsg : msg.tag = 4 := hr
  have hk' := hk.trans_le hmax
  rcases Nat.lt_or_ge ((l.readyCounter.read msg.clientId + 1) % 2 ^ 8) (cfg.numReplicas - 1)
    with hlt | hge
  · rw [LeaderStep, handleReady_wait h.id hr hk' rfl hlt]
    constructor
    · refine leader_append h [] rfl rfl rfl ?_ ?_ ?_ ?_ ?_
      · intro j _ _
        rfl
      all_goals simp [OwnRequests, hmsg]
    · intro dst m hm
      simp at hm
  · rw [LeaderStep, handleReady_commit h.id h.level hr hd hmax hk rfl hge]
    constructor
    · refine leader_append h [commitMsg l msg] rfl rfl ?_ ?_ ?_ ?_ ?_ ?_
      · simp
      · intro j h1 hn
        simp [List.nodup_range', mem_participants h1 hn]
      · simp [hmsg]
      · simp [commitMsg, Nat.add_comm, SmltMsg.tag, SmltMsg.withTag]
      · simp
      · simp [OwnRequests, hmsg]
    · intro dst m hm
      rw [List.mem_append, mem_sendEach] at hm
      rcases hm with ⟨rfl, j, -, rfl⟩ | hm
      · exact ⟨.inr (commitMsg_tag l msg), by rwa [commitMsg_clientId]⟩
      · simp only [List.mem_cons, List.not_mem_nil, reduceCtorEq, Output.send.injEq, false_or,
          or_false] at hm
        obtain ⟨rfl, -⟩ := hm
        rfl

/-- One message at the leader. -/
private theorem leader_step (hd : cfg.Direct) {t : List Ev} {l : TpcReplicaT} {src : Party}
    {msg : SmltMsg} (hmax : cfg.clients.length ≤ MAX_NUM_CLIENTS) (h : Leader cfg l t)
    (hp : polls cfg l src = true) (hm : OnChannel cfg src (.replica 0) msg) :
    LeaderStep cfg l t src msg := by
  rcases src with (_ | j) | core
  · simp [polls, h.id] at hp
  · exact leader_ready hd h hm.2.1 hm.2.2 hmax
  · rcases hm with ⟨hr, hclient⟩ | ⟨hs, -⟩
    · exact leader_request h hr hclient
    · exact leader_setup h hs

/-- One message at a participant. -/
private theorem participant_step {t : List Ev} {l : TpcReplicaT} {i : Nat} {msg : SmltMsg}
    (hid : l.id = i + 1) (h : ParticipantHistory t)
    (hm : OnChannel cfg (.replica 0) (.replica (i + 1)) msg) :
    (messageHandlerTpc cfg l msg).1 = l ∧
    ParticipantHistory (t ++ .recv (.replica 0) msg ::
      (messageHandlerTpc cfg l msg).2.map .out) ∧
    ∀ dst m, .send dst m ∈ (messageHandlerTpc cfg l msg).2 →
      OnChannel cfg (.replica (i + 1)) dst m := by
  obtain ⟨hready, hexec, hsilent⟩ := h
  obtain ⟨htag | htag, hk⟩ := hm
  · have hmsg : msg.tag = 3 := htag
    have heq : messageHandlerTpc cfg l msg =
        (l, [.send (.replica 0) (msg.withTag TPC_RDY)]) := by
      simp [messageHandlerTpc, handlePrepare, hmsg, hid]
    rw [heq]
    refine ⟨rfl, ⟨?_, ?_, ?_⟩, ?_⟩
    · simp [hready, hmsg]
    · simp [hexec, hmsg]
    · intro x hx
      simp only [sends_append, sends_recv, List.map_cons, List.map_nil, sends_send, sends_nil,
        List.mem_append, List.mem_singleton] at hx
      rcases hx with hx | rfl
      · exact hsilent x hx
      · rfl
    · intro dst m hs
      simp only [List.mem_singleton, Output.send.injEq] at hs
      obtain ⟨rfl, rfl⟩ := hs
      exact ⟨rfl, SmltMsg.tag_withTag _ _, by rwa [SmltMsg.clientId_withTag]⟩
  · have hmsg : msg.tag = 5 := htag
    have heq : messageHandlerTpc cfg l msg = (l, [.exec msg.command]) := by
      simp [messageHandlerTpc, handleCommit, hmsg, hid]
    rw [heq]
    refine ⟨rfl, ⟨?_, ?_, ?_⟩, ?_⟩
    · simp [hready, hmsg]
    · simp [hexec, hmsg]
    · simpa using hsilent
    · intro dst m hs
      simp at hs

theorem histories {C : ClientProc cfg} (hd : cfg.Direct)
    (hmax : cfg.clients.length ≤ MAX_NUM_CLIENTS)
    {s : Net (cluster (tpcReplica cfg ready ack) C)} (h : s.Reachable) :
    LeaderHistory cfg (s.trace (.replica 0)) ∧
      (∀ i, i ≠ 0 → ParticipantHistory (s.trace (.replica i))) ∧
      ∀ p q, ∀ m ∈ sentTo q (s.trace p), OnChannel cfg p q m := by
  have key := replica_invariant
    (fun i (l : TpcReplicaT) t => l.id = i ∧ (i = 0 → Leader cfg l t) ∧
      (i ≠ 0 → ParticipantHistory t)) (OnChannel cfg) ?_ ?_ ?_ h
  · exact ⟨((key.1 0).2.1 rfl).history, fun i hi => (key.1 i).2.2 hi, key.2⟩
  · intro i
    refine ⟨rfl, fun hi => ⟨hi, rfl, rfl, ?_⟩, fun _ => ⟨rfl, rfl, ?_⟩⟩
    · constructor
      · intro i _ _
        rfl
      · rfl
      · rfl
      · rfl
      · intro x hx
        simp at hx
    · intro x hx
      simp at hx
  · exact fun _ _ hm => hm
  · rintro (_ | i) l t src msg ⟨hid, h0, hp⟩ hpoll hm
    · obtain ⟨hleader, hchan⟩ := leader_step hd hmax (h0 rfl) hpoll hm
      exact ⟨⟨hleader.id, fun _ => hleader, fun hi => absurd rfl hi⟩, hchan⟩
    · have hsrc : src = .replica 0 := by simpa [tpcReplica, polls, hid] using hpoll
      subst hsrc
      obtain ⟨hloc, hpart, hchan⟩ := participant_step hid (hp (Nat.succ_ne_zero i)) hm
      refine ⟨⟨?_, fun hi => absurd hi (Nat.succ_ne_zero i), fun _ => hpart⟩, hchan⟩
      exact (congrArg TpcReplicaT.id hloc).trans hid

/-- The ready messages the leader has from a participant answer its requests in order. -/
theorem prefix_readies {C : ClientProc cfg} (hd : cfg.Direct)
    (hmax : cfg.clients.length ≤ MAX_NUM_CLIENTS)
    {s : Net (cluster (tpcReplica cfg ready ack) C)} (h : s.Reachable) {i : Nat} (h1 : 1 ≤ i)
    (hn : i < cfg.numReplicas) :
    readies (s.trace (.replica 0)) i <+: requested (s.trace (.replica 0)) := by
  obtain ⟨hlead, hpart, -⟩ := histories hd hmax h
  have hanswers := h.receivedFrom_prefix (.replica i) (.replica 0)
  have hprepares := h.receivedFrom_prefix (.replica 0) (.replica i)
  rw [(hpart i (by omega)).readies] at hanswers
  rw [hlead.same i h1 hn] at hprepares
  have hrdy := (hprepares.filter (·.tag = TPC_PREP)).map fun m => (m.withTag TPC_RDY).command
  have hcmd := hanswers.map SmltMsg.command
  rw [List.map_map] at hcmd
  rw [hlead.prepares, List.map_map] at hrdy
  refine hcmd.trans (hrdy.trans ?_)
  simp [requested, Function.comp_def]

theorem LeaderHistory.executed_eq {t : List Ev} (h : LeaderHistory cfg t) :
    executed t = (commits t).map SmltMsg.command := by
  rw [executed_eq_service, h.service, filterMap_execOf_flatMap]

/-- The leader's messages to a client, set-up replies apart, answer its committed requests. -/
theorem LeaderHistory.responses_eq {t : List Ev} (h : LeaderHistory cfg t)
    (hids : ∀ m ∈ commits t, m.clientId < cfg.clients.length) {cid core : Nat}
    (hcid : cfg.clients[cid]? = some core) :
    (sentTo (.client core) t).filter (·.tag ≠ SETUP_TAG) =
      ((commits t).filter (·.clientId = cid)).map (·.withTag RESP_TAG) := by
  refine sentTo_client_of_responses ?_ hids hcid
  rw [responses, h.service, filterMap_sendOf_flatMap]

/-- Only the leader sends to clients. -/
theorem only_leader_answers {C : ClientProc cfg} (hd : cfg.Direct)
    (hmax : cfg.clients.length ≤ MAX_NUM_CLIENTS)
    {s : Net (cluster (tpcReplica cfg ready ack) C)} (h : s.Reachable) (core : Nat) :
    ∀ p, p ≠ .replica 0 → ∀ m ∈ sentTo (.client core) (s.trace p), m.tag = SETUP_TAG := by
  intro p hp m hm
  have hm := (histories hd hmax h).2.2 _ _ m hm
  rcases p with (_ | i) | core'
  · exact absurd rfl hp
  · exact absurd hm (Nat.succ_ne_zero i)
  · exact hm.elim

/-- Where the leader holds no two requests of a client that are not answered, it holds no two
that are not executed. -/
theorem requested_length_le_of {C : ClientProc cfg} (hd : cfg.Direct)
    (hmax : cfg.clients.length ≤ MAX_NUM_CLIENTS)
    {s : Net (cluster (tpcReplica cfg ready ack) C)} (h : s.Reachable) {cid core : Nat}
    (hcid : cfg.clients[cid]? = some core)
    (hle : ((requests (s.trace (.replica 0))).filter (·.1 = .client core)).length ≤
      ((sentTo (.client core) (s.trace (.replica 0))).filter (·.tag ≠ SETUP_TAG)).length + 1) :
    (ofClient cid (requested (s.trace (.replica 0)))).length ≤
      (ofClient cid (executed (s.trace (.replica 0)))).length + 1 := by
  obtain ⟨hlead, -, hchan⟩ := histories hd hmax h
  have hids : ∀ m ∈ commits (s.trace (.replica 0)), m.clientId < cfg.clients.length :=
    fun m hm => (hchan (.replica 0) (.replica 1) m (List.mem_filter.mp hm).1).2
  rw [hlead.responses_eq hids hcid, List.length_map] at hle
  rw [hlead.ownRequests.ofClient_requested hcid, List.length_map, hlead.executed_eq, ofClient,
    List.filter_map, List.length_map]
  exact hle

/-- The leader never holds two requests of a client that are not executed. -/
theorem requested_length_le (C : WaitingClient cfg) (hd : cfg.Direct)
    (hmax : cfg.clients.length ≤ MAX_NUM_CLIENTS)
    {s : Net (cluster (tpcReplica cfg ready ack) C.toClientProc)} (h : s.Reachable) {cid core : Nat}
    (hcid : cfg.clients[cid]? = some core) :
    (ofClient cid (requested (s.trace (.replica 0)))).length ≤
      (ofClient cid (executed (s.trace (.replica 0)))).length + 1 :=
  requested_length_le_of hd hmax h hcid
    (requests_length_le C h core 0 (only_leader_answers hd hmax h core))

/-- The requests of one client as a vote of the participants, with the client's
counter at the leader as its count. -/
def Voting (cfg : Config) (table : ClientTable) (t : List Ev) (cid : Nat) : Prop :=
  Round (Finset.Ico 1 cfg.numReplicas) (table.read cid) (ofClient cid (requested t))
    (ofClient cid (executed t)) fun i => ofClient cid (readies t i)

/-- With the answers of all participants to all requests, no vote is open. -/
theorem Voting.executed_eq {table : ClientTable} {t : List Ev} {cid : Nat}
    (hv : Voting cfg table t cid)
    (hall : ∀ i, 1 ≤ i → i < cfg.numReplicas → readies t i = requested t) :
    ofClient cid (executed t) = ofClient cid (requested t) := by
  refine hv.closed_prefix.eq_of_length ?_
  rcases hv.counting with heq | ⟨-, hlt, hcount⟩
  · exact heq
  · -- an open vote would have all votes
    have hvoters : (Finset.Ico 1 cfg.numReplicas).filter (fun i =>
        (ofClient cid (readies t i)).length = (ofClient cid (requested t)).length) =
        Finset.Ico 1 cfg.numReplicas := by
      refine Finset.filter_true_of_mem fun i hi => ?_
      obtain ⟨h1, hn⟩ := Finset.mem_Ico.mp hi
      rw [hall i h1 hn]
    rw [hvoters] at hcount
    omega

/-- A step that is not about the client leaves its vote alone. -/
private theorem Voting.other {table table' : ClientTable} {t t' : List Ev} {cid : Nat}
    (hv : Voting cfg table t cid) (hcount : table'.read cid = table.read cid)
    (hreq : ofClient cid (requested t') = ofClient cid (requested t))
    (hexec : ofClient cid (executed t') = ofClient cid (executed t))
    (hready : ∀ i, ofClient cid (readies t' i) = ofClient cid (readies t i)) :
    Voting cfg table' t' cid := by
  unfold Voting
  simp only [hcount, hreq, hexec, hready]
  exact hv

/-- A ready message at the leader is a vote on the open request of its client. -/
private theorem voting_ready {t : List Ev} {l : TpcReplicaT} {i cid : Nat} {msg : SmltMsg}
    (hid : l.id = 0) (hl : l.level = cfg.level) (hd : cfg.Direct)
    (hmax : cfg.clients.length ≤ MAX_NUM_CLIENTS)
    (hv : ∀ k, k < MAX_NUM_CLIENTS → Voting cfg l.readyCounter t k)
    (hi : i ∈ Finset.Ico 1 cfg.numReplicas) (hr : msg.tag = TPC_RDY)
    (hown : msg.clientId < cfg.clients.length) (hcid : cid < MAX_NUM_CLIENTS)
    (hvote : readies t i ++ [msg.command] <+: requested t) :
    Voting cfg (messageHandlerTpc cfg l msg).1.readyCounter
      (t ++ .recv (.replica i) msg :: (messageHandlerTpc cfg l msg).2.map .out) cid := by
  have hmsg : msg.tag = 4 := hr
  have hk := hown.trans_le hmax
  have hcard : (Finset.Ico 1 cfg.numReplicas).card = cfg.numReplicas - 1 := Nat.card_Ico _ _
  have hself : ofClient msg.clientId [msg.command] = [msg.command] := ofClient_self msg.command
  have hsub : ofClient msg.clientId (readies t i) ++ [msg.command] <+:
      ofClient msg.clientId (requested t) := by
    rw [← hself, ← ofClient_append]
    exact hvote.filter _
  have hlt := (hv msg.clientId hk).count_lt_card hi hsub
  have hcount : (l.readyCounter.read msg.clientId + 1) % 2 ^ 8 =
      l.readyCounter.read msg.clientId + 1 := by
    have := cfg.numReplicas_lt
    exact Nat.mod_eq_of_lt (by omega)
  have hownReady : ∀ os : List Out, readies (t ++ .recv (.replica i) msg :: os.map .out) i =
      readies t i ++ [msg.command] := by
    intro os
    simp [readies]
  have hotherReady : ∀ (os : List Out) (u : Nat), u ≠ i →
      readies (t ++ .recv (.replica i) msg :: os.map .out) u = readies t u := by
    intro os u hu
    simp [readies, Ne.symm hu]
  have hreq : ∀ os : List Out,
      requested (t ++ .recv (.replica i) msg :: os.map .out) = requested t := by
    intro os
    simp [requested, hmsg]
  have hreadyCid : cid ≠ msg.clientId → ∀ (os : List Out) (u : Nat),
      ofClient cid (readies (t ++ .recv (.replica i) msg :: os.map .out) u) =
        ofClient cid (readies t u) := by
    intro hne os u
    rcases eq_or_ne u i with rfl | hu
    · rw [hownReady, ofClient_append, ofClient_of_ne (Ne.symm hne), List.append_nil]
    · rw [hotherReady os u hu]
  rcases Nat.lt_or_ge (l.readyCounter.read msg.clientId + 1) (cfg.numReplicas - 1)
    with hwait | hlast
  · rw [handleReady_wait hid hr hk hcount hwait]
    have hexec : executed (t ++ .recv (.replica i) msg :: ([] : List Out).map .out) =
        executed t := by
      simp
    rcases eq_or_ne cid msg.clientId with rfl | hne
    · rw [Voting, ClientTable.read_write_self _ hk, hreq, hexec]
      refine (hv msg.clientId hk).vote hi ?_ ?_ hsub (by omega)
      · rw [hownReady, ofClient_append, hself]
      · intro u hu
        rw [hotherReady _ u hu]
    · refine (hv cid hcid).other (ClientTable.read_write_of_ne _ hne _) ?_ ?_ (hreadyCid hne _)
      · rw [hreq]
      · rw [hexec]
  · rw [handleReady_commit hid hl hr hd hmax hown hcount hlast]
    have hexec : executed (t ++ .recv (.replica i) msg ::
        (sendEach (List.range' 1 (cfg.numReplicas - 1)) (commitMsg l msg) ++
          ([.exec msg.command, .send (cfg.clientAt msg.clientId)
            ((commitMsg l msg).withTag RESP_TAG)] : List Out)).map .out) =
          executed t ++ [msg.command] := by
      simp
    rcases eq_or_ne cid msg.clientId with rfl | hne
    · rw [Voting, hreq, hexec, ofClient_append, hself]
      refine (hv msg.clientId hk).close hi ?_ ?_ hsub (by omega) _
      · rw [hownReady, ofClient_append, hself]
      · intro u hu
        rw [hotherReady _ u hu]
    · refine (hv cid hcid).other (ClientTable.read_write_of_ne _ hne _) ?_ ?_ (hreadyCid hne _)
      · rw [hreq]
      · rw [hexec, ofClient_append, ofClient_of_ne (Ne.symm hne), List.append_nil]

/-- A request at the leader opens the vote of its client. -/
private theorem voting_request {t : List Ev} {l : TpcReplicaT} {core cid : Nat} {msg : SmltMsg}
    (hid : l.id = 0) (hv : ∀ k, k < MAX_NUM_CLIENTS → Voting cfg l.readyCounter t k)
    (hr : msg.tag = REQ_TAG) (hk : msg.clientId < MAX_NUM_CLIENTS) (hcid : cid < MAX_NUM_CLIENTS)
    (hready : ∀ i ∈ Finset.Ico 1 cfg.numReplicas, readies t i <+: requested t)
    (hone : (ofClient msg.clientId (requested t)).length ≤
      (ofClient msg.clientId (executed t)).length) :
    Voting cfg (messageHandlerTpc cfg l msg).1.readyCounter
      (t ++ .recv (.client core) msg :: (messageHandlerTpc cfg l msg).2.map .out) cid := by
  have hmsg : msg.tag = 1 := hr
  have heq : messageHandlerTpc cfg l msg = handleRequest cfg l msg := by
    simp [messageHandlerTpc, hmsg]
  rw [heq, handleRequest, if_pos hid]
  set t' := t ++ .recv (.client core) msg ::
    (sendEach (List.range' 1 (cfg.numReplicas - 1)) (msg.withTag TPC_PREP)).map .out with ht'
  have hreq : requested t' = requested t ++ [msg.command] := by
    simp [ht', requested, hmsg]
  have hexec : executed t' = executed t := by
    simp [ht']
  have hreadies : ∀ i, readies t' i = readies t i := by
    intro i
    simp [ht', readies]
  rcases eq_or_ne cid msg.clientId with rfl | hne
  · have hself : ofClient msg.clientId [msg.command] = [msg.command] := ofClient_self msg.command
    have hask := (hv msg.clientId hk).ask (Finset.nonempty_Ico.mpr cfg.two_le_numReplicas)
      (fun i hi => (hready i hi).filter _) hone msg.command
    rw [Voting, ClientTable.read_write_self _ hk, hreq, hexec, ofClient_append, hself]
    simp only [hreadies]
    exact hask
  · refine (hv cid hcid).other (ClientTable.read_write_of_ne _ hne _) ?_ ?_ ?_
    · rw [hreq, ofClient_append, ofClient_of_ne (Ne.symm hne), List.append_nil]
    · rw [hexec]
    · intro i
      rw [hreadies]

variable (cfg) in
theorem messageHandlerTpc_frame (l : TpcReplicaT) (msg : SmltMsg) :
    (messageHandlerTpc cfg l msg).1.id = l.id ∧
      (messageHandlerTpc cfg l msg).1.level = l.level := by
  have hrequest : (handleRequest cfg l msg).1.id = l.id ∧
      (handleRequest cfg l msg).1.level = l.level := by
    unfold handleRequest
    split <;> exact ⟨rfl, rfl⟩
  have hready : (handleReady cfg l msg).1.id = l.id ∧
      (handleReady cfg l msg).1.level = l.level := by
    dsimp only [handleReady]
    by_cases hid : l.id = 0
    · rw [if_pos hid]
      split <;> exact ⟨rfl, rfl⟩
    · rw [if_neg hid]
      exact ⟨rfl, rfl⟩
  unfold messageHandlerTpc
  split_ifs
  · exact ⟨rfl, rfl⟩
  · exact hrequest
  · exact ⟨rfl, rfl⟩
  · exact hready
  · exact ⟨rfl, rfl⟩
  · exact ⟨rfl, rfl⟩

theorem answersSetup (l : TpcReplicaT) (msg : SmltMsg) :
    AnswersSetup cfg msg (messageHandlerTpc cfg l msg).2 := by
  constructor
  · intro hs
    rw [messageHandlerTpc, if_pos hs]
  · intro hs core m h
    unfold messageHandlerTpc at h
    rw [if_neg hs] at h
    split_ifs at h
    · unfold handleRequest at h
      split at h
      · obtain ⟨-, j, -, hj⟩ := mem_sendEach.mp h
        cases hj
      · simp at h
    · unfold handlePrepare at h
      split at h <;> simp at h
    · dsimp only [handleReady] at h
      split at h
      · split at h
        · rw [List.mem_append, mem_sendEach] at h
          rcases h with ⟨-, j, -, hj⟩ | h
          · cases hj
          · cases hl : l.level <;>
              simp only [hl, List.mem_cons, List.not_mem_nil, reduceCtorEq, Output.send.injEq,
                false_or, or_false] at h
            · rw [h.2]
              simp
            · rw [h.2]
              simp
        · cases h
      · simp at h
    · unfold handleCommit at h
      split at h <;> simp at h
    · simp at h

/-- A set-up message at the leader changes no vote. -/
private theorem voting_setup {t : List Ev} {l : TpcReplicaT} {core cid : Nat} {msg : SmltMsg}
    (hv : Voting cfg l.readyCounter t cid) (hs : msg.tag = SETUP_TAG) :
    Voting cfg (messageHandlerTpc cfg l msg).1.readyCounter
      (t ++ .recv (.client core) msg :: (messageHandlerTpc cfg l msg).2.map .out) cid := by
  have hmsg : msg.tag = 0 := hs
  have heq : messageHandlerTpc cfg l msg = (l, handleSetup cfg msg) := by
    simp [messageHandlerTpc, hmsg]
  rw [heq]
  refine hv.other rfl ?_ ?_ ?_
  · simp [requested, hmsg]
  · simp [handleSetup]
  · intro i
    simp [readies]

/-- In every run the leader holds at most one request of each client that is not executed. -/
def OneOpen (ready ack : ClientTable) (C : ClientProc cfg) : Prop :=
  ∀ s : Net (cluster (tpcReplica cfg ready ack) C), s.Reachable → ∀ cid core,
    cfg.clients[cid]? = some core →
      (ofClient cid (requested (s.trace (.replica 0)))).length ≤
        (ofClient cid (executed (s.trace (.replica 0)))).length + 1

/-- Each client's requests are voted on one after the other. -/
theorem voting {C : ClientProc cfg} (hone : OneOpen ready ack C) (hd : cfg.Direct)
    (hmax : cfg.clients.length ≤ MAX_NUM_CLIENTS)
    {s : Net (cluster (tpcReplica cfg ready ack) C)} (h : s.Reachable) {cid : Nat}
    (hcid : cid < MAX_NUM_CLIENTS) :
    ∃ table : ClientTable, Voting cfg table (s.trace (.replica 0)) cid := by
  have key := replica_induction (R := tpcReplica cfg ready ack) 0
    (fun (l : TpcReplicaT) t => l.id = 0 ∧ l.level = cfg.level ∧
      ∀ k, k < MAX_NUM_CLIENTS → Voting cfg l.readyCounter t k) ?_ ?_ h
  · exact ⟨_, key.2.2 cid hcid⟩
  · exact ⟨rfl, rfl, fun k _ => Round.initial fun _ => rfl⟩
  · rintro s s' l src msg hr hr' ⟨hid, hlevel, hv⟩ hp ht
    obtain ⟨hid', hlevel'⟩ := messageHandlerTpc_frame cfg l msg
    refine ⟨hid'.trans hid, hlevel'.trans hlevel, fun k hk => ?_⟩
    have hm : OnChannel cfg src (.replica 0) msg := by
      refine (histories hd hmax hr').2.2 src _ msg ((hr'.receivedFrom_prefix src _).subset ?_)
      rw [ht]
      simp
    rcases src with (_ | j) | core
    · simp [tpcReplica, polls, hid] at hp
    · have hj : 1 ≤ j + 1 ∧ j + 1 < cfg.numReplicas := by
        simpa [tpcReplica, polls, hid] using hp
      have hvote := prefix_readies hd hmax hr' hj.1 hj.2
      have hmsg : msg.tag = 4 := hm.2.1
      rw [ht] at hvote ⊢
      refine voting_ready hid hlevel hd hmax hv (Finset.mem_Ico.mpr hj) hm.2.1 hm.2.2 hk ?_
      simpa [readies, requested, hmsg] using hvote
    · rcases hm with ⟨hreq, hclient⟩ | ⟨hs, -⟩
      · have hmsg : msg.tag = 1 := hreq
        have hle := hone s' hr' msg.clientId core hclient
        have hself : ofClient msg.clientId [msg.command] = [msg.command] :=
          ofClient_self msg.command
        rw [ht] at hle ⊢
        refine voting_request hid hv hreq
          ((List.getElem?_eq_some_iff.mp hclient).1.trans_le hmax) hk ?_ ?_
        · intro i hi
          obtain ⟨h1, hn⟩ := Finset.mem_Ico.mp hi
          exact prefix_readies hd hmax hr h1 hn
        · simpa [tpcReplica, messageHandlerTpc, handleRequest, hmsg, hid, requested, hself]
            using hle
      · rw [ht]
        exact voting_setup (hv k hk) hs

/-- Two-phase commit over a whole run of a node-level group. -/
structure Committed (cfg : Config) {ready ack : ClientTable} {C : ClientProc cfg}
    (s : Net (cluster (tpcReplica cfg ready ack) C)) : Prop where
  /-- The `k`-th commit sent for a client is for its `k`-th request, and the leader has the
  `k`-th ready message for that client from every participant, for that same request. -/
  commit_requested : ∀ cid, ofClient cid ((commits (s.trace (.replica 0))).map SmltMsg.command) <+:
    ofClient cid (requested (s.trace (.replica 0)))
  commit_ready : ∀ cid i, 1 ≤ i → i < cfg.numReplicas →
    ofClient cid ((commits (s.trace (.replica 0))).map SmltMsg.command) <+:
      ofClient cid (readies (s.trace (.replica 0)) i)
  ready_tag : ∀ i, 1 ≤ i → ∀ m ∈ receivedFrom (.replica i) (s.trace (.replica 0)),
    m.tag = TPC_RDY
  /-- Every participant is sent the same commits. -/
  commits_same : ∀ i, 1 ≤ i → i < cfg.numReplicas →
    (sentTo (.replica i) (s.trace (.replica 0))).filter (·.tag = TPC_COM) =
      commits (s.trace (.replica 0))
  /-- The commits are numbered from 1 on in the order of the leader's executions. -/
  indices : (commits (s.trace (.replica 0))).map SmltMsg.data3 =
    List.range' 1 (commits (s.trace (.replica 0))).length
  leader_order : executed (s.trace (.replica 0)) =
    (commits (s.trace (.replica 0))).map SmltMsg.command
  participant_prefix : ∀ i, 1 ≤ i → i < cfg.numReplicas →
    executed (s.trace (.replica i)) <+: executed (s.trace (.replica 0))
  /-- The executions and responses of the leader, in program order. -/
  served_once : service (s.trace (.replica 0)) = (commits (s.trace (.replica 0))).flatMap fun m =>
    [.exec m.command, .send (cfg.clientAt m.clientId) (m.withTag RESP_TAG)]
  /-- What a client is sent beside set-up replies: one response for each of its commits. -/
  response_owner : ∀ cid core, cfg.clients[cid]? = some core →
    (sentTo (.client core) (s.trace (.replica 0))).filter (·.tag ≠ SETUP_TAG) =
      ((commits (s.trace (.replica 0))).filter (·.clientId = cid)).map (·.withTag RESP_TAG)
  /-- Only the leader answers. -/
  participant_silent : ∀ i, 1 ≤ i → ∀ x ∈ sends (s.trace (.replica i)), x.1 = .replica 0
  quiescent_equal : s.Quiescent → ∀ i, i < cfg.numReplicas →
    executed (s.trace (.replica i)) = executed (s.trace (.replica 0))
  /-- With nothing in flight, every request the leader took is committed. -/
  quiescent_committed : s.Quiescent → ∀ cid, ofClient cid (executed (s.trace (.replica 0))) =
    ofClient cid (requested (s.trace (.replica 0)))

/-- With nothing in flight between them, the leader has a participant's answer to every request. -/
theorem readies_of_empty {C : ClientProc cfg} (hd : cfg.Direct)
    (hmax : cfg.clients.length ≤ MAX_NUM_CLIENTS)
    {s : Net (cluster (tpcReplica cfg ready ack) C)} (h : s.Reachable) {i : Nat}
    (h1 : 1 ≤ i) (hn : i < cfg.numReplicas) (hto : s.inFlight (.replica 0) (.replica i) = [])
    (hfrom : s.inFlight (.replica i) (.replica 0) = []) :
    readies (s.trace (.replica 0)) i = requested (s.trace (.replica 0)) := by
  obtain ⟨hlead, hpart, -⟩ := histories hd hmax h
  rw [readies, h.received_eq_sent hfrom, (hpart i (by omega)).readies,
    h.received_eq_sent hto, hlead.same i h1 hn, hlead.prepares]
  simp [requested, Function.comp_def]

/-- Two-phase commit, for any waiting clients and any interleaving. -/
theorem two_phase_committed (cfg : Config) (hl : cfg.level = .node)
    (hmax : cfg.clients.length ≤ MAX_NUM_CLIENTS) (ready ack : ClientTable)
    (C : WaitingClient cfg) (s : Net (cluster (tpcReplica cfg ready ack) C.toClientProc))
    (h : s.Reachable) : Committed cfg s := by
  have hd : cfg.Direct := .inl hl
  have hopen : OneOpen ready ack C.toClientProc := fun s h cid core hcid =>
    requested_length_le C hd hmax h hcid
  obtain ⟨hlead, hpart, hchan⟩ := histories hd hmax h
  have hids : ∀ m ∈ commits (s.trace (.replica 0)), m.clientId < cfg.clients.length :=
    fun m hm => (hchan (.replica 0) (.replica 1) m (List.mem_filter.mp hm).1).2
  -- a client id that no client has is in no list
  have hnone : ∀ cid, ¬ cid < MAX_NUM_CLIENTS →
      ofClient cid (executed (s.trace (.replica 0))) = [] ∧
      ofClient cid (requested (s.trace (.replica 0))) = [] := by
    intro cid hcid
    constructor
    · rw [hlead.executed_eq, ofClient, List.filter_eq_nil_iff]
      intro c hc
      obtain ⟨m, hm, rfl⟩ := List.mem_map.mp hc
      have hm : m.command.clientId < cfg.clients.length := hids m hm
      rw [decide_eq_true_eq]
      omega
    · rw [requested, ofClient, List.filter_eq_nil_iff]
      intro c hc
      obtain ⟨x, hx, rfl⟩ := List.mem_map.mp hc
      obtain ⟨core, -, hcore⟩ := hlead.ownRequests x hx
      have hlt : x.2.command.clientId < cfg.clients.length :=
        (List.getElem?_eq_some_iff.mp hcore).1
      rw [decide_eq_true_eq]
      omega
  have hmissing : ∀ i, 1 ≤ i → i < cfg.numReplicas →
      executed (s.trace (.replica i)) =
        ((receivedFrom (.replica 0) (s.trace (.replica i))).filter (·.tag = TPC_COM)).map
          SmltMsg.command := fun i h1 _ => (hpart i (by omega)).executed
  refine
    { commit_requested := ?_
      commit_ready := ?_
      ready_tag := ?_
      commits_same := fun i h1 hn => by rw [hlead.same i h1 hn, commits]
      indices := hlead.indices
      leader_order := hlead.executed_eq
      participant_prefix := ?_
      served_once := hlead.service
      response_owner := fun cid core hcid => hlead.responses_eq hids hcid
      participant_silent := fun i h1 => (hpart i (by omega)).silent
      quiescent_equal := ?_
      quiescent_committed := ?_ }
  · intro cid
    rw [← hlead.executed_eq]
    by_cases hcid : cid < MAX_NUM_CLIENTS
    · obtain ⟨table, hv⟩ := voting hopen hd hmax h hcid
      exact hv.closed_prefix
    · rw [(hnone cid hcid).1]
      exact List.nil_prefix
  · intro cid i h1 hn
    rw [← hlead.executed_eq]
    by_cases hcid : cid < MAX_NUM_CLIENTS
    · obtain ⟨table, hv⟩ := voting hopen hd hmax h hcid
      exact hv.closed_voted (Finset.mem_Ico.mpr ⟨h1, hn⟩) ((prefix_readies hd hmax h h1 hn).filter _)
    · rw [(hnone cid hcid).1]
      exact List.nil_prefix
  · intro i h1 m hm
    obtain ⟨j, rfl⟩ := Nat.exists_eq_add_of_le' h1
    exact (hchan (.replica (j + 1)) (.replica 0) m ((h.receivedFrom_prefix _ _).subset hm)).2.1
  · intro i h1 hn
    have hpre := ((h.receivedFrom_prefix (.replica 0) (.replica i)).filter
      (·.tag = TPC_COM)).map SmltMsg.command
    rw [hlead.same i h1 hn] at hpre
    rw [hmissing i h1 hn, hlead.executed_eq]
    exact hpre
  · intro hq i hn
    rcases Nat.eq_zero_or_pos i with rfl | h1
    · rfl
    · rw [hmissing i h1 hn, h.received_eq_sent (hq _ _), hlead.same i h1 hn, hlead.executed_eq,
        commits]
  · intro hq cid
    by_cases hcid : cid < MAX_NUM_CLIENTS
    · obtain ⟨table, hv⟩ := voting hopen hd hmax h hcid
      exact hv.executed_eq fun i h1 hn => readies_of_empty hd hmax h h1 hn (hq _ _) (hq _ _)
    · rw [(hnone cid hcid).1, (hnone cid hcid).2]

/-- Three replicas whose counters start with garbage, and two clients. -/
private def cfg3 : Config := .threeNodes

private def garbage : ClientTable := Vector.replicate 64 5

private def schedule3 :
    List (Action (cluster (tpcReplica cfg3 garbage garbage) (anyWaitingClient cfg3).toClientProc)) :=
  let zero : SmltMsg := ⟨0, 0, 0, 0, 0, 0, 0⟩
  [.stimulate (.client 10) (zero.stamp 0 0 0 ⟨7, 7, 7⟩),
    .stimulate (.client 11) (zero.stamp 1 0 0 ⟨8, 8, 8⟩),
    .deliver (.client 10) (.replica 0), .deliver (.client 11) (.replica 0),
    .deliver (.replica 0) (.replica 1), .deliver (.replica 0) (.replica 1),
    .deliver (.replica 0) (.replica 2), .deliver (.replica 1) (.replica 0),
    .deliver (.replica 1) (.replica 0), .deliver (.replica 2) (.replica 0),
    .deliver (.replica 0) (.replica 1)]

/-- Client 0 is answered while the request of client 1 still waits for participant 2. -/
theorem two_phase_committed_run :
    ∃ s : Net (cluster (tpcReplica cfg3 garbage garbage) (anyWaitingClient cfg3).toClientProc),
      executed (s.trace (.replica 0)) = [⟨0, 0, ⟨7, 7, 7⟩⟩] ∧
      executed (s.trace (.replica 1)) = [⟨0, 0, ⟨7, 7, 7⟩⟩] ∧ Committed cfg3 s :=
  ⟨((Net.initial _).run schedule3).get rfl, by decide, by decide,
    two_phase_committed cfg3 rfl (by decide) garbage garbage _ _ (Net.reachable_of_run schedule3 rfl)⟩

end SmeltConsensus.TwoPhase.Commit
