import SmeltConsensus.OnePaxos.Execute

/-!
1Paxos without failures: all replicas learn one sequence of proposals, the one
of the acceptor.

Every replica runs its commands through the same duplicate filter, so what it
executes is a function of the proposals it has learned; these are a prefix of
the proposals that the acceptor took from the leader.
-/

set_option autoImplicit false
set_option relaxedAutoImplicit false

namespace SmeltConsensus.OnePaxos.Learn

open SmeltConsensus.Foundation.Network
open SmeltConsensus.Message.Header
open SmeltConsensus.Cluster.Parties
open SmeltConsensus.OnePaxos.EntryQueue
open SmeltConsensus.OnePaxos.Replica
open SmeltConsensus.OnePaxos.Execute

variable {cfg : Config} {kvs : Bool}

/-- The loop adds nothing to the state. -/
theorem messageHandlerLoop_fst (l : OnepaxosReplicaT) (msg : SmltMsg) :
    (messageHandlerLoop cfg kvs l msg).1 = (messageHandlerOnepaxos cfg kvs l msg).1 := by
  unfold messageHandlerLoop
  dsimp only
  split <;> rfl

/-- The learn message for the proposal `msg` at position `k`. -/
def learnMsg (k : Nat) (msg : SmltMsg) : SmltMsg := { msg.withTag ONE_LEARN with data1 := k }

@[simp] theorem learnMsg_tag (k : Nat) (msg : SmltMsg) : (learnMsg k msg).tag = ONE_LEARN :=
  SmltMsg.tag_withTag _ _

@[simp] theorem learnMsg_clientId (k : Nat) (msg : SmltMsg) :
    (learnMsg k msg).clientId = msg.clientId := SmltMsg.clientId_withTag _ _

@[simp] theorem learnMsg_command (k : Nat) (msg : SmltMsg) :
    (learnMsg k msg).command = msg.command := SmltMsg.command_withTag _ _

@[simp] theorem mem_learners {j : Nat} : j ∈ learners cfg ↔ j < cfg.numReplicas ∧ j ≠ 1 := by
  simp [learners]

@[simp] theorem nodup_learners : (learners cfg).Nodup := List.nodup_range.filter _

/-- The acceptor's history: every proposal of the leader is accepted at the next position. -/
structure AcceptorHistory (cfg : Config) (t : List Ev) : Prop where
  learns : ∀ j, j ≠ 1 → j < cfg.numReplicas →
    sentTo (.replica j) t = (receivedFrom (.replica 0) t).mapIdx learnMsg
  executed_eq : executed t = admitted ((receivedFrom (.replica 0) t).map SmltMsg.command)
  silent : ∀ core, sentTo (.client core) t = []

/-- A learner's history: it answers in the KVS build only, for its own core. -/
structure LearnerHistory (cfg : Config) (kvs : Bool) (i : Nat) (t : List Ev) : Prop where
  executed_eq : executed t = admitted ((receivedFrom (.replica 1) t).map SmltMsg.command)
  replies : sends t = if kvs then
    ((receivedFrom (.replica 1) t).filter (·.data3 = cfg.coreOf i)).map fun m =>
      (cfg.clientAt m.clientId, m.withTag RESP_TAG) else []

/-- The leader's history. -/
structure LeaderHistory (cfg : Config) (kvs : Bool) (t : List Ev) : Prop where
  executed_eq : executed t = admitted ((receivedFrom (.replica 1) t).map SmltMsg.command)
  ownRequests : OwnRequests cfg t
  proposals : sentTo (.replica 1) t <+: (requests t).map fun x => x.2.withTag ONE_ACC
  responses : ((responses t).map fun x => (x.1, x.2.command)).Sublist
    (if kvs then [] else
      (executed t).map fun c => (cfg.clientAt c.clientId, c))

/-- What travels on a channel. -/
def OnChannel (cfg : Config) : Party → Party → SmltMsg → Prop
  | .client core, .replica _, msg => cfg.FromClient core msg
  | .replica 0, .replica j, msg =>
    j = 1 ∧ msg.tag = ONE_ACC ∧ msg.clientId < cfg.clients.length
  | .replica 1, .replica j, msg =>
    j ≠ 1 ∧ msg.tag = ONE_LEARN ∧ msg.clientId < cfg.clients.length
  | .replica (_ + 2), .replica _, _ => False
  | .replica i, .client core, msg => i ≠ 1 ∧
    (msg.tag = SETUP_TAG → core ∈ cfg.clients → cfg.clients[msg.data4]? = some core)
  | .client _, .client _, _ => False

/-- The state of replica `i` in a run without failures, after the commands `cs`. -/
structure Steady (cfg : Config) (i : Nat) (l : OnepaxosReplicaT) (cs : List Command) : Prop where
  id : l.id = i
  core : l.currentCore = cfg.coreOf i
  level : l.level = cfg.level
  leader : l.currentLeader = 0
  acceptor : l.currentAcceptor = 1
  number : l.highestProposalNumber = 0
  table : TableAfter l.lastExecutedRid cs

private theorem steady_init (i : Nat) : Steady cfg i (initReplicaOnepaxos cfg i) [] :=
  ⟨rfl, rfl, rfl, rfl, rfl, rfl, tableAfter_nil⟩

/-- Other fields do not matter. -/
private theorem Steady.of_frame {i : Nat} {l l' : OnepaxosReplicaT} {cs : List Command}
    (h : Steady cfg i l cs) (hid : l'.id = l.id) (hcore : l'.currentCore = l.currentCore)
    (hlevel : l'.level = l.level) (hleader : l'.currentLeader = l.currentLeader)
    (hacceptor : l'.currentAcceptor = l.currentAcceptor)
    (hnumber : l'.highestProposalNumber = l.highestProposalNumber)
    (htable : l'.lastExecutedRid = l.lastExecutedRid) : Steady cfg i l' cs :=
  ⟨hid.trans h.id, hcore.trans h.core, hlevel.trans h.level, hleader.trans h.leader,
    hacceptor.trans h.acceptor, hnumber.trans h.number, htable ▸ h.table⟩

/-- The leader's responses, if it sends any, reach the client of their header. At core level
this is about the build without the key-value store. -/
def Answering (cfg : Config) (kvs : Bool) : Prop :=
  cfg.level = .node ∨ kvs = false ∧ cfg.clients = [cfg.startedFrom]

/-- The leader's response to the client of its header, or none in the KVS build. -/
theorem reply_eq (ha : Answering cfg kvs) {l : OnepaxosReplicaT} {msg : SmltMsg}
    (hl : l.level = cfg.level) (hk : msg.clientId < cfg.clients.length) :
    reply cfg kvs l msg = if kvs = false then
      (msg.withTag RESP_TAG, [.send (cfg.clientAt msg.clientId) (msg.withTag RESP_TAG)])
      else (msg, []) := by
  rw [reply, hl]
  cases hlevel : cfg.level with
  | node => cases kvs <;> simp
  | core =>
    rcases ha with hnode | ⟨hkvs, hclients⟩
    · rw [hnode] at hlevel
      cases hlevel
    · have hd : cfg.Direct := .inr hclients
      rw [if_pos hkvs, hd.clientAt_of_core hlevel hk]

variable (kvs) in
/-- The acceptor's handling of a proposal. -/
private theorem handleAccept_spec {l : OnepaxosReplicaT} {cs : List Command} {msg : SmltMsg}
    (h : Steady cfg 1 l cs) (hk : msg.clientId < MAX_NUM_CLIENTS) (ht : msg.tag = ONE_ACC) :
    ∃ (success : Bool) (l' : OnepaxosReplicaT), Steady cfg 1 l' (cs ++ [msg.command]) ∧
      l'.index = l.index + 1 ∧ l'.crashed = l.crashed ∧
      admitted (cs ++ [msg.command]) = admitted cs ++ (if success then [msg.command] else []) ∧
      messageHandlerLoop cfg kvs l msg =
        (l', sendEach (learners cfg) (learnMsg l.index msg) ++
          if success then [.exec msg.command] else []) := by
  have hmsg : msg.tag = 5 := ht
  have hk' : (learnMsg l.index msg).clientId < MAX_NUM_CLIENTS := by rwa [learnMsg_clientId]
  obtain ⟨success, table, htable, hadmit, hexec⟩ :=
    execute_spec { l with lastEntry := .message } h.table hk'
  rw [learnMsg_command] at htable hadmit hexec
  refine ⟨success, { l with lastEntry := .message, lastExecutedRid := table, index := l.index + 1 },
    ⟨h.id, h.core, h.level, h.leader, h.acceptor, h.number, htable⟩, rfl, rfl, hadmit, ?_⟩
  have hge : msg.data2 ≥ l.highestProposalNumber := by
    rw [h.number]
    exact Nat.zero_le _
  have hacc : handleAccept cfg l msg =
      ({ l with lastEntry := .message, lastExecutedRid := table, index := l.index + 1 },
        learnMsg l.index msg,
        sendEach (learners cfg) (learnMsg l.index msg) ++
          if success then [.exec msg.command] else []) := by
    unfold learnMsg at hexec ⊢
    simp only [handleAccept, if_pos hge, hexec, advance_eq]
  simp [messageHandlerLoop, messageHandlerOnepaxos, hmsg, hacc, h.id]

variable (kvs) in
/-- A learner's handling of a learn message. -/
private theorem handleLearn_spec {i : Nat} {l : OnepaxosReplicaT} {cs : List Command}
    {msg : SmltMsg} (hi : 2 ≤ i) (h : Steady cfg i l cs) (hc : l.crashed = false)
    (hk : msg.clientId < MAX_NUM_CLIENTS) (ht : msg.tag = ONE_LEARN) :
    ∃ (success : Bool) (l' : OnepaxosReplicaT), Steady cfg i l' (cs ++ [msg.command]) ∧
      l'.crashed = false ∧
      admitted (cs ++ [msg.command]) = admitted cs ++ (if success then [msg.command] else []) ∧
      messageHandlerLoop cfg kvs l msg =
        (l', (if success then [.exec msg.command] else []) ++
          if kvs ∧ msg.data3 = cfg.coreOf i then
            [.send (cfg.clientAt msg.clientId) (msg.withTag RESP_TAG)] else []) := by
  have hmsg : msg.tag = 6 := ht
  obtain ⟨success, table, htable, hadmit, hexec⟩ :=
    execute_spec { l with voted := false, change := false } h.table hk
  have hne : ¬ l.id = l.currentLeader := by
    rw [h.id, h.leader]
    omega
  refine ⟨success, { l with
      voted := false
      change := false
      lastExecutedRid := table
      index := msg.data1 + 1 },
    ⟨h.id, h.core, h.level, h.leader, h.acceptor, h.number, htable⟩, hc, hadmit, ?_⟩
  have hlearn : handleLearn cfg kvs l msg =
      ({ l with
          voted := false
          change := false
          lastExecutedRid := table
          index := msg.data1 + 1 },
        msg, if success then [.exec msg.command] else []) := by
    simp only [handleLearn, hexec, advance_eq, if_neg hne]
  have h0 : ¬ i = 0 := by omega
  have h1 : ¬ i = 1 := by omega
  simp only [messageHandlerLoop, messageHandlerOnepaxos, hmsg, hlearn]
  by_cases hreply : kvs ∧ msg.data3 = cfg.coreOf i
  · simp [hreply.1, hreply.2, h.core, h.id, hc, h0, h1]
  · have hnot : ¬ (kvs = true ∧ l.crashed = false ∧ l.id ≠ 0 ∧ l.id ≠ 1 ∧
        msg.data3 = l.currentCore) := by
      rintro ⟨hk', -, -, -, hcore⟩
      exact hreply ⟨hk', hcore.trans h.core⟩
    simp [hreply, hnot]

theorem dropLearned_cases (l : OnepaxosReplicaT) :
    dropLearned l = none ∨ ∃ heap queue,
      dropLearned l = some { l with heap := heap, entryQueue := queue } := by
  unfold dropLearned
  split
  · cases hq : entryQDequeue l.heap l.entryQueue with
    | none => exact .inl rfl
    | some r =>
      right
      rcases r with ⟨queue, _ | ele⟩
      · exact ⟨l.heap, queue, rfl⟩
      · exact ⟨l.heap.free ele, queue, rfl⟩
  · exact .inr ⟨l.heap, l.entryQueue, rfl⟩

/-- `execute` touches nothing but the table. -/
theorem execute_frame (l : OnepaxosReplicaT) (msg : SmltMsg) :
    ∃ (success : Bool) (table : ClientTable), execute l msg =
      (success, { l with lastExecutedRid := table }, if success then [.exec msg.command] else []) := by
  unfold execute
  dsimp only
  split
  · exact ⟨false, l.lastExecutedRid, rfl⟩
  · exact ⟨true, _, rfl⟩

/-- What `handle_learn` starts with. -/
abbrev unvoted (l : OnepaxosReplicaT) : OnepaxosReplicaT :=
  { l with voted := false, change := false }

/-- The state in which `handle_learn` decides whether to drop a request. -/
def learned (l : OnepaxosReplicaT) (msg : SmltMsg) : OnepaxosReplicaT :=
  advance (execute (unvoted l) msg).2.1 msg

theorem learned_eq {l : OnepaxosReplicaT} {msg : SmltMsg} {success : Bool} {table : ClientTable}
    {outs : List Out} (h : execute (unvoted l) msg =
      (success, { unvoted l with lastExecutedRid := table }, outs)) :
    learned l msg =
      { unvoted l with lastExecutedRid := table, index := msg.data1 + 1 } := by
  rw [learned, h, advance_eq]

variable (cfg) (kvs) in
/-- A leader that cannot drop a request goes down after the execution. -/
theorem handleLearn_none {l : OnepaxosReplicaT} {msg : SmltMsg}
    (hleader : (learned l msg).id = (learned l msg).currentLeader)
    (hdrop : dropLearned (learned l msg) = none) :
    (handleLearn cfg kvs l msg).1 = { learned l msg with crashed := true } ∧
      (handleLearn cfg kvs l msg).2.2 = (execute (unvoted l) msg).2.2 := by
  unfold learned at hleader hdrop ⊢
  unfold handleLearn
  dsimp only
  rw [if_pos hleader, hdrop]
  exact ⟨rfl, rfl⟩

variable (cfg) (kvs) in
/-- A leader that goes on answers what it has executed. -/
theorem handleLearn_some {l l' : OnepaxosReplicaT} {msg : SmltMsg}
    (hleader : (learned l msg).id = (learned l msg).currentLeader)
    (hdrop : dropLearned (learned l msg) = some l') :
    (handleLearn cfg kvs l msg).1 = l' ∧
      (handleLearn cfg kvs l msg).2.2 = (execute (unvoted l) msg).2.2 ++
        if (execute (unvoted l) msg).1 then (reply cfg kvs l' msg).2 else [] := by
  unfold learned at hleader hdrop
  unfold handleLearn
  dsimp only
  rw [if_pos hleader, hdrop]
  dsimp only
  split
  · exact ⟨rfl, rfl⟩
  · exact ⟨rfl, (List.append_nil _).symm⟩

variable (kvs) in
theorem messageHandlerLoop_learn {l : OnepaxosReplicaT} {msg : SmltMsg} (hid : l.id = 0)
    (ht : msg.tag = ONE_LEARN) : messageHandlerLoop cfg kvs l msg =
      ((handleLearn cfg kvs l msg).1, (handleLearn cfg kvs l msg).2.2) := by
  have hmsg : msg.tag = 6 := ht
  simp [messageHandlerLoop, messageHandlerOnepaxos, hmsg, hid]

variable (kvs) in
theorem messageHandlerLoop_request {l : OnepaxosReplicaT} {msg : SmltMsg} (hid : l.id = 0)
    (ht : msg.tag = REQ_TAG) : messageHandlerLoop cfg kvs l msg =
      ((handleRequest cfg l msg).1, (handleRequest cfg l msg).2.2) := by
  have hmsg : msg.tag = 1 := ht
  simp [messageHandlerLoop, messageHandlerOnepaxos, hmsg, hid]

variable (kvs) in
/-- The leader's handling of a learn message: it may go down over its queue, and
otherwise answers what it executes, except in the KVS build. -/
private theorem handleLearn_leader (ha : Answering cfg kvs) {l : OnepaxosReplicaT}
    {cs : List Command} {msg : SmltMsg} (h : Steady cfg 0 l cs)
    (hmax : cfg.clients.length ≤ MAX_NUM_CLIENTS) (hk : msg.clientId < cfg.clients.length)
    (ht : msg.tag = ONE_LEARN) :
    ∃ (success : Bool) (l' : OnepaxosReplicaT) (resp : List Out),
      Steady cfg 0 l' (cs ++ [msg.command]) ∧
      admitted (cs ++ [msg.command]) = admitted cs ++ (if success then [msg.command] else []) ∧
      (resp = [] ∨ kvs = false ∧ success = true ∧
        resp = [.send (cfg.clientAt msg.clientId) (msg.withTag RESP_TAG)]) ∧
      messageHandlerLoop cfg kvs l msg =
        (l', (if success then [.exec msg.command] else []) ++ resp) := by
  obtain ⟨success, table, htable, hadmit, hexec⟩ :=
    execute_spec (unvoted l) h.table (hk.trans_le hmax)
  have hsteady : Steady cfg 0 (learned l msg) (cs ++ [msg.command]) := by
    rw [learned_eq hexec]
    exact ⟨h.id, h.core, h.level, h.leader, h.acceptor, h.number, htable⟩
  have hleader : (learned l msg).id = (learned l msg).currentLeader :=
    hsteady.id.trans hsteady.leader.symm
  rw [messageHandlerLoop_learn kvs h.id ht]
  rcases dropLearned_cases (learned l msg) with hdrop | ⟨heap, queue, hdrop⟩
  · obtain ⟨hstate, hout⟩ := handleLearn_none cfg kvs hleader hdrop
    rw [hstate, hout, hexec]
    generalize learned l msg = m at hsteady
    exact ⟨success, { m with crashed := true }, [],
      hsteady.of_frame rfl rfl rfl rfl rfl rfl rfl, hadmit, .inl rfl,
      Prod.ext rfl (List.append_nil _).symm⟩
  · obtain ⟨hstate, hout⟩ := handleLearn_some cfg kvs hleader hdrop
    rw [hstate, hout, hexec]
    generalize learned l msg = m at hsteady
    have hsteady' : Steady cfg 0 { m with heap := heap, entryQueue := queue }
        (cs ++ [msg.command]) := hsteady.of_frame rfl rfl rfl rfl rfl rfl rfl
    rw [reply_eq ha hsteady'.level hk]
    refine ⟨success, _, _, hsteady', hadmit, ?_, rfl⟩
    cases success <;> cases kvs <;> simp

variable (kvs) in
/-- The leader's handling of a request: it may go down over its queue before it proposes. -/
private theorem handleRequest_leader {l : OnepaxosReplicaT} {cs : List Command} {msg : SmltMsg}
    (h : Steady cfg 0 l cs) (ht : msg.tag = REQ_TAG) :
    ∃ (l' : OnepaxosReplicaT) (outs : List Out), Steady cfg 0 l' cs ∧
      (outs = [] ∨ outs = [.send (.replica 1) (msg.withTag ONE_ACC)]) ∧
      messageHandlerLoop cfg kvs l msg = (l', outs) := by
  have hleader : l.id = l.currentLeader := h.id.trans h.leader.symm
  rw [messageHandlerLoop_request kvs h.id ht, handleRequest, if_pos hleader]
  obtain ⟨hid, hcore, hlevel, hlead, hacc, hnum, htable⟩ := h
  dsimp only
  cases hq : entryQEnqueue (l.heap.alloc .message).1 l.entryQueue (l.heap.alloc .message).2 with
  | none =>
    refine ⟨{ l with crashed := true }, [], ?_, .inl rfl, rfl⟩
    exact ⟨hid, hcore, hlevel, hlead, hacc, hnum, htable⟩
  | some r =>
    refine ⟨{ l with
        heap := r.1
        entryQueue := r.2
        proposalIndex := l.proposalIndex + 1 }, _, ?_, .inr ?_, rfl⟩
    · exact ⟨hid, hcore, hlevel, hlead, hacc, hnum, htable⟩
    · dsimp only
      rw [hacc]

/-- The acceptor beside its history. -/
structure Acceptor (cfg : Config) (l : OnepaxosReplicaT) (t : List Ev) : Prop where
  steady : Steady cfg 1 l ((receivedFrom (.replica 0) t).map SmltMsg.command)
  alive : l.crashed = false
  index : l.index = (receivedFrom (.replica 0) t).length
  history : AcceptorHistory cfg t

/-- A learner beside its history. -/
structure Learner (cfg : Config) (kvs : Bool) (i : Nat) (l : OnepaxosReplicaT)
    (t : List Ev) : Prop where
  steady : Steady cfg i l ((receivedFrom (.replica 1) t).map SmltMsg.command)
  alive : l.crashed = false
  history : LearnerHistory cfg kvs i t

/-- The leader beside its history. -/
structure Leader (cfg : Config) (kvs : Bool) (l : OnepaxosReplicaT) (t : List Ev) :
    Prop where
  steady : Steady cfg 0 l ((receivedFrom (.replica 1) t).map SmltMsg.command)
  proposals : l.crashed = false →
    sentTo (.replica 1) t = (requests t).map fun x => x.2.withTag ONE_ACC
  history : LeaderHistory cfg kvs t

variable (kvs) in
/-- A proposal at the acceptor. -/
private theorem acceptor_step {t : List Ev} {l : OnepaxosReplicaT} {msg : SmltMsg}
    (h : Acceptor cfg l t) (ht : msg.tag = ONE_ACC) (hk : msg.clientId < cfg.clients.length)
    (hmax : cfg.clients.length ≤ MAX_NUM_CLIENTS) :
    Acceptor cfg (messageHandlerLoop cfg kvs l msg).1
      (t ++ .recv (.replica 0) msg :: (messageHandlerLoop cfg kvs l msg).2.map .out) ∧
    ∀ dst m, .send dst m ∈ (messageHandlerLoop cfg kvs l msg).2 →
      OnChannel cfg (.replica 1) dst m := by
  obtain ⟨hsteady, halive, hindex, hlearns, hexec, hsilent⟩ := h
  obtain ⟨success, l', hsteady', hindex', halive', hadmit, heq⟩ :=
    handleAccept_spec kvs hsteady (hk.trans_le hmax) ht
  rw [heq]
  constructor
  · refine ⟨?_, halive'.trans halive, ?_, ?_, ?_, ?_⟩
    · simpa using hsteady'
    · simp [hindex', hindex]
    · intro j hj hn
      have hl := hlearns j hj hn
      cases success <;> simp [hl, hj, hn, hindex, List.mapIdx_concat]
    · have hcs : (receivedFrom (.replica 0) t ++ [msg]).map SmltMsg.command =
          (receivedFrom (.replica 0) t).map SmltMsg.command ++ [msg.command] := by simp
      rw [receivedFrom_step, hcs, hadmit]
      cases success <;> simp [hexec]
    · intro core
      have hs := hsilent core
      cases success <;> simp [hs]
  · intro dst m hm
    rw [List.mem_append, mem_sendEach] at hm
    rcases hm with ⟨rfl, j, hj, rfl⟩ | hm
    · exact ⟨(mem_learners.mp hj).2, learnMsg_tag _ _, by rwa [learnMsg_clientId]⟩
    · cases success <;> simp at hm

/-- A learn message at a learner. -/
private theorem learner_step {t : List Ev} {i : Nat} {l : OnepaxosReplicaT} {msg : SmltMsg}
    (hi : 2 ≤ i) (h : Learner cfg kvs i l t) (ht : msg.tag = ONE_LEARN)
    (hk : msg.clientId < cfg.clients.length) (hmax : cfg.clients.length ≤ MAX_NUM_CLIENTS) :
    Learner cfg kvs i (messageHandlerLoop cfg kvs l msg).1
      (t ++ .recv (.replica 1) msg :: (messageHandlerLoop cfg kvs l msg).2.map .out) ∧
    ∀ dst m, .send dst m ∈ (messageHandlerLoop cfg kvs l msg).2 →
      dst = cfg.clientAt msg.clientId ∧ m.tag = RESP_TAG := by
  obtain ⟨hsteady, halive, hexec, hreplies⟩ := h
  obtain ⟨success, l', hsteady', halive', hadmit, heq⟩ :=
    handleLearn_spec kvs hi hsteady halive (hk.trans_le hmax) ht
  rw [heq]
  constructor
  · refine ⟨?_, halive', ?_, ?_⟩
    · simpa using hsteady'
    · have hcs : (receivedFrom (.replica 1) t ++ [msg]).map SmltMsg.command =
          (receivedFrom (.replica 1) t).map SmltMsg.command ++ [msg.command] := by simp
      rw [receivedFrom_step, hcs, hadmit]
      cases success <;> by_cases hr : kvs = true ∧ msg.data3 = cfg.coreOf i <;>
        simp [hexec, hr]
    · by_cases hkvs : kvs = true
      · simp only [hkvs, if_true] at hreplies
        by_cases hcore : msg.data3 = cfg.coreOf i
        · cases success <;> simp [hreplies, hkvs, hcore]
        · cases success <;> simp [hreplies, hkvs, hcore]
      · simp only [hkvs, Bool.false_eq_true, if_false] at hreplies
        cases success <;> simp [hreplies, hkvs]
  · intro dst m hm
    by_cases hr : kvs = true ∧ msg.data3 = cfg.coreOf i
    · have hmem : (.send dst m : Out) ∈
          ([.send (cfg.clientAt msg.clientId) (msg.withTag RESP_TAG)] : List Out) := by
        cases success <;> simpa [hr] using hm
      simp only [List.mem_singleton, Output.send.injEq] at hmem
      obtain ⟨rfl, rfl⟩ := hmem
      exact ⟨rfl, SmltMsg.tag_withTag _ _⟩
    · cases success <;> simp [hr] at hm

theorem acceptor_init : Acceptor cfg (initReplicaOnepaxos cfg 1) [] :=
  ⟨steady_init 1, rfl, rfl, fun _ _ _ => rfl, rfl, fun _ => rfl⟩

theorem learner_init (i : Nat) : Learner cfg kvs i (initReplicaOnepaxos cfg i) [] := by
  refine ⟨steady_init i, rfl, rfl, ?_⟩
  cases kvs <;> rfl

/-- What the acceptor polls comes from the leader. -/
theorem acceptor_turn {t : List Ev} {l : OnepaxosReplicaT} {src : Party} {msg : SmltMsg}
    (h : Acceptor cfg l t) (hp : polls cfg l src = true) (hm : OnChannel cfg src (.replica 1) msg)
    (hmax : cfg.clients.length ≤ MAX_NUM_CLIENTS) :
    Acceptor cfg (messageHandlerLoop cfg kvs l msg).1
      (t ++ .recv src msg :: (messageHandlerLoop cfg kvs l msg).2.map .out) ∧
    ∀ dst m, .send dst m ∈ (messageHandlerLoop cfg kvs l msg).2 →
      OnChannel cfg (.replica 1) dst m := by
  have hsrc : src = .replica 0 := by
    by_contra hne
    simp [polls, h.steady.id, h.steady.leader, hne] at hp
  subst hsrc
  exact acceptor_step kvs h hm.2.1 hm.2.2 hmax

private theorem learner_polls {i : Nat} {l : OnepaxosReplicaT} {cs : List Command} {src : Party}
    (hi : 2 ≤ i) (h : Steady cfg i l cs) (hp : polls cfg l src = true) : src = .replica 1 := by
  have h0 : ¬ i = 0 := by omega
  have h1 : ¬ i = 1 := by omega
  by_contra hne
  simp [polls, h.id, h.acceptor, hne, h0, h1] at hp

/-- What a learner polls comes from the acceptor. -/
theorem learner_turn {t : List Ev} {i : Nat} {l : OnepaxosReplicaT} {src : Party} {msg : SmltMsg}
    (hi : 2 ≤ i) (h : Learner cfg kvs i l t) (hp : polls cfg l src = true)
    (hm : OnChannel cfg src (.replica i) msg) (hmax : cfg.clients.length ≤ MAX_NUM_CLIENTS) :
    Learner cfg kvs i (messageHandlerLoop cfg kvs l msg).1
      (t ++ .recv src msg :: (messageHandlerLoop cfg kvs l msg).2.map .out) ∧
    ∀ dst m, .send dst m ∈ (messageHandlerLoop cfg kvs l msg).2 →
      OnChannel cfg (.replica i) dst m := by
  have hsrc := learner_polls hi h.steady hp
  subst hsrc
  obtain ⟨hlearner, hsend⟩ := learner_step hi h hm.2.1 hm.2.2 hmax
  refine ⟨hlearner, fun dst m hs => ?_⟩
  obtain ⟨rfl, htag⟩ := hsend dst m hs
  obtain ⟨i, rfl⟩ := Nat.exists_eq_add_of_le' hi
  exact ⟨by omega, fun hset => by simp [htag] at hset⟩

/-- The leader's reply goes to a client. -/
theorem reply_client (l : OnepaxosReplicaT) (msg : SmltMsg) :
    (reply cfg kvs l msg).2 = [] ∨
      ∃ core, (reply cfg kvs l msg).2 = [.send (.client core) (msg.withTag RESP_TAG)] := by
  unfold reply
  cases l.level with
  | node =>
    cases kvs with
    | true => exact .inl rfl
    | false => exact .inr ⟨_, rfl⟩
  | core => exact .inr ⟨_, rfl⟩

/-- The leader beside its history, whatever it answers. -/
structure Proposer (l : OnepaxosReplicaT) (t : List Ev) : Prop where
  id : l.id = 0
  leader : l.currentLeader = 0
  acceptor : l.currentAcceptor = 1
  proposals : sentTo (.replica 1) t <+: (requests t).map fun x => x.2.withTag ONE_ACC
  all_proposed : l.crashed = false →
    sentTo (.replica 1) t = (requests t).map fun x => x.2.withTag ONE_ACC

theorem proposer_init : Proposer (initReplicaOnepaxos cfg 0) [] :=
  ⟨rfl, rfl, rfl, List.nil_prefix, fun _ => rfl⟩

/-- What a step of the leader has to keep. -/
def ProposerStep (cfg : Config) (kvs : Bool) (l : OnepaxosReplicaT) (t : List Ev) (src : Party)
    (msg : SmltMsg) : Prop :=
  Proposer (messageHandlerLoop cfg kvs l msg).1
    (t ++ .recv src msg :: (messageHandlerLoop cfg kvs l msg).2.map .out) ∧
  ∀ dst m, .send dst m ∈ (messageHandlerLoop cfg kvs l msg).2 → OnChannel cfg (.replica 0) dst m

/-- A learn message at the leader: the replies, if any, go to a client. -/
private theorem proposer_learn {t : List Ev} {l : OnepaxosReplicaT} {msg : SmltMsg}
    (h : Proposer l t) (hc : l.crashed = false) (ht : msg.tag = ONE_LEARN) :
    ProposerStep cfg kvs l t (.replica 1) msg := by
  have hmsg : msg.tag = 6 := ht
  have hsent := h.all_proposed hc
  obtain ⟨success, table, hexec⟩ := execute_frame (unvoted l) msg
  have hlearned := learned_eq hexec
  have hleader : (learned l msg).id = (learned l msg).currentLeader := by
    rw [hlearned]
    exact h.id.trans h.leader.symm
  obtain ⟨l', resp, hframe, hresp, heq⟩ : ∃ (l' : OnepaxosReplicaT) (resp : List Out),
      (l'.id = (learned l msg).id ∧ l'.currentLeader = (learned l msg).currentLeader ∧
        l'.currentAcceptor = (learned l msg).currentAcceptor) ∧
      (resp = [] ∨ ∃ core, resp = [.send (.client core) (msg.withTag RESP_TAG)]) ∧
      messageHandlerLoop cfg kvs l msg =
        (l', (if success then [.exec msg.command] else []) ++ resp) := by
    rw [messageHandlerLoop_learn kvs h.id ht]
    rcases dropLearned_cases (learned l msg) with hdrop | ⟨heap, queue, hdrop⟩
    · obtain ⟨hstate, hout⟩ := handleLearn_none cfg kvs hleader hdrop
      rw [hstate, hout, hexec]
      generalize learned l msg = m
      exact ⟨{ m with crashed := true }, [], ⟨rfl, rfl, rfl⟩, .inl rfl,
        Prod.ext rfl (List.append_nil _).symm⟩
    · obtain ⟨hstate, hout⟩ := handleLearn_some cfg kvs hleader hdrop
      rw [hstate, hout, hexec]
      generalize learned l msg = m
      refine ⟨{ m with heap := heap, entryQueue := queue }, _, ⟨rfl, rfl, rfl⟩, ?_, rfl⟩
      cases success with
      | false => exact .inl rfl
      | true => exact reply_client _ msg
  rw [hlearned] at hframe
  have hid : l'.id = 0 := hframe.1.trans h.id
  have hlead : l'.currentLeader = 0 := hframe.2.1.trans h.leader
  have hacc : l'.currentAcceptor = 1 := hframe.2.2.trans h.acceptor
  rw [ProposerStep, heq]
  have hnew : sentTo (.replica 1) (t ++ .recv (.replica 1) msg ::
      ((if success then [.exec msg.command] else []) ++ resp : List Out).map .out) =
        (requests (t ++ .recv (.replica 1) msg ::
          ((if success then [.exec msg.command] else []) ++ resp : List Out).map .out)).map
            fun x => x.2.withTag ONE_ACC := by
    rcases hresp with rfl | ⟨core, rfl⟩
    · cases success <;> simp [hsent, hmsg]
    · cases success <;> simp [hsent, hmsg]
  refine ⟨⟨hid, hlead, hacc, ⟨[], (List.append_nil _).trans hnew⟩, fun _ => hnew⟩, ?_⟩
  intro dst m hm
  have hmem : (.send dst m : Out) ∈ resp := by
    cases success <;> simpa using hm
  rcases hresp with rfl | ⟨core, rfl⟩
  · simp at hmem
  · simp only [List.mem_singleton, Output.send.injEq] at hmem
    obtain ⟨rfl, rfl⟩ := hmem
    exact ⟨Nat.zero_ne_one, fun hset => by simp at hset⟩

/-- A request at the leader is proposed unless the leader goes down over its queue. -/
private theorem proposer_request {t : List Ev} {l : OnepaxosReplicaT} {core : Nat} {msg : SmltMsg}
    (h : Proposer l t) (hc : l.crashed = false) (ht : msg.tag = REQ_TAG)
    (hclient : cfg.clients[msg.clientId]? = some core) :
    ProposerStep cfg kvs l t (.client core) msg := by
  have hmsg : msg.tag = 1 := ht
  have hsent := h.all_proposed hc
  have hleader : l.id = l.currentLeader := h.id.trans h.leader.symm
  rw [ProposerStep, messageHandlerLoop_request kvs h.id ht, handleRequest, if_pos hleader]
  dsimp only
  cases hq : entryQEnqueue (l.heap.alloc .message).1 l.entryQueue (l.heap.alloc .message).2 with
  | none =>
    constructor
    · refine ⟨h.id, h.leader, h.acceptor, ?_, fun halive => ?_⟩
      · simp [OnepaxosReplicaT.crash, hsent, hmsg]
      · cases halive
    · intro dst m hm
      cases hm
  | some r =>
    have hnew : sentTo (.replica 1) (t ++ .recv (.client core) msg ::
        ([.send (.replica l.currentAcceptor) (msg.withTag ONE_ACC)] : List Out).map .out) =
          (requests (t ++ .recv (.client core) msg ::
            ([.send (.replica l.currentAcceptor) (msg.withTag ONE_ACC)] : List Out).map .out)).map
              fun x => x.2.withTag ONE_ACC := by
      simp [hsent, hmsg, h.acceptor]
    refine ⟨⟨h.id, h.leader, h.acceptor, ⟨[], (List.append_nil _).trans hnew⟩, fun _ => hnew⟩, ?_⟩
    intro dst m hm
    simp only [List.mem_singleton, Output.send.injEq] at hm
    obtain ⟨rfl, rfl⟩ := hm
    refine ⟨h.acceptor, SmltMsg.tag_withTag _ _, ?_⟩
    rw [SmltMsg.clientId_withTag]
    exact (List.getElem?_eq_some_iff.mp hclient).1

variable (kvs) in
theorem messageHandlerLoop_setup {l : OnepaxosReplicaT} {msg : SmltMsg} (hid : l.id = 0)
    (hs : msg.tag = SETUP_TAG) : messageHandlerLoop cfg kvs l msg = (l, handleSetup cfg msg) := by
  have hmsg : msg.tag = 0 := hs
  simp [messageHandlerLoop, messageHandlerOnepaxos, hmsg, hid]

/-- A setup message at the leader. -/
private theorem proposer_setup {t : List Ev} {l : OnepaxosReplicaT} {core : Nat} {msg : SmltMsg}
    (h : Proposer l t) (hs : msg.tag = SETUP_TAG) :
    ProposerStep cfg kvs l t (.client core) msg := by
  have hmsg : msg.tag = 0 := hs
  rw [ProposerStep, messageHandlerLoop_setup kvs h.id hs]
  constructor
  · refine ⟨h.id, h.leader, h.acceptor, ?_, fun hc => ?_⟩
    · simpa [handleSetup, hmsg] using h.proposals
    · simpa [handleSetup, hmsg] using h.all_proposed hc
  · intro dst m hm
    simp only [handleSetup, List.mem_singleton, Output.send.injEq] at hm
    obtain ⟨rfl, rfl⟩ := hm
    refine ⟨Nat.zero_ne_one, fun _ hcore => ?_⟩
    obtain ⟨cid, hcid⟩ := List.mem_iff_getElem?.mp hcore
    rw [setupReply_data4 hcid, hcid]

/-- One message at the leader. -/
theorem proposer_step {t : List Ev} {l : OnepaxosReplicaT} {src : Party} {msg : SmltMsg}
    (h : Proposer l t) (hp : polls cfg l src = true) (hm : OnChannel cfg src (.replica 0) msg) :
    ProposerStep cfg kvs l t src msg := by
  have halive : l.crashed = false := by
    cases hc : l.crashed with
    | false => rfl
    | true => simp [polls, hc] at hp
  rcases src with (_ | _ | j) | core
  · simp [polls, halive, h.id] at hp
  · exact proposer_learn h halive hm.2.1
  · exact hm.elim
  · rcases hm with ⟨hr, hclient⟩ | ⟨hs, -⟩
    · exact proposer_request h halive hr hclient
    · exact proposer_setup h hs

/-- The leader beside what it has executed and answered. -/
private structure Replier (cfg : Config) (kvs : Bool) (l : OnepaxosReplicaT) (t : List Ev) :
    Prop where
  steady : Steady cfg 0 l ((receivedFrom (.replica 1) t).map SmltMsg.command)
  executed_eq : executed t = admitted ((receivedFrom (.replica 1) t).map SmltMsg.command)
  ownRequests : OwnRequests cfg t
  responses : ((responses t).map fun x => (x.1, x.2.command)).Sublist
    (if kvs then [] else
      (executed t).map fun c => (cfg.clientAt c.clientId, c))

private theorem Leader.proposer {l : OnepaxosReplicaT} {t : List Ev} (h : Leader cfg kvs l t) :
    Proposer l t :=
  ⟨h.steady.id, h.steady.leader, h.steady.acceptor, h.history.proposals, h.proposals⟩

private theorem Leader.replier {l : OnepaxosReplicaT} {t : List Ev} (h : Leader cfg kvs l t) :
    Replier cfg kvs l t :=
  ⟨h.steady, h.history.executed_eq, h.history.ownRequests, h.history.responses⟩

private theorem Replier.leader {l : OnepaxosReplicaT} {t : List Ev} (h : Replier cfg kvs l t)
    (hp : Proposer l t) : Leader cfg kvs l t :=
  ⟨h.steady, hp.all_proposed,
    ⟨h.executed_eq, h.ownRequests, hp.proposals, h.responses⟩⟩

/-- What a handler of the leader makes of its history. -/
private def ReplierStep (cfg : Config) (kvs : Bool) (l : OnepaxosReplicaT) (t : List Ev)
    (src : Party) (msg : SmltMsg) : Prop :=
  Replier cfg kvs (messageHandlerLoop cfg kvs l msg).1
    (t ++ .recv src msg :: (messageHandlerLoop cfg kvs l msg).2.map .out)

private theorem replier_setup {t : List Ev} {l : OnepaxosReplicaT} {core : Nat} {msg : SmltMsg}
    (h : Replier cfg kvs l t) (hs : msg.tag = SETUP_TAG) :
    ReplierStep cfg kvs l t (.client core) msg := by
  obtain ⟨hsteady, hexec, hown, hresp⟩ := h
  have hmsg : msg.tag = 0 := hs
  rw [ReplierStep, messageHandlerLoop_setup kvs hsteady.id hs]
  refine ⟨?_, ?_, ?_, ?_⟩
  · simpa using hsteady
  · simpa [handleSetup] using hexec
  · refine hown.append ?_
    simp [OwnRequests, hmsg]
  · simpa [handleSetup, hmsg, responses] using hresp

/-- A request is not answered yet. -/
private theorem replier_request {t : List Ev} {l : OnepaxosReplicaT} {core : Nat} {msg : SmltMsg}
    (h : Replier cfg kvs l t) (hr : msg.tag = REQ_TAG)
    (hclient : cfg.clients[msg.clientId]? = some core) :
    ReplierStep cfg kvs l t (.client core) msg := by
  obtain ⟨hsteady, hexec, hown, hresp⟩ := h
  have hmsg : msg.tag = 1 := hr
  obtain ⟨l', outs, hsteady', houts, heq⟩ := handleRequest_leader kvs hsteady hr
  rw [ReplierStep, heq]
  have hown' : OwnRequests cfg (t ++ .recv (.client core) msg :: outs.map .out) := by
    refine hown.append ?_
    simp [OwnRequests, hmsg, hclient]
  rcases houts with rfl | rfl
  · refine ⟨?_, ?_, hown', ?_⟩
    · simpa using hsteady'
    · simpa using hexec
    · simpa [responses] using hresp
  · refine ⟨?_, ?_, hown', ?_⟩
    · simpa using hsteady'
    · simpa using hexec
    · simpa [responses] using hresp

/-- What the leader executes it may answer. -/
private theorem replier_learn (ha : Answering cfg kvs) {t : List Ev} {l : OnepaxosReplicaT}
    {msg : SmltMsg} (h : Replier cfg kvs l t) (ht : msg.tag = ONE_LEARN)
    (hk : msg.clientId < cfg.clients.length) (hmax : cfg.clients.length ≤ MAX_NUM_CLIENTS) :
    ReplierStep cfg kvs l t (.replica 1) msg := by
  obtain ⟨hsteady, hexec, hown, hresp⟩ := h
  have hmsg : msg.tag = 6 := ht
  obtain ⟨success, l', resp, hsteady', hadmit, hout, heq⟩ :=
    handleLearn_leader kvs ha hsteady hmax hk ht
  rw [ReplierStep, heq]
  have hcs : (receivedFrom (.replica 1) t ++ [msg]).map SmltMsg.command =
      (receivedFrom (.replica 1) t).map SmltMsg.command ++ [msg.command] := by simp
  refine ⟨?_, ?_, ?_, ?_⟩
  · simpa using hsteady'
  · rw [receivedFrom_step, hcs, hadmit]
    rcases hout with rfl | ⟨-, rfl, rfl⟩
    · cases success <;> simp [hexec]
    · simp [hexec]
  · refine hown.append ?_
    simp [OwnRequests, hmsg]
  · rcases hout with rfl | ⟨rfl, rfl, rfl⟩
    · have hsame : responses (t ++ .recv (.replica 1) msg ::
          ((if success then [.exec msg.command] else []) ++ [] : List Out).map .out) =
            responses t := by
        cases success <;> simp [responses]
      rw [hsame]
      refine hresp.trans ?_
      cases kvs
      · cases success <;> simp
      · simp
    · simp only [Bool.false_eq_true, if_false] at hresp
      have hnewResp : responses [(.recv (.replica 1) msg : Ev), .out (.exec msg.command),
          .out (.send (cfg.clientAt msg.clientId) (msg.withTag RESP_TAG))] =
            [(cfg.clientAt msg.clientId, msg.withTag RESP_TAG)] := by
        simp [responses]
      have hcid : msg.command.clientId = msg.clientId := rfl
      simp only [if_true, List.cons_append, List.nil_append, List.map_cons, List.map_nil,
        responses_append, hnewResp, List.map_append, executed_append, executed_recv,
        executed_exec, executed_send, executed_nil, SmltMsg.command_withTag,
        Bool.false_eq_true, if_false, hcid]
      exact hresp.append (List.Sublist.refl _)

/-- One message at the leader: what it proposes is apart from what it answers. -/
private theorem leader_step (ha : Answering cfg kvs) {t : List Ev} {l : OnepaxosReplicaT}
    {src : Party} {msg : SmltMsg} (hmax : cfg.clients.length ≤ MAX_NUM_CLIENTS)
    (h : Leader cfg kvs l t) (hp : polls cfg l src = true)
    (hm : OnChannel cfg src (.replica 0) msg) :
    Leader cfg kvs (messageHandlerLoop cfg kvs l msg).1
      (t ++ .recv src msg :: (messageHandlerLoop cfg kvs l msg).2.map .out) ∧
    ∀ dst m, .send dst m ∈ (messageHandlerLoop cfg kvs l msg).2 →
      OnChannel cfg (.replica 0) dst m := by
  have hstep : ProposerStep cfg kvs l t src msg := proposer_step h.proposer hp hm
  obtain ⟨hproposer, hchan⟩ := hstep
  refine ⟨Replier.leader ?_ hproposer, hchan⟩
  rcases src with (_ | _ | j) | core
  · unfold polls at hp
    split_ifs at hp with hc hid
    · simp at hp
    · exact absurd h.steady.id hid
    · exact absurd h.steady.id hid
  · exact replier_learn ha h.replier hm.2.1 hm.2.2 hmax
  · exact hm.elim
  · rcases hm with ⟨hr, hclient⟩ | ⟨hs, -⟩
    · exact replier_request h.replier hr hclient
    · exact replier_setup h.replier hs

/-- The states and histories of all replicas, and what travels on the channels. -/
theorem parties {C : ClientProc cfg} (ha : Answering cfg kvs)
    (hmax : cfg.clients.length ≤ MAX_NUM_CLIENTS)
    {s : Net (cluster (onepaxosReplica cfg kvs) C)} (h : s.Reachable) :
    Leader cfg kvs (s.loc (.replica 0)) (s.trace (.replica 0)) ∧
      Acceptor cfg (s.loc (.replica 1)) (s.trace (.replica 1)) ∧
      (∀ i, 2 ≤ i → Learner cfg kvs i (s.loc (.replica i)) (s.trace (.replica i))) ∧
      ∀ p q, ∀ m ∈ sentTo q (s.trace p), OnChannel cfg p q m := by
  have key := replica_invariant
    (fun i (l : OnepaxosReplicaT) t => (i = 0 → Leader cfg kvs l t) ∧
      (i = 1 → Acceptor cfg l t) ∧ (2 ≤ i → Learner cfg kvs i l t)) (OnChannel cfg) ?_ ?_ ?_ h
  · exact ⟨(key.1 0).1 rfl, (key.1 1).2.1 rfl, fun i => (key.1 i).2.2, key.2⟩
  · intro i
    refine ⟨?_, ?_, fun _ => learner_init i⟩
    · rintro rfl
      refine ⟨steady_init 0, fun _ => rfl, rfl, ?_, List.nil_prefix, List.nil_sublist _⟩
      intro x hx
      simp at hx
    · rintro rfl
      exact acceptor_init
  · exact fun _ _ hm => hm
  · rintro i l t src msg ⟨h0, h1, h2⟩ hp hm
    rcases i with _ | _ | i
    · obtain ⟨hleader, hchan⟩ := leader_step ha hmax (h0 rfl) hp hm
      exact ⟨⟨fun _ => hleader, by omega, by omega⟩, hchan⟩
    · obtain ⟨hacceptor, hchan⟩ := acceptor_turn (h1 rfl) hp hm hmax
      exact ⟨⟨by omega, fun _ => hacceptor, by omega⟩, hchan⟩
    · obtain ⟨hlearner, hchan⟩ := learner_turn (by omega) (h2 (by omega)) hp hm hmax
      exact ⟨⟨by omega, by omega, fun _ => hlearner⟩, hchan⟩

theorem histories {C : ClientProc cfg} (hl : cfg.level = .node)
    (hmax : cfg.clients.length ≤ MAX_NUM_CLIENTS)
    {s : Net (cluster (onepaxosReplica cfg kvs) C)} (h : s.Reachable) :
    LeaderHistory cfg kvs (s.trace (.replica 0)) ∧ AcceptorHistory cfg (s.trace (.replica 1)) ∧
      (∀ i, 2 ≤ i → LearnerHistory cfg kvs i (s.trace (.replica i))) ∧
      ∀ p q, ∀ m ∈ sentTo q (s.trace p), OnChannel cfg p q m := by
  obtain ⟨hlead, hacc, hlearn, hchan⟩ := parties (.inl hl) hmax h
  exact ⟨hlead.history, hacc.history, fun i hi => (hlearn i hi).history, hchan⟩

/-- The answers of learner `i` to the learn messages `ms`, in the KVS build. -/
def answersTo (cfg : Config) (i : Nat) (ms : List SmltMsg) : List (Party × SmltMsg) :=
  (ms.filter (·.data3 = cfg.coreOf i)).map fun m =>
    (cfg.clientAt m.clientId, m.withTag RESP_TAG)

/-- Wherever a learner's handler is cut, it has executed some of the learn messages and
answered none but these. -/
def ExecutesFirst (cfg : Config) (i : Nat) (t : List Ev) : Prop :=
  ∃ ms, ms <+: receivedFrom (.replica 1) t ∧ executed t = admitted (ms.map SmltMsg.command) ∧
    sends t <+: answersTo cfg i ms

/-- When the handler has returned, these are all that were received. -/
private theorem Learner.executesFirst {i : Nat} {l : OnepaxosReplicaT} {t : List Ev}
    (h : Learner cfg true i l t) : ExecutesFirst cfg i t :=
  ⟨_, List.prefix_rfl, h.history.executed_eq, h.history.replies.symm ▸ List.prefix_rfl⟩

/-- A handler that executes before anything else: wherever it is cut, its execution is done
or nothing is. -/
private theorem executed_cut {success : Bool} {c : Command} {resp os : List Out}
    (hresp : executed (resp.map .out : List Ev) = [])
    (h : os <+: (if success then [.exec c] else []) ++ resp) :
    os = [] ∨ executed (os.map .out : List Ev) = if success then [c] else [] := by
  have hnone : ∀ ps, ps <+: resp → executed (ps.map .out : List Ev) = [] := by
    rintro ps ⟨rest, rfl⟩
    rw [List.map_append, executed_append, List.append_eq_nil_iff] at hresp
    exact hresp.1
  cases success with
  | false => exact .inr (hnone os h)
  | true =>
    rcases List.prefix_cons_iff.mp h with rfl | ⟨ps, rfl, hps⟩
    · exact .inl rfl
    · right
      rw [List.map_cons, executed_exec, hnone ps hps]
      rfl

/-- A learn message, up to any point of its handler. -/
private theorem learner_cut {t : List Ev} {i : Nat} {l : OnepaxosReplicaT} {msg : SmltMsg}
    (hi : 2 ≤ i) (h : Learner cfg true i l t) (ht : msg.tag = ONE_LEARN)
    (hk : msg.clientId < cfg.clients.length) (hmax : cfg.clients.length ≤ MAX_NUM_CLIENTS)
    {os : List Out} (hos : os <+: (messageHandlerLoop cfg true l msg).2) :
    ExecutesFirst cfg i (t ++ .recv (.replica 1) msg :: os.map .out) := by
  obtain ⟨hnext, -⟩ := learner_step hi h ht hk hmax
  obtain ⟨success, l', -, -, hadmit, heq⟩ :=
    handleLearn_spec true hi h.steady h.alive (hk.trans_le hmax) ht
  have hreceived : receivedFrom (.replica 1) (t ++ .recv (.replica 1) msg :: os.map .out) =
      receivedFrom (.replica 1) t ++ [msg] := receivedFrom_step _ _ _ _
  have hcut : os = [] ∨ executed (os.map .out : List Ev) = if success then [msg.command] else [] := by
    rw [heq] at hos
    refine executed_cut ?_ hos
    split <;> rfl
  rcases hcut with rfl | hexec
  · -- nothing is done yet
    refine ⟨receivedFrom (.replica 1) t, ?_, ?_, ?_⟩
    · rw [hreceived]
      exact List.prefix_append _ _
    · simpa using h.history.executed_eq
    · have hreplies := h.history.replies
      rw [if_pos rfl] at hreplies
      rw [List.map_nil, sends_append, sends_recv, sends_nil, List.append_nil, hreplies]
      exact List.prefix_rfl
  · -- the command is executed if it ever is
    refine ⟨receivedFrom (.replica 1) t ++ [msg], ?_, ?_, ?_⟩
    · rw [hreceived]
    · rw [executed_append, executed_recv, hexec, h.history.executed_eq, List.map_append,
        List.map_singleton, hadmit]
    · have hreplies := hnext.history.replies
      rw [receivedFrom_step, if_pos rfl] at hreplies
      rw [answersTo, ← hreplies]
      obtain ⟨rest, hrest⟩ := hos
      rw [← hrest, List.map_append, ← List.cons_append, ← List.append_assoc,
        sends_append _ (rest.map .out)]
      exact List.prefix_append _ _

/-- A beginning of a history that has grown is one of the history before, or ends in the
midst of what was added. -/
private theorem prefix_append_cases {α : Type} {t u v : List α} (h : t <+: u ++ v) :
    t <+: u ∨ ∃ w, w <+: v ∧ t = u ++ w := by
  rcases List.prefix_or_prefix_of_prefix h (List.prefix_append u v) with htu | ⟨w, rfl⟩
  · exact .inl htu
  · exact .inr ⟨w, (List.prefix_append_right_inj u).mp h, rfl⟩

/-- At every point of a run, a learner has executed what it has answered. -/
theorem executes_first {C : ClientProc cfg} (hl : cfg.level = .node)
    (hmax : cfg.clients.length ≤ MAX_NUM_CLIENTS)
    {s : Net (cluster (onepaxosReplica cfg true) C)} (h : s.Reachable) {i : Nat} (hi : 2 ≤ i)
    {t : List Ev} (ht : t <+: s.trace (.replica i)) : ExecutesFirst cfg i t := by
  have key := replica_induction (R := onepaxosReplica cfg true) (C := C) i
    (fun (l : OnepaxosReplicaT) u => Learner cfg true i l u ∧ ∀ t, t <+: u → ExecutesFirst cfg i t)
    ?_ ?_ h
  · exact key.2 t ht
  · refine ⟨learner_init i, fun t ht => ?_⟩
    obtain rfl := List.prefix_nil.mp ht
    exact (learner_init i).executesFirst
  · rintro s s' l src msg - hr' ⟨hlearner, hfirst⟩ hp htrace
    have hm : OnChannel cfg src (.replica i) msg := by
      apply (parties (.inl hl) hmax hr').2.2.2 src (.replica i)
      refine (hr'.receivedFrom_prefix src (.replica i)).subset ?_
      rw [htrace, receivedFrom_step]
      exact List.mem_append_right _ List.mem_cons_self
    rw [htrace]
    refine ⟨(learner_turn hi hlearner hp hm hmax).1, fun t ht => ?_⟩
    rcases prefix_append_cases ht with ht | ⟨w, hw, rfl⟩
    · exact hfirst t ht
    · have hsrc := learner_polls hi hlearner.steady hp
      subst hsrc
      rcases List.prefix_cons_iff.mp hw with rfl | ⟨v, rfl, hv⟩
      · rw [List.append_nil]
        exact hlearner.executesFirst
      · obtain ⟨os, hos, rfl⟩ := List.prefix_map_iff.mp hv
        exact learner_cut hi hlearner hm.2.1 hm.2.2 hmax hos

/-- The learn messages a replica handled. -/
def learnsHandled (t : List Ev) : List SmltMsg :=
  ((inputs t).map Prod.snd).filter (·.tag = ONE_LEARN)

/-- Every learn message comes from the acceptor. -/
theorem learnsHandled_eq {C : ClientProc cfg} (hl : cfg.level = .node)
    (hmax : cfg.clients.length ≤ MAX_NUM_CLIENTS)
    {s : Net (cluster (onepaxosReplica cfg kvs) C)} (h : s.Reachable) (i : Nat) :
    learnsHandled (s.trace (.replica i)) = receivedFrom (.replica 1) (s.trace (.replica i)) := by
  obtain ⟨-, -, -, hchan⟩ := histories hl hmax h
  rw [learnsHandled, List.filter_map, receivedFrom_eq_inputs]
  congr 1
  refine List.filter_congr fun x hx => ?_
  obtain ⟨src, m⟩ := x
  have hsent := (h.receivedFrom_prefix src (.replica i)).subset (mem_receivedFrom_iff.mpr hx)
  have hm := hchan src (.replica i) m hsent
  have hiff : m.tag = ONE_LEARN ↔ src = .replica 1 := by
    rcases src with (_ | _ | j) | core
    · have ht := hm.2.1
      simp [ht]
    · have ht := hm.2.1
      simp [ht]
    · exact hm.elim
    · rcases hm with ⟨ht, -⟩ | ⟨ht, -⟩ <;> simp [ht]
  exact decide_eq_decide.mpr hiff

/-- 1Paxos over a whole run without failures of a node-level group. -/
structure Learned (cfg : Config) {C : ClientProc cfg}
    (s : Net (cluster (onepaxosReplica cfg false) C)) : Prop where
  learner_prefix : ∀ i, i < cfg.numReplicas →
    executed (s.trace (.replica i)) <+: executed (s.trace (.replica 1))
  /-- The acceptor accepts every proposal it takes, which is to say that it sends each
  other replica a learn message for it. -/
  accepted : ∀ j, j ≠ 1 → j < cfg.numReplicas →
    sentTo (.replica j) (s.trace (.replica 1)) =
      (receivedFrom (.replica 0) (s.trace (.replica 1))).mapIdx learnMsg
  /-- The `k`-th learn message that any replica handles has index `k`, counted from 0, and
  the command of the `k`-th accepted proposal. -/
  learn_position : ∀ i, i < cfg.numReplicas →
    (learnsHandled (s.trace (.replica i))).map (fun m => (m.data1, m.command)) <+:
      (receivedFrom (.replica 0) (s.trace (.replica 1))).mapIdx fun k m => (k, m.command)
  executed_once : ∀ i, i < cfg.numReplicas →
    ((executed (s.trace (.replica i))).map fun c => (c.clientId, c.requestId)).Nodup
  /-- The leader's responses, each to the client of its command, are for commands that the
  acceptor has executed, at most one for each and in that order. -/
  response_executed : ((responses (s.trace (.replica 0))).map fun x => (x.1, x.2.command)).Sublist
    ((executed (s.trace (.replica 1))).map fun c => (cfg.clientAt c.clientId, c))

theorem commands_mapIdx_learnMsg (ms : List SmltMsg) :
    (ms.mapIdx learnMsg).map SmltMsg.command = ms.map SmltMsg.command := by
  refine List.ext_getElem (by simp) fun k h1 h2 => ?_
  rw [List.getElem_map, List.getElem_map, List.getElem_mapIdx, learnMsg_command]

private theorem positions_mapIdx_learnMsg (ms : List SmltMsg) :
    (ms.mapIdx learnMsg).map (fun m => (m.data1, m.command)) =
      ms.mapIdx fun k m => (k, m.command) := by
  refine List.ext_getElem (by simp) fun k h1 h2 => ?_
  rw [List.getElem_map, List.getElem_mapIdx, List.getElem_mapIdx, learnMsg_command]
  rfl

section Prefixes

variable {C : ClientProc cfg} {s : Net (cluster (onepaxosReplica cfg kvs) C)}

/-- What replica `i` learned is a prefix of what the acceptor accepted. -/
theorem AcceptorHistory.learned_accepted (hacc : AcceptorHistory cfg (s.trace (.replica 1)))
    (h : s.Reachable) {i : Nat} (hi : i ≠ 1) (hn : i < cfg.numReplicas) :
    receivedFrom (.replica 1) (s.trace (.replica i)) <+:
      (receivedFrom (.replica 0) (s.trace (.replica 1))).mapIdx learnMsg := by
  rw [← hacc.learns i hi hn]
  exact h.receivedFrom_prefix _ _

/-- What the leader has learned are its first requests. -/
theorem AcceptorHistory.learned_requested (hacc : AcceptorHistory cfg (s.trace (.replica 1)))
    (h : s.Reachable) (hprop : sentTo (.replica 1) (s.trace (.replica 0)) <+:
      (requests (s.trace (.replica 0))).map fun x => x.2.withTag ONE_ACC) :
    (receivedFrom (.replica 1) (s.trace (.replica 0))).map SmltMsg.command <+:
      requested (s.trace (.replica 0)) := by
  have h2 := cfg.two_le_numReplicas
  have hlearned := (hacc.learned_accepted h Nat.zero_ne_one (by omega)).map SmltMsg.command
  have hproposed := ((h.receivedFrom_prefix (.replica 0) (.replica 1)).trans
    hprop).map SmltMsg.command
  rw [commands_mapIdx_learnMsg] at hlearned
  rw [List.map_map] at hproposed
  refine (hlearned.trans hproposed).trans ?_
  simp [requested, Function.comp_def]

end Prefixes

theorem prefix_learned {C : ClientProc cfg} (ha : Answering cfg kvs)
    (hmax : cfg.clients.length ≤ MAX_NUM_CLIENTS)
    {s : Net (cluster (onepaxosReplica cfg kvs) C)} (h : s.Reachable) {i : Nat} (hi : i ≠ 1)
    (hn : i < cfg.numReplicas) :
    receivedFrom (.replica 1) (s.trace (.replica i)) <+:
      (receivedFrom (.replica 0) (s.trace (.replica 1))).mapIdx learnMsg :=
  (parties ha hmax h).2.1.history.learned_accepted h hi hn

theorem learned_requested {C : ClientProc cfg} (ha : Answering cfg kvs)
    (hmax : cfg.clients.length ≤ MAX_NUM_CLIENTS)
    {s : Net (cluster (onepaxosReplica cfg kvs) C)} (h : s.Reachable) :
    (receivedFrom (.replica 1) (s.trace (.replica 0))).map SmltMsg.command <+:
      requested (s.trace (.replica 0)) := by
  obtain ⟨hlead, hacc, -, -⟩ := parties ha hmax h
  exact hacc.history.learned_requested h hlead.history.proposals

/-- 1Paxos, for any clients and any interleaving. -/
theorem onepaxos_learned (cfg : Config) (hl : cfg.level = .node)
    (hmax : cfg.clients.length ≤ MAX_NUM_CLIENTS) (C : ClientProc cfg)
    (s : Net (cluster (onepaxosReplica cfg false) C)) (h : s.Reachable) : Learned cfg s := by
  obtain ⟨hlead, hacc, hlearn, -⟩ := histories hl hmax h
  have hexec : ∀ i, i ≠ 1 → executed (s.trace (.replica i)) =
      admitted ((receivedFrom (.replica 1) (s.trace (.replica i))).map SmltMsg.command) := by
    intro i hi
    rcases Nat.eq_zero_or_pos i with rfl | hpos
    · exact hlead.executed_eq
    · exact (hlearn i (by omega)).executed_eq
  have hprefix : ∀ i, i < cfg.numReplicas →
      executed (s.trace (.replica i)) <+: executed (s.trace (.replica 1)) := by
    intro i hn
    by_cases hi : i = 1
    · rw [hi]
    · have hcmds := (prefix_learned (.inl hl) hmax h hi hn).map SmltMsg.command
      rw [commands_mapIdx_learnMsg] at hcmds
      rw [hexec i hi, hacc.executed_eq]
      exact admitted_prefix hcmds
  refine
    { learner_prefix := hprefix
      accepted := hacc.learns
      learn_position := ?_
      executed_once := ?_
      response_executed := ?_ }
  · intro i hn
    rw [learnsHandled_eq hl hmax h]
    by_cases hi : i = 1
    · -- the acceptor is sent no learn message
      subst hi
      have hnone : receivedFrom (.replica 1) (s.trace (.replica 1)) = [] := by
        rw [List.eq_nil_iff_forall_not_mem]
        intro m hm
        have hsent := (h.receivedFrom_prefix (.replica 1) (.replica 1)).subset hm
        exact ((histories hl hmax h).2.2.2 _ _ m hsent).1 rfl
      rw [hnone]
      exact List.nil_prefix
    · have hpos := (prefix_learned (.inl hl) hmax h hi hn).map fun m => (m.data1, m.command)
      rwa [positions_mapIdx_learnMsg] at hpos
  · intro i _
    by_cases hi : i = 1
    · rw [hi, hacc.executed_eq]
      exact admitted_nodup _
    · rw [hexec i hi]
      exact admitted_nodup _
  · have hresp := hlead.responses
    simp only [Bool.false_eq_true, if_false] at hresp
    have hzero := hprefix 0 (by have := cfg.two_le_numReplicas; omega)
    exact hresp.trans ((hzero.map _).sublist)

/-- Three replicas and two clients; client 0 repeats its request. -/
private def cfg3 : Config := .threeNodes

private def schedule3 :
    List (Action (cluster (onepaxosReplica cfg3 false) (anyClient cfg3))) :=
  let zero : SmltMsg := ⟨0, 0, 0, 0, 0, 0, 0⟩
  [.stimulate (.client 10) (zero.stamp 0 0 0 ⟨7, 7, 7⟩),
    .stimulate (.client 11) (zero.stamp 1 0 0 ⟨8, 8, 8⟩),
    .stimulate (.client 10) (zero.stamp 0 0 0 ⟨7, 7, 7⟩),
    .deliver (.client 11) (.replica 0), .deliver (.client 10) (.replica 0),
    .deliver (.client 10) (.replica 0), .deliver (.replica 0) (.replica 1),
    .deliver (.replica 0) (.replica 1), .deliver (.replica 0) (.replica 1),
    .deliver (.replica 1) (.replica 0), .deliver (.replica 1) (.replica 2),
    .deliver (.replica 1) (.replica 2), .deliver (.replica 1) (.replica 2)]

/-- The repeated request is learned a second time and not executed again. -/
theorem onepaxos_learned_run :
    ∃ s : Net (cluster (onepaxosReplica cfg3 false) (anyClient cfg3)),
      executed (s.trace (.replica 2)) = [⟨1, 0, ⟨8, 8, 8⟩⟩, ⟨0, 0, ⟨7, 7, 7⟩⟩] ∧
      (learnsHandled (s.trace (.replica 2))).map SmltMsg.data1 = [0, 1, 2] ∧
      executed (s.trace (.replica 0)) = [⟨1, 0, ⟨8, 8, 8⟩⟩] ∧ Learned cfg3 s :=
  ⟨((Net.initial _).run schedule3).get rfl, by decide, by decide, by decide,
    onepaxos_learned cfg3 rfl (by decide) _ _ (Net.reachable_of_run schedule3 rfl)⟩

end SmeltConsensus.OnePaxos.Learn
