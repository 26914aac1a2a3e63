import SmeltConsensus.Bench.Client
import SmeltConsensus.OnePaxos.Learn
import SmeltConsensus.TwoPhase.Commit
import SmeltConsensus.TwoTier.OnePaxos

/-!
The tables with an entry for each client. The id that a client is told at its
set-up is the position of its core in the list of clients, and comes back in the
header of every message about its requests. The tables have `MAX_NUM_CLIENTS`
entries, however long the list is.
-/

set_option autoImplicit false
set_option relaxedAutoImplicit false

namespace SmeltConsensus.Bench.ClientTables

open SmeltConsensus.Foundation.Network
open SmeltConsensus.Message.Header
open SmeltConsensus.Cluster.Parties
open SmeltConsensus.Bench.Client
open SmeltConsensus.TwoPhase.Replica
open SmeltConsensus.OnePaxos.EntryQueue
open SmeltConsensus.OnePaxos.Execute
open SmeltConsensus.OnePaxos.Learn
open SmeltConsensus.OnePaxos.Replica
open SmeltConsensus.KeyValue.Client (Phase ClientT setupMsg receive)

/-- The entries of `ready_counter` and `ack_counter` that the handler of `msg` accesses. -/
def counterIndices (l : TpcReplicaT) (msg : SmltMsg) : List Nat :=
  if l.id = 0 ∧ (msg.tag = REQ_TAG ∨ msg.tag = TPC_RDY) then [msg.clientId] else []

/-- The entries of `last_executed_rid` that the handler of `msg` accesses, in `execute`. -/
def ridIndices (l : OnepaxosReplicaT) (msg : SmltMsg) : List Nat :=
  if msg.tag = ONE_ACC then
    if msg.data2 ≥ l.highestProposalNumber then [msg.clientId] else []
  else if msg.tag = ONE_LEARN then [msg.clientId]
  else []

/-- In every reachable state, a replica that handles the next message of a channel accesses
its tables at entries that they have. -/
def Inside {cfg : Config} (R : ReplicaProc) (indices : R.State → SmltMsg → List Nat)
    (C : ClientProc cfg) : Prop :=
  ∀ s : Net (cluster R C), s.Reachable → ∀ i src msg rest,
    R.polls (s.loc (.replica i)) src = true → s.inFlight src (.replica i) = msg :: rest →
      ∀ k ∈ indices (s.loc (.replica i)) msg, k < MAX_NUM_CLIENTS

section Frame

variable (cfg : Config)

/-- The counters of other clients stay as they are. -/
theorem messageHandlerTpc_counters (l : TpcReplicaT) (msg : SmltMsg) {k : Nat}
    (hk : k ∉ counterIndices l msg) :
    (messageHandlerTpc cfg l msg).1.readyCounter.read k = l.readyCounter.read k ∧
      (messageHandlerTpc cfg l msg).1.ackCounter.read k = l.ackCounter.read k := by
  have hne (hid : l.id = 0) (htag : msg.tag = REQ_TAG ∨ msg.tag = TPC_RDY) : k ≠ msg.clientId := by
    rw [counterIndices, if_pos ⟨hid, htag⟩] at hk
    exact fun he => hk (he ▸ List.mem_singleton_self _)
  unfold messageHandlerTpc
  split
  · exact ⟨rfl, rfl⟩
  split
  · rename_i hreq
    unfold TwoPhase.Replica.handleRequest
    split
    · rename_i hid
      exact ⟨ClientTable.read_write_of_ne _ (hne hid (.inl hreq)) _,
        ClientTable.read_write_of_ne _ (hne hid (.inl hreq)) _⟩
    · exact ⟨rfl, rfl⟩
  split
  · exact ⟨rfl, rfl⟩
  split
  · rename_i hrdy
    dsimp only [handleReady]
    by_cases hid : l.id = 0
    · rw [if_pos hid]
      split <;> exact ⟨ClientTable.read_write_of_ne _ (hne hid (.inr hrdy)) _, rfl⟩
    · rw [if_neg hid]
      exact ⟨rfl, rfl⟩
  split <;> exact ⟨rfl, rfl⟩

theorem execute_rids (l : OnepaxosReplicaT) (msg : SmltMsg) {k : Nat} (hk : k ≠ msg.clientId) :
    (execute l msg).2.1.lastExecutedRid.read k = l.lastExecutedRid.read k := by
  unfold execute
  dsimp only
  split
  · rfl
  · exact ClientTable.read_write_of_ne _ hk _

end Frame

section Ids

variable {cfg : Config} {R : ReplicaProc} {indices : R.State → SmltMsg → List Nat}

/-- Only set-up messages have a client id that is no position in the list of clients. -/
def Named (cfg : Config) (msg : SmltMsg) : Prop :=
  msg.tag = SETUP_TAG ∨ msg.clientId < cfg.clients.length

/-- What a handler sends to a replica is about the client of the message that it handles. -/
def KeepsClient (msg : SmltMsg) (os : List Out) : Prop :=
  ∀ j m, .send (.replica j) m ∈ os → msg.tag ≠ SETUP_TAG ∧ m.clientId = msg.clientId

/-- A replica that copies client ids and uses them as indices. -/
structure CopiesIds (R : ReplicaProc) (indices : R.State → SmltMsg → List Nat) : Prop where
  keeps : ∀ l msg, KeepsClient msg (R.handle l msg).2
  indexed : ∀ l msg, ∀ k ∈ indices l msg, msg.tag ≠ SETUP_TAG ∧ k = msg.clientId

theorem named_of_fromClient {core : Nat} {msg : SmltMsg} (h : cfg.FromClient core msg) :
    Named cfg msg := by
  rcases h with ⟨-, hcid⟩ | ⟨hsetup, -⟩
  · exact .inr (List.getElem?_eq_some_iff.mp hcid).1
  · exact .inl hsetup

/-- Every message to a replica is named. -/
theorem named_of_reachable (h : CopiesIds R indices) {C : ClientProc cfg}
    {s : Net (cluster R C)} (hs : s.Reachable) {src : Party} {i : Nat} {msg : SmltMsg}
    (hm : msg ∈ sentTo (.replica i) (s.trace src)) : Named cfg msg := by
  have hinv := replica_invariant (fun _ _ _ => True)
    (fun _ dst m => ∀ j, dst = .replica j → Named cfg m) (fun _ => trivial)
    (fun core m hf j _ => named_of_fromClient hf)
    (fun i l t src msg _ _ hmsg => ⟨trivial, fun dst m hsend j hj => ?_⟩) hs
  · exact hinv.2 src (.replica i) msg hm i rfl
  · obtain ⟨htag, hcid⟩ := h.keeps l msg j m (hj ▸ hsend)
    have hlt := (hmsg i rfl).resolve_left htag
    exact .inr (hcid ▸ hlt)

/-- With as many entries as clients, every access is inside of the tables. -/
theorem CopiesIds.inside (h : CopiesIds R indices) (hmax : cfg.clients.length ≤ MAX_NUM_CLIENTS)
    (C : ClientProc cfg) : Inside R indices C := by
  intro s hs i src msg rest _ hflight k hk
  obtain ⟨htag, rfl⟩ := h.indexed _ msg k hk
  have hsent : msg ∈ sentTo (.replica i) (s.trace src) := by
    rw [hs.fifo, hflight]
    exact List.mem_append_right _ List.mem_cons_self
  exact Nat.lt_of_lt_of_le ((named_of_reachable h hs hsent).resolve_left htag) hmax

end Ids

section Keeps

theorem KeepsClient.append {msg : SmltMsg} {os os' : List Out} (h : KeepsClient msg os)
    (h' : KeepsClient msg os') : KeepsClient msg (os ++ os') := fun j m hm =>
  (List.mem_append.mp hm).elim (h j m) (h' j m)

/-- Nothing goes to a replica. -/
theorem keepsClient_of_none {msg : SmltMsg} {os : List Out}
    (h : ∀ j m, .send (.replica j) m ∉ os) : KeepsClient msg os :=
  fun j m hm => absurd hm (h j m)

theorem keepsClient_nil (msg : SmltMsg) : KeepsClient msg [] :=
  keepsClient_of_none fun _ _ => List.not_mem_nil

theorem keepsClient_print (msg : SmltMsg) (text : String) (args : List Nat) :
    KeepsClient msg [.print text args] :=
  keepsClient_of_none fun j m hm => by simp at hm

theorem keepsClient_sendEach {msg m : SmltMsg} (ids : List Nat) (htag : msg.tag ≠ SETUP_TAG)
    (hm : m.clientId = msg.clientId) : KeepsClient msg (sendEach ids m) := by
  intro j m' hsend
  obtain ⟨rfl, -⟩ := mem_sendEach.mp hsend
  exact ⟨htag, hm⟩

theorem keepsClient_send {msg m : SmltMsg} (dst : Party) (htag : msg.tag ≠ SETUP_TAG)
    (hm : m.clientId = msg.clientId) : KeepsClient msg [.send dst m] := by
  intro j m' hsend
  obtain ⟨-, rfl⟩ := Output.send.inj (List.mem_singleton.mp hsend)
  exact ⟨htag, hm⟩

theorem keepsClient_setup (cfg : Config) (msg : SmltMsg) : KeepsClient msg (handleSetup cfg msg) := by
  refine keepsClient_of_none fun j m hm => ?_
  obtain ⟨hdst, -⟩ := Output.send.inj (List.mem_singleton.mp hm)
  cases hdst

end Keeps

section TwoPhase

variable (cfg : Config) (ready ack : ClientTable)

theorem handleReady_keeps (l : TpcReplicaT) {msg : SmltMsg} (htag : msg.tag ≠ SETUP_TAG) :
    KeepsClient msg (handleReady cfg l msg).2 := by
  dsimp only [handleReady]
  split
  · split
    · refine .append (keepsClient_sendEach _ htag (SmltMsg.clientId_withTag _ _)) ?_
      refine keepsClient_of_none fun j m hm => ?_
      cases hlevel : l.level <;> simp [hlevel, Config.clientAt] at hm
    · exact keepsClient_nil msg
  · exact keepsClient_print msg _ _

theorem messageHandlerTpc_keeps (l : TpcReplicaT) (msg : SmltMsg) :
    KeepsClient msg (messageHandlerTpc cfg l msg).2 := by
  unfold messageHandlerTpc
  by_cases htag : msg.tag = SETUP_TAG
  · rw [if_pos htag]
    exact keepsClient_setup cfg msg
  rw [if_neg htag]
  split
  · unfold TwoPhase.Replica.handleRequest
    split
    · exact keepsClient_sendEach _ htag (SmltMsg.clientId_withTag _ _)
    · exact keepsClient_send _ htag rfl
  split
  · unfold TwoPhase.Replica.handlePrepare
    split
    · exact keepsClient_send _ htag (SmltMsg.clientId_withTag _ _)
    · exact keepsClient_print msg _ _
  split
  · exact handleReady_keeps cfg l htag
  split
  · refine keepsClient_of_none fun j m hm => ?_
    unfold TwoPhase.Replica.handleCommit at hm
    split at hm <;> simp at hm
  · exact keepsClient_print msg _ _

theorem tpc_copiesIds : CopiesIds (tpcReplica cfg ready ack) counterIndices where
  keeps := messageHandlerTpc_keeps cfg
  indexed l msg k hk := by
    unfold counterIndices at hk
    split at hk
    · rename_i hcase
      refine ⟨fun hsetup => ?_, List.mem_singleton.mp hk⟩
      rw [hsetup] at hcase
      exact absurd hcase.2 (by decide)
    · cases hk

end TwoPhase

section OnePaxos

variable (cfg : Config) (kvs : Bool)

theorem execute_keeps (l : OnepaxosReplicaT) (m msg : SmltMsg) :
    KeepsClient msg (execute l m).2.2 := by
  obtain ⟨success, table, hexec⟩ := execute_frame l m
  refine keepsClient_of_none fun j m' hm => ?_
  rw [hexec] at hm
  cases success <;> simp at hm

theorem reply_keeps (l : OnepaxosReplicaT) (m msg : SmltMsg) :
    KeepsClient msg (reply cfg kvs l m).2 := by
  refine keepsClient_of_none fun j m' hm => ?_
  unfold reply at hm
  cases hlevel : l.level <;> cases kvs <;> simp [hlevel, Config.clientAt] at hm

theorem handleRequest_keeps (l : OnepaxosReplicaT) {msg : SmltMsg} (htag : msg.tag ≠ SETUP_TAG) :
    KeepsClient msg (OnePaxos.Replica.handleRequest cfg l msg).2.2 := by
  unfold OnePaxos.Replica.handleRequest
  split
  · dsimp only
    split
    · exact keepsClient_nil msg
    · exact keepsClient_send _ htag (SmltMsg.clientId_withTag _ _)
  · exact (keepsClient_print msg "Core %d: Forward to %d \n" _).append
      (keepsClient_send (.replica l.currentLeader) htag rfl)

theorem handlePrepare_keeps (l : OnepaxosReplicaT) {msg : SmltMsg} (htag : msg.tag ≠ SETUP_TAG) :
    KeepsClient msg (OnePaxos.Replica.handlePrepare cfg l msg).2.2 := by
  unfold OnePaxos.Replica.handlePrepare
  split
  · have hresp : (msg.withTag ONE_PREP_RESP).clientId = msg.clientId :=
      SmltMsg.clientId_withTag _ _
    have halive : ((msg.withTag ONE_PREP_RESP).withTag ONE_IS_ALIVE).clientId = msg.clientId :=
      (SmltMsg.clientId_withTag _ _).trans hresp
    exact (keepsClient_send (cfg.partyOn l.currentLeader) htag hresp).append
      (keepsClient_send _ htag halive)
  · exact keepsClient_nil msg

/-- The proposals sent again are made from the message of the prepare response. -/
theorem resend_keeps (fuel : Nat) (l : OnepaxosReplicaT) {m msg : SmltMsg}
    (htag : msg.tag ≠ SETUP_TAG) (hm : m.clientId = msg.clientId) :
    KeepsClient msg (resend cfg fuel l m).2.2 := by
  induction fuel generalizing l m with
  | zero => exact keepsClient_nil msg
  | succ fuel ih =>
    have hacc : (m.withTag ONE_ACC).clientId = msg.clientId :=
      (SmltMsg.clientId_withTag _ _).trans hm
    rw [resend]
    split
    · exact keepsClient_nil msg
    · split
      · split
        · exact (keepsClient_send _ htag hacc).append (ih _ hacc)
        · exact keepsClient_nil msg
      · exact keepsClient_nil msg

theorem handlePrepareResponse_keeps (l : OnepaxosReplicaT) {msg : SmltMsg}
    (htag : msg.tag ≠ SETUP_TAG) : KeepsClient msg (handlePrepareResponse cfg l msg).2.2 := by
  unfold handlePrepareResponse
  split
  · dsimp only
    split <;> exact keepsClient_nil msg
  · exact resend_keeps cfg _ _ htag rfl

theorem handleAccept_keeps (l : OnepaxosReplicaT) {msg : SmltMsg} (htag : msg.tag ≠ SETUP_TAG) :
    KeepsClient msg (handleAccept cfg l msg).2.2 := by
  unfold handleAccept
  split
  · have hlearn : ({ msg.withTag ONE_LEARN with data1 := l.index } : SmltMsg).clientId =
        msg.clientId := SmltMsg.clientId_withTag msg ONE_LEARN
    exact KeepsClient.append (keepsClient_sendEach (learners cfg) htag hlearn)
      (execute_keeps { l with lastEntry := .message }
        { msg.withTag ONE_LEARN with data1 := l.index } msg)
  · exact keepsClient_print msg _ _

theorem handleLearn_keeps (l : OnepaxosReplicaT) (msg : SmltMsg) :
    KeepsClient msg (handleLearn cfg kvs l msg).2.2 := by
  have hexec := execute_keeps { l with voted := false, change := false } msg msg
  dsimp only [handleLearn]
  split
  · split
    · exact hexec
    · split
      · exact hexec.append (reply_keeps cfg kvs _ msg msg)
      · exact hexec
  · exact hexec

/-- A handler of two branches keeps the client if both do. -/
theorem KeepsClient.ite {c : Prop} [Decidable c] {msg : SmltMsg} {r r' : Done}
    (h : KeepsClient msg r.2.2) (h' : KeepsClient msg r'.2.2) :
    KeepsClient msg (if c then r else r').2.2 := by
  split
  · exact h
  · exact h'

theorem handleIsCurrentLeaderResponse_keeps (l : OnepaxosReplicaT) (msg : SmltMsg) :
    KeepsClient msg (handleIsCurrentLeaderResponse cfg l msg).2.2 := by
  unfold handleIsCurrentLeaderResponse
  refine KeepsClient.ite (.ite (.ite ?_ ?_) (keepsClient_nil msg)) (keepsClient_nil msg)
  · exact keepsClient_print msg _ _
  · exact keepsClient_print msg _ _

theorem handleGetCurrentAcceptorResponse_keeps (l : OnepaxosReplicaT) (msg : SmltMsg) :
    KeepsClient msg (handleGetCurrentAcceptorResponse cfg l msg).2.2 := by
  unfold handleGetCurrentAcceptorResponse
  refine KeepsClient.ite ?_ (keepsClient_nil msg)
  exact (keepsClient_print msg "Replica %d: I'm the new leader \n" _).append
    (keepsClient_print msg _ _)

theorem messageHandlerOnepaxos_keeps (l : OnepaxosReplicaT) (msg : SmltMsg) :
    KeepsClient msg (messageHandlerOnepaxos cfg kvs l msg).2.2 := by
  have hnil := keepsClient_nil msg
  unfold messageHandlerOnepaxos
  by_cases htag : msg.tag = SETUP_TAG
  · rw [if_pos htag]
    exact keepsClient_setup cfg msg
  rw [if_neg htag]
  apply KeepsClient.ite (handleRequest_keeps cfg l htag)
  apply KeepsClient.ite (handlePrepare_keeps cfg l htag)
  apply KeepsClient.ite (handlePrepareResponse_keeps cfg l htag)
  apply KeepsClient.ite (handleAccept_keeps cfg l htag)
  apply KeepsClient.ite (handleLearn_keeps cfg kvs l msg)
  -- from here on, nothing is sent
  apply KeepsClient.ite hnil
  apply KeepsClient.ite (.ite hnil hnil)
  apply KeepsClient.ite (.ite hnil hnil)
  apply KeepsClient.ite (.ite (.ite hnil hnil) (handleIsCurrentLeaderResponse_keeps cfg l msg))
  apply KeepsClient.ite (.ite (.ite hnil hnil) (handleGetCurrentAcceptorResponse_keeps cfg l msg))
  apply KeepsClient.ite (.ite hnil (.ite hnil (.ite hnil hnil)))
  exact keepsClient_print msg _ _

theorem messageHandlerLoop_keeps (l : OnepaxosReplicaT) (msg : SmltMsg) :
    KeepsClient msg (messageHandlerLoop cfg kvs l msg).2 := by
  have h := messageHandlerOnepaxos_keeps cfg kvs l msg
  unfold messageHandlerLoop
  dsimp only
  split
  · exact h.append (keepsClient_of_none fun j m hm => by simp [Config.clientAt] at hm)
  · exact h

theorem onepaxos_copiesIds : CopiesIds (onepaxosReplica cfg kvs) ridIndices where
  keeps := messageHandlerLoop_keeps cfg kvs
  indexed l msg k hk := by
    have hne {tag : Nat} (htag : msg.tag = tag) (h : tag ≠ SETUP_TAG) : msg.tag ≠ SETUP_TAG :=
      htag ▸ h
    unfold ridIndices at hk
    split at hk
    · rename_i hacc
      split at hk
      · exact ⟨hne hacc (by decide), List.mem_singleton.mp hk⟩
      · cases hk
    · split at hk
      · rename_i hlearn
        exact ⟨hne hlearn (by decide), List.mem_singleton.mp hk⟩
      · cases hk

/-- `handle_learn` changes the table in `execute` only. -/
theorem handleLearn_rids (l : OnepaxosReplicaT) (msg : SmltMsg) :
    (handleLearn cfg kvs l msg).1.lastExecutedRid =
      (execute (unvoted l) msg).2.1.lastExecutedRid := by
  have hlearned : (learned l msg).lastExecutedRid =
      (execute (unvoted l) msg).2.1.lastExecutedRid := by
    rw [learned, advance_eq]
  by_cases hleader : (learned l msg).id = (learned l msg).currentLeader
  · rcases dropLearned_cases (learned l msg) with hdrop | ⟨heap, queue, hdrop⟩
    · obtain ⟨hstate, -⟩ := handleLearn_none cfg kvs hleader hdrop
      rw [hstate, ← hlearned]
    · obtain ⟨hstate, -⟩ := handleLearn_some cfg kvs hleader hdrop
      rw [hstate, ← hlearned]
  · rw [← hlearned]
    unfold learned at hleader ⊢
    dsimp only [handleLearn]
    rw [if_neg hleader]

/-- The entries of other clients stay as they are. -/
theorem messageHandlerLoop_rids (l : OnepaxosReplicaT) (msg : SmltMsg) {k : Nat}
    (hk : k ∉ ridIndices l msg) :
    (messageHandlerLoop cfg kvs l msg).1.lastExecutedRid.read k = l.lastExecutedRid.read k := by
  have hloop : (messageHandlerLoop cfg kvs l msg).1 = (messageHandlerOnepaxos cfg kvs l msg).1 := by
    unfold messageHandlerLoop
    dsimp only
    split <;> rfl
  rw [hloop]
  unfold ridIndices at hk
  by_cases hacc : msg.tag = ONE_ACC
  · rw [if_pos hacc] at hk
    have hmsg : msg.tag = 5 := hacc
    have hhandle : messageHandlerOnepaxos cfg kvs l msg = handleAccept cfg l msg := by
      simp [messageHandlerOnepaxos, hmsg]
    rw [hhandle, handleAccept]
    split
    · rename_i hge
      rw [if_pos hge] at hk
      have hne : k ≠ ({ msg.withTag ONE_LEARN with data1 := l.index } : SmltMsg).clientId := by
        rw [show ({ msg.withTag ONE_LEARN with data1 := l.index } : SmltMsg).clientId =
          msg.clientId from SmltMsg.clientId_withTag msg ONE_LEARN]
        exact fun he => hk (he ▸ List.mem_singleton_self _)
      dsimp only
      rw [advance_eq]
      exact execute_rids { l with lastEntry := .message } _ hne
    · rfl
  rw [if_neg hacc] at hk
  by_cases hlearn : msg.tag = ONE_LEARN
  · rw [if_pos hlearn] at hk
    have hmsg : msg.tag = 6 := hlearn
    have hhandle : messageHandlerOnepaxos cfg kvs l msg = handleLearn cfg kvs l msg := by
      simp [messageHandlerOnepaxos, hmsg]
    rw [hhandle, handleLearn_rids]
    exact execute_rids (unvoted l) msg fun he => hk (he ▸ List.mem_singleton_self _)
  · rw [(TwoTier.OnePaxos.messageHandler_passive cfg kvs l hacc hlearn).1]

end OnePaxos

section Run

variable {cfg : Config} {R : ReplicaProc} {C : ClientProc cfg} {core : Nat} {l : C.State}
variable {up down : List SmltMsg}

/-- The replicas are as they were at the start and only the client on `core` has messages on
the way: `up` to the leader and `down` from it. -/
structure Quiet (R : ReplicaProc) (C : ClientProc cfg) (core : Nat) (l : C.State)
    (up down : List SmltMsg) (s : Net (cluster R C)) : Prop where
  reachable : s.Reachable
  replica : ∀ i, s.loc (.replica i) = R.init i
  client : s.loc (.client core) = l
  up : s.inFlight (.client core) (.replica 0) = up
  down : s.inFlight (.replica 0) (.client core) = down
  between : ∀ i j, s.inFlight (.replica i) (.replica j) = []

theorem quiet_initial : Quiet R C core (C.init core) [] [] (.initial (cluster R C)) :=
  ⟨.init, fun _ => rfl, rfl, rfl, rfl, fun _ _ => rfl⟩

/-- The client sends a message to the leader. -/
theorem Quiet.call {s : Net (cluster R C)} (h : Quiet R C core l up down s) {x : C.Call}
    {r : C.State × SmltMsg} (hcall : C.call core l x = some r) :
    ∃ s', Quiet R C core r.1 (up ++ [r.2]) down s' := by
  have hstim : (cluster R C).stimulate (.client core) (s.loc (.client core)) x =
      some (r.1, [.send (.replica 0) r.2]) := by
    rw [h.client]
    exact Option.map_eq_some_iff.mpr ⟨r, hcall, rfl⟩
  refine ⟨_, h.reachable.step (Net.step_stimulate hstim), ?_, ?_, ?_, ?_, ?_⟩
  · intro i
    have hne : Party.replica i ≠ .client core := Party.noConfusion
    exact (Net.act_loc_of_ne s hne _ _).trans (h.replica i)
  · exact Net.act_loc_self s _ _ _
  · simp [Net.act, h.up]
  · simp [Net.act, h.down]
  · intro i j
    simp [Net.act, h.between]

/-- The leader answers the client and stays as it is. -/
theorem Quiet.answer {s : Net (cluster R C)} {msg m : SmltMsg}
    (h : Quiet R C core l (msg :: up) down s) (hpolls : R.polls (R.init 0) (.client core) = true)
    (hhandle : R.handle (R.init 0) msg = (R.init 0, [.send (.client core) m])) :
    ∃ s', Quiet R C core l up (down ++ [m]) s' := by
  rw [← h.replica 0] at hpolls hhandle
  have hstep := Net.step_deliver (S := cluster R C) (q := .replica 0) hpolls h.up hhandle
  refine ⟨_, h.reachable.step hstep, ?_, ?_, ?_, ?_, ?_⟩
  · intro i
    by_cases hi : i = 0
    · subst hi
      exact (Net.act_loc_self _ _ _ _).trans (h.replica 0)
    · have hne : Party.replica i ≠ .replica 0 := fun he => hi (Party.replica.inj he)
      exact (Net.act_loc_of_ne _ hne _ _).trans (h.replica i)
  · have hne : Party.client core ≠ .replica 0 := Party.noConfusion
    exact (Net.act_loc_of_ne _ hne _ _).trans h.client
  · simp [Net.act, Net.pop, h.up]
  · simp [Net.act, Net.pop, h.down]
  · intro i j
    simp [Net.act, Net.pop, h.between]

/-- The client receives the answer. -/
theorem Quiet.receive {s : Net (cluster R C)} {msg : SmltMsg}
    (h : Quiet R C core l up (msg :: down) s) (hpolls : C.polls core l (.replica 0) = true) :
    ∃ s', Quiet R C core (C.receive core l (.replica 0) msg) up down s' := by
  have hclient := h.client
  rw [← hclient] at hpolls ⊢
  have hstep := Net.step_deliver (S := cluster R C) (q := .client core) hpolls h.down rfl
  refine ⟨_, h.reachable.step hstep, ?_, ?_, ?_, ?_, ?_⟩
  · intro i
    have hne : Party.replica i ≠ .client core := Party.noConfusion
    exact (Net.act_loc_of_ne _ hne _ _).trans (h.replica i)
  · exact Net.act_loc_self _ _ _ _
  · simp [Net.act, Net.pop, h.up, cluster]
  · simp [Net.act, Net.pop, h.down]
  · intro i j
    simp [Net.act, Net.pop, h.between]

/-- What the leader accesses for the message on the way to it. -/
theorem Quiet.leader_lt {indices : R.State → SmltMsg → List Nat} {s : Net (cluster R C)}
    {msg : SmltMsg} {k : Nat} (h : Quiet R C core l (msg :: up) down s)
    (hinside : Inside R indices C) (hpolls : R.polls (R.init 0) (.client core) = true)
    (hk : k ∈ indices (R.init 0) msg) : k < MAX_NUM_CLIENTS := by
  rw [← h.replica 0] at hpolls hk
  exact hinside s h.reachable 0 _ msg up hpolls h.up k hk

/-- What replica 1 accesses for the message that the leader sends it next. -/
theorem Quiet.acceptor_lt {indices : R.State → SmltMsg → List Nat} {s : Net (cluster R C)}
    {msg m : SmltMsg} {l₀ : R.State} {k : Nat} (h : Quiet R C core l (msg :: up) down s)
    (hinside : Inside R indices C) (hpolls : R.polls (R.init 0) (.client core) = true)
    (hhandle : R.handle (R.init 0) msg = (l₀, [.send (.replica 1) m]))
    (hacceptor : R.polls (R.init 1) (.replica 0) = true) (hk : k ∈ indices (R.init 1) m) :
    k < MAX_NUM_CLIENTS := by
  rw [← h.replica 0] at hpolls hhandle
  rw [← h.replica 1] at hacceptor hk
  have hstep := Net.step_deliver (S := cluster R C) (q := .replica 0) hpolls h.up hhandle
  refine hinside _ (h.reachable.step hstep) 1 (.replica 0) m [] hacceptor ?_ k hk
  simp [Net.act, Net.pop, h.between]

/-- A client can set itself up and have a request with its id on the way to the leader. -/
theorem exists_pending_request (recv : Nat) (buf : Nat → SmltMsg) {cid : Nat}
    (hcid : cfg.clients[cid]? = some core) (hpolls : R.polls (R.init 0) (.client core) = true)
    (hsetup : ∀ msg : SmltMsg, msg.tag = SETUP_TAG →
      R.handle (R.init 0) msg = (R.init 0, handleSetup cfg msg)) :
    ∃ l req s, Quiet R (benchClient cfg recv buf) core l [req] [] s ∧
      req.tag = REQ_TAG ∧ req.clientId = cid := by
  have hcore : core ∈ cfg.clients := List.mem_of_getElem? hcid
  have hlt := (List.getElem?_eq_some_iff.mp hcid).1
  have hmax := cfg.numClients_lt
  have hcoreLt := cfg.core_lt core hcore
  -- the set-up message and the reply with the id
  obtain ⟨l, hl⟩ : ∃ l : ClientT, l = ⟨.start, 0, 0, buf core⟩ := ⟨_, rfl⟩
  have hphase : l.phase = .start := by rw [hl]
  have hinit : Quiet R (benchClient cfg recv buf) core l [] [] (.initial _) := by
    rw [hl]
    exact quiet_initial
  have hcall : (benchClient cfg recv buf).call core l .setup =
      some ({ l with phase := .settingUp, msgBuf := setupMsg core l }, setupMsg core l) := by
    have hown : OwnId cfg core l := by
      rw [OwnId, hphase]
      rintro (hready | hwaiting)
      · cases hready
      · cases hwaiting
    exact (call_unchecked hcore hown .setup).trans (if_pos hphase)
  obtain ⟨s₁, h₁⟩ := hinit.call hcall
  have hname : (setupMsg core l).clientId = core := setupMsg_clientId (by omega) l
  obtain ⟨reply, hreply⟩ : ∃ reply, reply = setupReply cfg.clients (setupMsg core l) := ⟨_, rfl⟩
  have hanswer : R.handle (R.init 0) (setupMsg core l) =
      (R.init 0, [.send (.client core) reply]) := by
    rw [hsetup _ (setupMsg_tag core l), handleSetup, hname, hreply]
  obtain ⟨s₂, h₂⟩ := h₁.answer hpolls hanswer
  obtain ⟨s₃, h₃⟩ := h₂.receive rfl
  -- the request
  have hid : reply.data4 = cid := by
    rw [hreply]
    apply setupReply_data4
    rw [hname, hcid]
  obtain ⟨l', hl'⟩ : ∃ l' : ClientT, l' = { l with
      phase := .ready, id := reply.data4, msgBuf := reply } := ⟨_, rfl⟩
  have hready : Quiet R (benchClient cfg recv buf) core l' [] [] s₃ := hl' ▸ h₃
  have hclient : l'.id = cid := by rw [hl', hid]
  have hrequest : (benchClient cfg recv buf).call core l' (.request ⟨0, 0, 0⟩) =
      some ({ l' with phase := .waiting, msgBuf := requestMsg cfg recv l' ⟨0, 0, 0⟩ },
        requestMsg cfg recv l' ⟨0, 0, 0⟩) := by
    have hown : OwnId cfg core l' := fun _ => by rw [hclient, hcid]
    have hphase' : l'.phase = .ready := by rw [hl']
    exact (call_unchecked hcore hown (.request ⟨0, 0, 0⟩)).trans (if_pos hphase')
  obtain ⟨s₄, h₄⟩ := hready.call hrequest
  refine ⟨_, _, s₄, h₄, requestMsg_tag l' _, ?_⟩
  rw [requestMsg_clientId (by omega), hclient]

end Run

section Exact

variable (cfg : Config) (ready ack : ClientTable) (kvs : Bool) (recv : Nat) (buf : Nat → SmltMsg)

variable {cfg} in
/-- The leader counts for a client that has no counters. -/
theorem tpc_not_inside (h : MAX_NUM_CLIENTS < cfg.clients.length) :
    ¬ Inside (tpcReplica cfg ready ack) counterIndices (benchClient cfg recv buf) := by
  intro hinside
  have hcid : cfg.clients[MAX_NUM_CLIENTS]? = some cfg.clients[MAX_NUM_CLIENTS] :=
    List.getElem?_eq_getElem h
  have hpolls : TwoPhase.Replica.polls cfg (initReplicaTpc cfg ready ack 0)
      (.client cfg.clients[MAX_NUM_CLIENTS]) = true :=
    decide_eq_true (List.getElem_mem h)
  obtain ⟨l, req, s, hs, htag, hreq⟩ := exists_pending_request (R := tpcReplica cfg ready ack)
    recv buf hcid hpolls fun msg htag => if_pos htag
  have hk : req.clientId ∈ counterIndices (initReplicaTpc cfg ready ack 0) req := by
    rw [counterIndices, if_pos ⟨rfl, .inl htag⟩]
    exact List.mem_singleton_self _
  exact Nat.lt_irrefl _ (hreq ▸ hs.leader_lt hinside hpolls hk)

variable {cfg} in
/-- The acceptor executes for a client that has no entry. -/
theorem onepaxos_not_inside (h : MAX_NUM_CLIENTS < cfg.clients.length) :
    ¬ Inside (onepaxosReplica cfg kvs) ridIndices (benchClient cfg recv buf) := by
  intro hinside
  have hcid : cfg.clients[MAX_NUM_CLIENTS]? = some cfg.clients[MAX_NUM_CLIENTS] :=
    List.getElem?_eq_getElem h
  have hpolls : OnePaxos.Replica.polls cfg (initReplicaOnepaxos cfg 0)
      (.client cfg.clients[MAX_NUM_CLIENTS]) = true :=
    decide_eq_true (List.getElem_mem h)
  obtain ⟨l, req, s, hs, htag, hreq⟩ := exists_pending_request (R := onepaxosReplica cfg kvs)
    recv buf hcid hpolls fun msg htag => messageHandlerLoop_setup kvs rfl htag
  -- the leader queues the request and proposes it
  obtain ⟨heap, queue, henq, -⟩ := entryQEnqueue_queued entryQueueInit_queued
  obtain ⟨l₀, hhandle⟩ : ∃ l₀, messageHandlerLoop cfg kvs (initReplicaOnepaxos cfg 0) req =
      (l₀, [.send (.replica 1) (req.withTag ONE_ACC)]) := by
    have hleader : (initReplicaOnepaxos cfg 0).id = (initReplicaOnepaxos cfg 0).currentLeader := rfl
    rw [messageHandlerLoop_request kvs rfl htag, OnePaxos.Replica.handleRequest, if_pos hleader]
    dsimp only [initReplicaOnepaxos]
    rw [henq]
    exact ⟨_, rfl⟩
  have hk : req.clientId ∈ ridIndices (initReplicaOnepaxos cfg 1) (req.withTag ONE_ACC) := by
    have hacc : (req.withTag ONE_ACC).tag = ONE_ACC := SmltMsg.tag_withTag _ _
    have hnumber : (req.withTag ONE_ACC).data2 ≥
        (initReplicaOnepaxos cfg 1).highestProposalNumber := Nat.zero_le _
    rw [ridIndices, if_pos hacc, if_pos hnumber, SmltMsg.clientId_withTag]
    exact List.mem_singleton_self _
  exact Nat.lt_irrefl _ (hreq ▸ hs.acceptor_lt hinside hpolls hhandle rfl hk)

/-- The tables are accessed where they have entries exactly if there are no more clients than
entries, and then whatever the clients are. -/
theorem client_tables_inside_iff :
    (Inside (tpcReplica cfg ready ack) counterIndices (benchClient cfg recv buf) ↔
        cfg.clients.length ≤ MAX_NUM_CLIENTS) ∧
      (Inside (onepaxosReplica cfg kvs) ridIndices (benchClient cfg recv buf) ↔
        cfg.clients.length ≤ MAX_NUM_CLIENTS) ∧
      (cfg.clients.length ≤ MAX_NUM_CLIENTS → ∀ C : ClientProc cfg,
        Inside (tpcReplica cfg ready ack) counterIndices C ∧
          Inside (onepaxosReplica cfg kvs) ridIndices C) := by
  refine ⟨⟨fun h => ?_, fun h => ?_⟩, ⟨fun h => ?_, fun h => ?_⟩, fun h C => ⟨?_, ?_⟩⟩
  · by_contra hlong
    exact tpc_not_inside ready ack recv buf (Nat.lt_of_not_le hlong) h
  · exact (tpc_copiesIds cfg ready ack).inside h _
  · by_contra hlong
    exact onepaxos_not_inside kvs recv buf (Nat.lt_of_not_le hlong) h
  · exact (onepaxos_copiesIds cfg kvs).inside h _
  · exact (tpc_copiesIds cfg ready ack).inside h C
  · exact (onepaxos_copiesIds cfg kvs).inside h C

/-- Eight nodes, and clients on the 65 cores after them. -/
def sixtyFiveClients : Config where
  level := .node
  numReplicas := 8
  clients := List.range' 8 65
  clients_nodup := List.nodup_range' 1 Nat.one_pos
  core_lt _ h := Nat.lt_trans (List.mem_range'_1.mp h).2 (by decide)
  replicas_length := List.length_range

/-- The last of 65 clients has no entry. -/
theorem not_inside_of_65_clients :
    ¬ ∀ (cfg : Config) (ready ack : ClientTable) (kvs : Bool) (C : ClientProc cfg),
      Inside (tpcReplica cfg ready ack) counterIndices C ∧
        Inside (onepaxosReplica cfg kvs) ridIndices C := by
  intro h
  have hinside := h sixtyFiveClients (Vector.replicate MAX_NUM_CLIENTS 0)
    (Vector.replicate MAX_NUM_CLIENTS 0) false (benchClient _ 0 fun _ => ⟨0, 0, 0, 0, 0, 0, 0⟩)
  exact tpc_not_inside _ _ _ _ (by decide) hinside.1

end Exact

end SmeltConsensus.Bench.ClientTables
