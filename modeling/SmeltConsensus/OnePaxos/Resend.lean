import SmeltConsensus.OnePaxos.Backlog

/-!
The backlog after the acceptor has failed. The queue has one cell for each request that
the leader took and has not dropped, whatever messages it handles; a prepare response
empties it and sends one proposal for each cell.
-/

set_option autoImplicit false
set_option relaxedAutoImplicit false

namespace SmeltConsensus.OnePaxos.Resend

open SmeltConsensus.Foundation.Network
open SmeltConsensus.Message.Header
open SmeltConsensus.Cluster.Parties
open SmeltConsensus.OnePaxos.EntryQueue
open SmeltConsensus.OnePaxos.Replica
open SmeltConsensus.OnePaxos.Execute
open SmeltConsensus.OnePaxos.Learn
open SmeltConsensus.OnePaxos.Backlog

variable {cfg : Config} {kvs : Bool}

/-- The replica takes the message into its queue. -/
def Takes (l : OnepaxosReplicaT) (msg : SmltMsg) : Prop :=
  msg.tag = REQ_TAG ∧ l.id = l.currentLeader

instance (l : OnepaxosReplicaT) (msg : SmltMsg) : Decidable (Takes l msg) :=
  inferInstanceAs (Decidable (_ ∧ _))

/-- The queue is set up and has the cells `es`. -/
structure Holding (l : OnepaxosReplicaT) (es : List Nat) : Prop where
  alive : l.crashed = false
  initialized : l.entryQInitialized = true
  queued : Queued l.heap l.entryQueue es

theorem holding_init : Holding (initReplicaOnepaxos cfg 0) [] :=
  ⟨rfl, rfl, entryQueueInit_queued⟩

/-- A handler that leaves the queue alone. -/
structure SameQueue (l l' : OnepaxosReplicaT) : Prop where
  crashed : l'.crashed = l.crashed
  initialized : l'.entryQInitialized = l.entryQInitialized
  heap : l'.heap = l.heap
  entryQueue : l'.entryQueue = l.entryQueue

theorem SameQueue.refl (l : OnepaxosReplicaT) : SameQueue l l := ⟨rfl, rfl, rfl, rfl⟩

theorem Holding.of_same {l l' : OnepaxosReplicaT} {es : List Nat} (h : Holding l es)
    (hs : SameQueue l l') : Holding l' es := by
  refine ⟨hs.crashed.trans h.alive, hs.initialized.trans h.initialized, ?_⟩
  rw [hs.heap, hs.entryQueue]
  exact h.queued

variable (l : OnepaxosReplicaT) (msg : SmltMsg)

theorem handlePrepare_same : SameQueue l (handlePrepare cfg l msg).1 := by
  unfold handlePrepare
  split <;> exact ⟨rfl, rfl, rfl, rfl⟩

theorem learned_same : SameQueue l (learned l msg) := by
  obtain ⟨success, table, hexec⟩ := execute_frame (unvoted l) msg
  rw [learned_eq hexec]
  exact ⟨rfl, rfl, rfl, rfl⟩

theorem handleAccept_same : SameQueue l (handleAccept cfg l msg).1 := by
  unfold handleAccept
  split
  · obtain ⟨success, table, hexec⟩ := execute_frame { l with lastEntry := .message }
      { msg.withTag ONE_LEARN with data1 := l.index }
    dsimp only
    rw [hexec, advance_eq]
    exact ⟨rfl, rfl, rfl, rfl⟩
  · exact .refl l

theorem handleIsCurrentLeader_same : SameQueue l (handleIsCurrentLeader l msg).1 := by
  unfold handleIsCurrentLeader
  split <;> exact ⟨rfl, rfl, rfl, rfl⟩

theorem handleGetCurrentAcceptor_same : SameQueue l (handleGetCurrentAcceptor l msg).1 := by
  unfold handleGetCurrentAcceptor
  split <;> exact ⟨rfl, rfl, rfl, rfl⟩

theorem handleIsCurrentLeaderResponse_same :
    SameQueue l (handleIsCurrentLeaderResponse cfg l msg).1 := by
  unfold handleIsCurrentLeaderResponse
  dsimp only
  split_ifs <;> exact ⟨rfl, rfl, rfl, rfl⟩

theorem handleGetCurrentAcceptorResponse_same :
    SameQueue l (handleGetCurrentAcceptorResponse cfg l msg).1 := by
  unfold handleGetCurrentAcceptorResponse
  dsimp only
  split_ifs <;> exact ⟨rfl, rfl, rfl, rfl⟩

theorem handleChangeLeader_same : SameQueue l (handleChangeLeader l msg).1 := by
  unfold handleChangeLeader
  split <;> exact ⟨rfl, rfl, rfl, rfl⟩

theorem handleChangeAcceptor_same : SameQueue l (handleChangeAcceptor l msg).1 := by
  unfold handleChangeAcceptor
  split <;> exact ⟨rfl, rfl, rfl, rfl⟩

theorem handleIsAliveResponse_same : SameQueue l (handleIsAliveResponse l msg).1 := by
  unfold handleIsAliveResponse
  split_ifs <;> exact ⟨rfl, rfl, rfl, rfl⟩

variable {l} {msg}

/-- At most the oldest cell goes. -/
theorem dropLearned_queued {es : List Nat} (h : Queued l.heap l.entryQueue es) :
    ∃ heap queue es', dropLearned l = some { l with heap := heap, entryQueue := queue } ∧
      Queued heap queue es' ∧ es' <:+ es := by
  unfold dropLearned
  split
  · rename_i hlt
    rw [h.size] at hlt
    obtain ⟨e, es, rfl⟩ := List.exists_cons_of_length_pos (Nat.zero_lt_of_lt hlt)
    obtain ⟨queue, hdeq, hqueued⟩ := entryQDequeue_queued h
    rw [hdeq]
    exact ⟨l.heap.free e, queue, es, rfl, hqueued, List.suffix_cons e es⟩
  · exact ⟨l.heap, l.entryQueue, es, rfl, h, List.suffix_refl es⟩

/-- After the handler the queue is what is left of the cells `es`. -/
def Shortens (es : List Nat) (r : Done) : Prop := ∃ es', Holding r.1 es' ∧ es' <:+ es

theorem Shortens.ite {c : Prop} [Decidable c] {es : List Nat} {r r' : Done} (h : Shortens es r)
    (h' : Shortens es r') : Shortens es (if c then r else r') := by
  split
  · exact h
  · exact h'

variable (cfg) (kvs) (msg) in
theorem Holding.handleLearn {es : List Nat} (h : Holding l es) :
    Shortens es (handleLearn cfg kvs l msg) := by
  have hlearned := h.of_same (learned_same l msg)
  by_cases hleader : (learned l msg).id = (learned l msg).currentLeader
  · obtain ⟨heap, queue, es', hdrop, hqueued, hsuffix⟩ := dropLearned_queued hlearned.queued
    obtain ⟨hstate, -⟩ := handleLearn_some cfg kvs hleader hdrop
    unfold Shortens
    rw [hstate]
    exact ⟨es', ⟨hlearned.alive, hlearned.initialized, hqueued⟩, hsuffix⟩
  · have hstate : (OnePaxos.Replica.handleLearn cfg kvs l msg).1 = learned l msg := by
      unfold learned at hleader ⊢
      unfold OnePaxos.Replica.handleLearn
      dsimp only
      rw [if_neg hleader]
    unfold Shortens
    rw [hstate]
    exact ⟨es, hlearned, List.suffix_refl es⟩

variable (cfg) (l) (msg) in
/-- The loop sends the message it was called with once for each cell. -/
theorem resend_queued {es : List Nat} (fuel : Nat) (h : Queued l.heap l.entryQueue es)
    (hfuel : es.length ≤ fuel) : ∃ heap queue msg', Queued heap queue [] ∧
      resend cfg fuel l msg = ({ l with heap := heap, entryQueue := queue }, msg',
        List.replicate es.length
          (.send (cfg.partyOn l.currentLeader) (msg.withTag ONE_ACC))) := by
  induction es generalizing l msg fuel with
  | nil =>
    refine ⟨l.heap, l.entryQueue, msg, h, ?_⟩
    cases fuel with
    | zero => rfl
    | succ fuel =>
      have hempty : entryQEmpty l.entryQueue = true := by
        rw [entryQEmpty, h.head]
        rfl
      rw [resend, if_pos hempty]
      rfl
  | cons e es ih =>
    obtain ⟨fuel, rfl⟩ := Nat.exists_eq_add_of_le' (Nat.zero_lt_of_lt hfuel)
    have hnot : ¬ entryQEmpty l.entryQueue = true := by
      rw [entryQEmpty, h.head]
      exact Bool.false_ne_true
    have hcell := h.linked 0 e rfl
    obtain ⟨queue, hdeq, hqueued⟩ := entryQDequeue_queued h
    obtain ⟨heap, queue', msg', hqueued', heq⟩ := ih
      { l with heap := l.heap.free e, entryQueue := queue } (msg.withTag ONE_ACC) fuel hqueued
      (Nat.le_of_succ_le_succ hfuel)
    refine ⟨heap, queue', msg', hqueued', ?_⟩
    rw [resend, if_neg hnot, hdeq]
    dsimp only
    rw [hcell]
    dsimp only
    rw [heq, SmltMsg.withTag_withTag]
    rfl

variable (cfg) (msg) in
/-- A prepare response at a leader with a queue. -/
theorem Holding.handlePrepareResponse {es : List Nat} (h : Holding l es) :
    Holding (handlePrepareResponse cfg l msg).1 [] ∧
      (OnePaxos.Replica.handlePrepareResponse cfg l msg).2.2 = List.replicate es.length
        (.send (cfg.partyOn l.currentLeader) (msg.withTag ONE_ACC)) := by
  obtain ⟨heap, queue, msg', hqueued, heq⟩ := resend_queued cfg { l with change := false } msg
    l.heap.fresh h.queued h.queued.length_le_fresh
  have hset : ¬ l.entryQInitialized = false := by
    rw [h.initialized]
    nofun
  rw [OnePaxos.Replica.handlePrepareResponse, if_neg hset, heq]
  exact ⟨⟨h.alive, h.initialized, hqueued⟩, rfl⟩

variable (cfg) (msg) in
theorem Holding.handleRequest {es : List Nat} (h : Holding l es) :
    Holding (handleRequest cfg l msg).1
      (if l.id = l.currentLeader then es ++ [l.heap.fresh] else es) := by
  unfold OnePaxos.Replica.handleRequest
  split
  · obtain ⟨heap, queue, henq, hqueued⟩ := entryQEnqueue_queued h.queued
    dsimp only
    rw [henq]
    exact ⟨h.alive, h.initialized, hqueued⟩
  · exact h

variable (cfg) (kvs) (msg) in
/-- What the leader takes goes to the end of the queue; any other message can only make
it lose cells at the front. -/
theorem Holding.step {es : List Nat} (h : Holding l es) :
    ∃ es', Holding (messageHandlerLoop cfg kvs l msg).1 es' ∧
      (if Takes l msg then es' = es ++ [l.heap.fresh] else es' <:+ es) := by
  rw [messageHandlerLoop_fst]
  by_cases hreq : msg.tag = REQ_TAG
  · have hmsg : msg.tag = 1 := hreq
    have hloop : messageHandlerOnepaxos cfg kvs l msg = OnePaxos.Replica.handleRequest cfg l msg := by
      simp [messageHandlerOnepaxos, hmsg]
    refine ⟨_, hloop ▸ h.handleRequest cfg msg, ?_⟩
    by_cases hid : l.id = l.currentLeader
    · rw [if_pos ⟨hreq, hid⟩, if_pos hid]
    · rw [if_neg fun ht => hid ht.2, if_neg hid]
  · have hnot : ¬ Takes l msg := fun ht => hreq ht.1
    simp only [if_neg hnot]
    show Shortens es (messageHandlerOnepaxos cfg kvs l msg)
    have hsame : ∀ r : Done, SameQueue l r.1 → Shortens es r := fun r hs =>
      ⟨es, h.of_same hs, List.suffix_refl es⟩
    unfold messageHandlerOnepaxos
    rw [if_neg hreq]
    refine .ite (hsame _ (.refl l)) ?_
    refine .ite (hsame _ (handlePrepare_same l msg)) ?_
    refine .ite ⟨[], (h.handlePrepareResponse cfg msg).1, List.nil_suffix⟩ ?_
    refine .ite (hsame _ (handleAccept_same l msg)) ?_
    refine .ite (h.handleLearn cfg kvs msg) ?_
    refine .ite (hsame _ (.refl l)) ?_
    refine .ite (hsame _ (handleChangeLeader_same l msg)) ?_
    refine .ite (hsame _ (handleChangeAcceptor_same l msg)) ?_
    refine .ite (.ite (hsame _ (handleIsCurrentLeader_same l msg))
      (hsame _ (handleIsCurrentLeaderResponse_same l msg))) ?_
    refine .ite (.ite (hsame _ (handleGetCurrentAcceptor_same l msg))
      (hsame _ (handleGetCurrentAcceptorResponse_same l msg))) ?_
    refine .ite (.ite (hsame _ (.refl l)) (hsame _ (handleIsAliveResponse_same l msg))) ?_
    exact hsame _ (.refl l)

/-- The leader and the requests in its queue. What it takes goes to the end; as many as
a handler dequeues go from the front. -/
def take (cfg : Config) (kvs : Bool) (s : OnepaxosReplicaT × List SmltMsg) (msg : SmltMsg) :
    OnepaxosReplicaT × List SmltMsg :=
  let l := (messageHandlerLoop cfg kvs s.1 msg).1
  (l, if Takes s.1 msg then s.2 ++ [msg]
    else s.2.drop (s.1.entryQueue.size - l.entryQueue.size))

/-- The first leader, the one that polls clients, after the messages `msgs`. -/
def leaderAfter (cfg : Config) (kvs : Bool) (msgs : List SmltMsg) :
    OnepaxosReplicaT × List SmltMsg :=
  msgs.foldl (take cfg kvs) (initReplicaOnepaxos cfg 0, [])

variable (cfg) (kvs) in
/-- There is one cell for each request that the queue should have. -/
theorem leaderAfter_holding (msgs : List SmltMsg) :
    ∃ es, Holding (leaderAfter cfg kvs msgs).1 es ∧
      es.length = (leaderAfter cfg kvs msgs).2.length := by
  induction msgs using List.reverseRecOn with
  | nil => exact ⟨[], holding_init, rfl⟩
  | append_singleton msgs msg ih =>
    obtain ⟨es, h, hlen⟩ := ih
    obtain ⟨es', h', hes⟩ := h.step cfg kvs msg
    have hafter : leaderAfter cfg kvs (msgs ++ [msg]) =
        take cfg kvs (leaderAfter cfg kvs msgs) msg := List.foldl_concat _ _ _ _
    rw [hafter]
    refine ⟨es', h', ?_⟩
    unfold take
    dsimp only
    split at hes
    · rename_i ht
      rw [if_pos ht, hes, List.length_append, List.length_append, hlen]
      rfl
    · rename_i ht
      have hle := hes.length_le
      rw [if_neg ht, List.length_drop, h.queued.size, h'.queued.size]
      omega

/-- Every pending request goes out again, in order and with the ids and the payload of
the client, to the acceptor. -/
def Resends (cfg : Config) (l : OnepaxosReplicaT) (pending : List SmltMsg) (msg : SmltMsg) : Prop :=
  (sends ((handlePrepareResponse cfg l msg).2.2.map .out : List Ev)).map
      (fun x => (x.1, x.2.tag, x.2.command)) =
    pending.map fun m => (Party.replica l.currentAcceptor, ONE_ACC, m.command)

instance (l : OnepaxosReplicaT) (pending : List SmltMsg) (msg : SmltMsg) :
    Decidable (Resends cfg l pending msg) := inferInstanceAs (Decidable (_ = _))

theorem sends_replicate (dst : Party) (m : SmltMsg) (k : Nat) :
    sends ((List.replicate k (.send dst m)).map .out : List Ev) = List.replicate k (dst, m) := by
  induction k with
  | zero => rfl
  | succ k ih => rw [List.replicate_succ, List.map_cons, sends_send, ih, ← List.replicate_succ]

end SmeltConsensus.OnePaxos.Resend
