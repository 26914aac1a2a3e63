import SmeltConsensus.Foundation.Promise
import SmeltConsensus.OnePaxos.Learn

/-!
Proposal numbers. Only a prepare raises the number that an acceptor has promised; an
accepted proposal does not, and the leader's proposals carry whatever was in the request.
-/

set_option autoImplicit false
set_option relaxedAutoImplicit false

namespace SmeltConsensus.OnePaxos.Ballot

open SmeltConsensus.Foundation.Network
open SmeltConsensus.Foundation.Promise
open SmeltConsensus.Message.Header
open SmeltConsensus.Cluster.Parties
open SmeltConsensus.OnePaxos.EntryQueue
open SmeltConsensus.OnePaxos.Replica
open SmeltConsensus.OnePaxos.Execute
open SmeltConsensus.OnePaxos.Learn

variable {cfg : Config} {kvs : Bool}

/-- The answer to a prepare or the news of an accepted proposal. -/
def isAnswer : Out → Bool
  | .send _ msg => decide (msg.tag = ONE_PREP_RESP ∨ msg.tag = ONE_LEARN)
  | _ => false

variable (cfg) in
/-- A prepare is answered if its number is larger than the promised one. -/
theorem handlePrepare_isAnswer (l : OnepaxosReplicaT) (msg : SmltMsg) :
    (handlePrepare cfg l msg).2.2.any isAnswer = decide (l.highestProposalNumber < msg.data2) := by
  unfold handlePrepare
  split
  · rename_i hlt
    simp [isAnswer, hlt]
  · rename_i hle
    simp [hle]

variable (cfg) in
theorem handlePrepare_number (l : OnepaxosReplicaT) (msg : SmltMsg) :
    (handlePrepare cfg l msg).1.highestProposalNumber = max l.highestProposalNumber msg.data2 := by
  unfold handlePrepare
  split
  · rename_i hlt
    exact (max_eq_right hlt.le).symm
  · rename_i hle
    exact (max_eq_left (Nat.le_of_not_lt hle)).symm

theorem execute_number (l : OnepaxosReplicaT) (msg : SmltMsg) :
    (execute l msg).2.1.highestProposalNumber = l.highestProposalNumber := by
  unfold execute
  dsimp only
  split <;> rfl

variable (cfg) in
/-- A proposal is accepted if its number is not smaller than the promised one. -/
theorem handleAccept_isAnswer (l : OnepaxosReplicaT) (msg : SmltMsg) :
    (handleAccept cfg l msg).2.2.any isAnswer = decide (l.highestProposalNumber ≤ msg.data2) := by
  unfold handleAccept
  split
  · rename_i hge
    have h2 := cfg.two_le_numReplicas
    have hzero : 0 ∈ learners cfg := mem_learners.mpr ⟨by omega, Nat.zero_ne_one⟩
    have hany : (sendEach (learners cfg) (learnMsg l.index msg)).any isAnswer = true := by
      rw [List.any_eq_true]
      exact ⟨_, List.mem_map_of_mem hzero, decide_eq_true (.inr (learnMsg_tag _ _))⟩
    have hany : (sendEach (learners cfg) { msg.withTag ONE_LEARN with data1 := l.index }).any
        isAnswer = true := hany
    rw [decide_eq_true hge]
    dsimp only
    rw [List.any_append, hany, Bool.true_or]
  · rename_i hlt
    simp [isAnswer, Nat.lt_of_not_le hlt]

variable (cfg) in
theorem handleAccept_number (l : OnepaxosReplicaT) (msg : SmltMsg) :
    (handleAccept cfg l msg).1.highestProposalNumber = l.highestProposalNumber := by
  unfold handleAccept
  split
  · dsimp only
    rw [advance_eq]
    exact execute_number _ _
  · rfl

/-- A prepare or a proposal. -/
abbrev BallotMsg := { msg : SmltMsg // msg.tag = ONE_PREP ∨ msg.tag = ONE_ACC }

variable (cfg) (kvs) in
theorem messageHandlerLoop_isAnswer (l : OnepaxosReplicaT) (m : BallotMsg) :
    (messageHandlerLoop cfg kvs l m.1).2.any isAnswer =
      if m.1.tag = ONE_PREP then decide (l.highestProposalNumber < m.1.data2)
      else decide (l.highestProposalNumber ≤ m.1.data2) := by
  have hreply : ∀ (msg : SmltMsg) (dst : Party), isAnswer (.send dst (msg.withTag RESP_TAG)) = false := by
    intro msg dst
    simp [isAnswer]
  have hloop : (messageHandlerLoop cfg kvs l m.1).2.any isAnswer =
      (messageHandlerOnepaxos cfg kvs l m.1).2.2.any isAnswer := by
    unfold messageHandlerLoop
    dsimp only
    split
    · rw [List.any_append, List.any_cons, hreply, List.any_nil, Bool.or_self, Bool.or_false]
    · rfl
  rw [hloop]
  obtain ⟨msg, ht | ht⟩ := m
  · have hmsg : msg.tag = 3 := ht
    rw [if_pos ht, ← handlePrepare_isAnswer cfg]
    simp [messageHandlerOnepaxos, hmsg]
  · have hmsg : msg.tag = 5 := ht
    have hne : ¬ msg.tag = ONE_PREP := by
      rw [ht]
      decide
    rw [if_neg hne, ← handleAccept_isAnswer cfg]
    simp [messageHandlerOnepaxos, hmsg]

variable (cfg) (kvs) in
theorem messageHandlerLoop_number (l : OnepaxosReplicaT) (m : BallotMsg) :
    (messageHandlerLoop cfg kvs l m.1).1.highestProposalNumber =
      if m.1.tag = ONE_PREP then max l.highestProposalNumber m.1.data2
      else l.highestProposalNumber := by
  rw [messageHandlerLoop_fst]
  obtain ⟨msg, ht | ht⟩ := m
  · have hmsg : msg.tag = 3 := ht
    rw [if_pos ht, ← handlePrepare_number cfg]
    simp [messageHandlerOnepaxos, hmsg]
  · have hmsg : msg.tag = 5 := ht
    have hne : ¬ msg.tag = ONE_PREP := by
      rw [ht]
      decide
    rw [if_neg hne, ← handleAccept_number cfg l msg]
    simp [messageHandlerOnepaxos, hmsg]

/-- An acceptor promises the number of the last prepare that it answered. -/
def acceptor (cfg : Config) (kvs : Bool) : Promiser OnepaxosReplicaT BallotMsg where
  promise l := l.highestProposalNumber
  next l m := (messageHandlerLoop cfg kvs l m.1).1
  answer l m :=
    if (messageHandlerLoop cfg kvs l m.1).2.any isAnswer then some m.1.data2 else none
  promise_le l m := by
    rw [messageHandlerLoop_number]
    split
    · exact le_max_left _ _
    · exact Nat.le_refl _
  promise_le_answer {l m n} h := by
    rw [messageHandlerLoop_isAnswer] at h
    split_ifs at h with hprep hlt hle
    · obtain rfl := Option.some.inj h
      exact (of_decide_eq_true hlt).le
    · obtain rfl := Option.some.inj h
      exact of_decide_eq_true hle

/-- A prepare with the number `n`. -/
def prepare (n : Nat) : BallotMsg :=
  ⟨SmltMsg.withTag ⟨0, 0, n, 0, 0, 0, 0⟩ ONE_PREP, .inl (SmltMsg.tag_withTag _ _)⟩

/-- A proposal with the number `n`. -/
def proposal (n : Nat) : BallotMsg :=
  ⟨SmltMsg.withTag ⟨0, 0, n, 0, 0, 0, 0⟩ ONE_ACC, .inr (SmltMsg.tag_withTag _ _)⟩

/-- A proposal may have just the number that is promised. -/
theorem acceptor_least (l : OnepaxosReplicaT) :
    ∃ m, (acceptor cfg kvs).answer l m = some ((acceptor cfg kvs).promise l) := by
  have htag : (proposal l.highestProposalNumber).1.tag = ONE_ACC := SmltMsg.tag_withTag _ _
  have hanswer := messageHandlerLoop_isAnswer cfg kvs l (proposal l.highestProposalNumber)
  have hne : ¬ (proposal l.highestProposalNumber).1.tag = ONE_PREP := by
    rw [htag]
    decide
  rw [if_neg hne] at hanswer
  exact ⟨_, if_pos (hanswer.trans (decide_eq_true (Nat.le_refl _)))⟩

/-- An acceptor never answers a smaller number than before exactly when no proposal is
ahead of the prepares. -/
theorem ballots_in_order_iff (cfg : Config) (kvs : Bool) (l : OnepaxosReplicaT)
    (ms : List BallotMsg) :
    (acceptor cfg kvs).InOrder l ms ↔
      ∀ done m, done ++ [m] <+: ms → m.1.tag = ONE_ACC →
        m.1.data2 ≤ ((acceptor cfg kvs).run l done).highestProposalNumber := by
  rw [Promiser.inOrder_iff acceptor_least]
  constructor
  · intro h done m hdone ht
    have hkept := h done m hdone
    have hne : ¬ m.1.tag = ONE_PREP := by
      rw [ht]
      decide
    simp only [acceptor, messageHandlerLoop_isAnswer, messageHandlerLoop_number, if_neg hne,
      decide_eq_true_eq] at hkept
    by_contra hlt
    exact hlt (hkept m.1.data2 (if_pos (Nat.le_of_not_le hlt)))
  · intro h done m hdone n hn
    simp only [acceptor, messageHandlerLoop_isAnswer] at hn
    simp only [acceptor, messageHandlerLoop_number]
    split_ifs at hn with hprep hlt hle
    · obtain rfl := Option.some.inj hn
      rw [if_pos hprep]
      exact le_max_right _ _
    · obtain rfl := Option.some.inj hn
      rw [if_neg hprep]
      exact h done m hdone (m.2.resolve_left hprep)

/-- The acceptor accepts a proposal with number 5 and then answers a prepare with number 3. -/
theorem ballots_out_of_order :
    ¬ ∀ (cfg : Config) (kvs : Bool) (l : OnepaxosReplicaT) (ms : List BallotMsg),
      ((acceptor cfg kvs).answers l ms).Pairwise (· ≤ ·) := by
  intro h
  have hsorted := h .threeNodes false (initReplicaOnepaxos .threeNodes 1) [proposal 5, prepare 3]
  have hanswers : (acceptor .threeNodes false).answers (initReplicaOnepaxos .threeNodes 1)
      [proposal 5, prepare 3] = [5, 3] := by decide
  rw [hanswers] at hsorted
  revert hsorted
  decide

/-- What the leader proposes carries the number of its ballot, so that an acceptor that
has promised this number accepts it. -/
def Agrees (cfg : Config) (l : OnepaxosReplicaT) (msg : SmltMsg) : Prop :=
  ∀ dst m, .send dst m ∈ (handleRequest cfg l msg).2.2 → m.data2 = l.currentN ∧
    ∀ a : OnepaxosReplicaT, a.highestProposalNumber = l.currentN →
      (handleAccept cfg a m).2.2.any isAnswer = true

/-- The proposal carries the third word of the request. -/
theorem agrees_iff (cfg : Config) {l : OnepaxosReplicaT} {es : List Nat}
    (hq : Queued l.heap l.entryQueue es) (hleader : l.id = l.currentLeader) (msg : SmltMsg) :
    Agrees cfg l msg ↔ msg.data2 = l.currentN := by
  obtain ⟨heap, queue, henq, -⟩ := entryQEnqueue_queued hq
  have hsends : (handleRequest cfg l msg).2.2 =
      [.send (.replica l.currentAcceptor) (msg.withTag ONE_ACC)] := by
    rw [handleRequest, if_pos hleader]
    dsimp only
    rw [henq]
  rw [Agrees, hsends]
  constructor
  · intro h
    exact (h _ _ List.mem_cons_self).1
  · intro hn dst m hm
    simp only [List.mem_singleton, Output.send.injEq] at hm
    obtain ⟨rfl, rfl⟩ := hm
    refine ⟨hn, fun a ha => ?_⟩
    rw [handleAccept_isAnswer]
    exact decide_eq_true (ha.trans hn.symm).le

/-- A leader in its second ballot proposes a request whose sender knows the number. -/
theorem agrees_second_ballot :
    Agrees .threeNodes { initReplicaOnepaxos .threeNodes 0 with currentN := 2 }
      ⟨REQ_TAG * 2 ^ 48, 0, 2, 0, 7, 7, 7⟩ :=
  (agrees_iff .threeNodes (l := { initReplicaOnepaxos .threeNodes 0 with currentN := 2 })
    entryQueueInit_queued rfl _).mpr rfl

/-- The first leader's first ballot has number 1, and the clients' buffers are zero there:
an acceptor that has answered a prepare for this ballot does not accept the proposal. -/
theorem agrees_fails :
    ¬ ∀ (cfg : Config) (l : OnepaxosReplicaT) (msg : SmltMsg) (es : List Nat),
      Queued l.heap l.entryQueue es → l.id = l.currentLeader → msg.tag = REQ_TAG →
        Agrees cfg l msg := by
  intro h
  let zero : SmltMsg := ⟨0, 0, 0, 0, 0, 0, 0⟩
  have hagrees := h .threeNodes (initReplicaOnepaxos .threeNodes 0) (zero.stamp 0 0 0 ⟨7, 7, 7⟩) []
    entryQueueInit_queued rfl (SmltMsg.tag_stamp _ _ _ _ _)
  have haccept := (hagrees (.replica 1) ((zero.stamp 0 0 0 ⟨7, 7, 7⟩).withTag ONE_ACC)
    List.mem_cons_self).2
      (handlePrepare .threeNodes (initReplicaOnepaxos .threeNodes 1) (prepare 1).1).1 rfl
  revert haccept
  decide

end SmeltConsensus.OnePaxos.Ballot
