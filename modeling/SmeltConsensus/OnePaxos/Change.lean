import Mathlib.Order.Bounds.Basic
import SmeltConsensus.Foundation.Tally
import SmeltConsensus.OnePaxos.Learn

/-!
Change of the acceptor and of the leader. Both wait for a majority of positive replies and
start to count anew when they have it; the new acceptor is the next id that is not the
leader's.
-/

set_option autoImplicit false
set_option relaxedAutoImplicit false

namespace SmeltConsensus.OnePaxos.Change

open SmeltConsensus.Foundation.Network
open SmeltConsensus.Foundation.Tally
open SmeltConsensus.Message.Header
open SmeltConsensus.Cluster.Parties
open SmeltConsensus.OnePaxos.Replica
open SmeltConsensus.OnePaxos.Execute
open SmeltConsensus.OnePaxos.Learn

variable {cfg : Config}

variable (cfg) in
theorem majority_pos : 0 < majority cfg := by
  have h2 := cfg.two_le_numReplicas
  unfold majority
  split <;> omega

variable (cfg) in
theorem majority_lt : majority cfg < 256 := by
  have hlt := cfg.numReplicas_lt
  unfold majority
  split <;> omega

variable (cfg) in
/-- A majority twice are all other replicas, or more. -/
theorem two_mul_majority :
    2 * majority cfg = if cfg.numReplicas % 2 = 1 then cfg.numReplicas - 1 else cfg.numReplicas := by
  have h2 := cfg.two_le_numReplicas
  unfold majority
  split_ifs <;> omega

/-- The ids that may replace the acceptor. -/
def candidates (cfg : Config) (l : OnepaxosReplicaT) : Set Nat :=
  {j | l.currentAcceptor < j ∧ j < cfg.numReplicas ∧ j ≠ l.currentLeader}

theorem nextAcceptorId_of_candidate {l : OnepaxosReplicaT} (h : (candidates cfg l).Nonempty) :
    IsLeast (candidates cfg l) (nextAcceptorId cfg l) := by
  obtain ⟨i, hlt, hn, hne⟩ := h
  cases hfind : (List.range' (l.currentAcceptor + 1)
      (cfg.numReplicas - (l.currentAcceptor + 1))).find? (fun i => l.currentLeader ≠ i) with
  | none =>
    have hnot := List.find?_eq_none.mp hfind i (List.mem_range'_1.mpr (by omega))
    simp [hne.symm] at hnot
  | some j =>
    obtain ⟨hj, hmem, hleast⟩ := List.find?_range'_eq_some.mp hfind
    have hid : nextAcceptorId cfg l = j := by
      rw [nextAcceptorId, hfind]
      rfl
    rw [List.mem_range'_1] at hmem
    rw [hid]
    refine ⟨⟨by omega, by omega, (of_decide_eq_true hj).symm⟩, ?_⟩
    rintro k ⟨hk, -, hkne⟩
    by_contra hlt'
    have hskip := hleast k (by omega) (by omega)
    simp [hkne.symm] at hskip

theorem nextAcceptorId_of_not {l : OnepaxosReplicaT} (h : ¬ (candidates cfg l).Nonempty) :
    nextAcceptorId cfg l = 2 ^ 16 - 1 := by
  have hfind : (List.range' (l.currentAcceptor + 1)
      (cfg.numReplicas - (l.currentAcceptor + 1))).find? (fun i => l.currentLeader ≠ i) = none := by
    rw [List.find?_eq_none]
    intro j hj
    rw [List.mem_range'_1] at hj
    simp only [decide_eq_true_eq, not_not]
    by_contra hne
    exact h ⟨j, by omega, by omega, Ne.symm hne⟩
  rw [nextAcceptorId, hfind]
  rfl

/-- The leader after a majority. The test for the value -1 comes after its conversion to
eight bits. -/
theorem handleIsCurrentLeaderResponse_majority {l : OnepaxosReplicaT} {msg : SmltMsg}
    (hyes : msg.data2 = 1) (hmajority : (l.numSuccess + 1) % 2 ^ 16 = majority cfg) :
    handleIsCurrentLeaderResponse cfg l msg =
      ({ l with
          isDead := Function.update l.isDead l.currentAcceptor true
          currentAcceptor := nextAcceptorId cfg l % 2 ^ 8
          currentN := l.currentN + 1
          numSuccess := 0 },
        { msg.withTag ONE_ACC with data2 := nextAcceptorId cfg l % 2 ^ 8 },
        [.print "Replica %d: sending prepare to %d \n" [l.id, nextAcceptorId cfg l % 2 ^ 8]]) := by
  have hsmall : ¬ nextAcceptorId cfg l % 2 ^ 8 = 65535 := by omega
  have hsame : nextAcceptorId cfg { l with numSuccess := (l.numSuccess + 1) % 2 ^ 16 } =
      nextAcceptorId cfg l := rfl
  unfold handleIsCurrentLeaderResponse
  rw [if_pos hyes]
  dsimp only
  rw [if_pos hmajority, hsame, if_neg hsmall]
  simp [SmltMsg.withTag]

/-- A positive reply before there is a majority. -/
theorem handleIsCurrentLeaderResponse_vote {l : OnepaxosReplicaT} {msg : SmltMsg}
    (hyes : msg.data2 = 1) (hnot : ¬ (l.numSuccess + 1) % 2 ^ 16 = majority cfg) :
    (handleIsCurrentLeaderResponse cfg l msg).1 =
      { l with numSuccess := (l.numSuccess + 1) % 2 ^ 16 } := by
  unfold handleIsCurrentLeaderResponse
  rw [if_pos hyes]
  dsimp only
  rw [if_neg hnot]

/-- A negative reply is not counted. -/
theorem handleIsCurrentLeaderResponse_no {l : OnepaxosReplicaT} {msg : SmltMsg}
    (hno : ¬ msg.data2 = 1) : (handleIsCurrentLeaderResponse cfg l msg).1 = l := by
  unfold handleIsCurrentLeaderResponse
  rw [if_neg hno]

/-- The replies to the question who the leader is, handled in order. -/
def leaderRound (cfg : Config) (l : OnepaxosReplicaT) (msgs : List SmltMsg) : OnepaxosReplicaT :=
  msgs.foldl (fun l msg => (handleIsCurrentLeaderResponse cfg l msg).1) l

/-- The replies to the question who the acceptor is, handled in order. -/
def acceptorRound (cfg : Config) (l : OnepaxosReplicaT) (msgs : List SmltMsg) : OnepaxosReplicaT :=
  msgs.foldl (fun l msg => (handleGetCurrentAcceptorResponse cfg l msg).1) l

/-- Between `l` and `l'` there was at most one change, and not against the replica itself. -/
structure Once (l l' : OnepaxosReplicaT) : Prop where
  number : l'.currentN ≤ l.currentN + 1
  own : l'.isDead l.id = true → l.isDead l.id = true

/-- The positive replies, as votes for a change. -/
def positive (msgs : List SmltMsg) : List Unit := (msgs.filter (·.data2 = 1)).map fun _ => ()

theorem positive_length (msgs : List SmltMsg) :
    (positive msgs).length = (msgs.filter (·.data2 = 1)).length := List.length_map _

/-- Every majority makes for one change. -/
theorem leaderRound_number (l : OnepaxosReplicaT) (votes : Unit → Nat) (msgs : List SmltMsg)
    (hvotes : l.numSuccess = votes ()) (hlt : votes () < majority cfg) :
    (leaderRound cfg l msgs).currentN = l.currentN + wins (majority cfg) votes (positive msgs) := by
  have hpos := majority_pos cfg
  have hsmall := majority_lt cfg
  induction msgs generalizing l votes with
  | nil => rfl
  | cons msg msgs ih =>
    show (leaderRound cfg (handleIsCurrentLeaderResponse cfg l msg).1 msgs).currentN = _
    by_cases hyes : msg.data2 = 1
    · have hhead : positive (msg :: msgs) = () :: positive msgs := by
        simp [positive, hyes]
      have hmod : (l.numSuccess + 1) % 2 ^ 16 = votes () + 1 := by omega
      rw [hhead, wins, tally]
      by_cases hq : votes () + 1 = majority cfg
      · rw [if_pos hq, if_pos hq, handleIsCurrentLeaderResponse_majority hyes (hmod.trans hq)]
        rw [ih _ (fun _ => 0) rfl hpos]
        exact Nat.add_assoc _ _ _
      · have hnot : ¬ (l.numSuccess + 1) % 2 ^ 16 = majority cfg := by omega
        rw [if_neg hq, if_neg hq, Nat.zero_add, handleIsCurrentLeaderResponse_vote hyes hnot, hmod]
        have hself : Function.update votes () (votes () + 1) () = votes () + 1 :=
          Function.update_self _ _ _
        exact ih _ _ hself.symm (by omega)
    · have hhead : positive (msg :: msgs) = positive msgs := by
        simp [positive, hyes]
      rw [hhead, handleIsCurrentLeaderResponse_no hyes]
      exact ih l votes hvotes hlt

/-- The leader goes on with an acceptor other than itself. -/
theorem leaderRound_own (l : OnepaxosReplicaT) (msgs : List SmltMsg)
    (hleader : l.id = l.currentLeader) (hid : l.id < cfg.numReplicas)
    (hacceptor : l.currentAcceptor ≠ l.id) :
    (leaderRound cfg l msgs).isDead l.id = l.isDead l.id := by
  have hn := cfg.numReplicas_lt
  induction msgs generalizing l with
  | nil => rfl
  | cons msg msgs ih =>
    show (leaderRound cfg (handleIsCurrentLeaderResponse cfg l msg).1 msgs).isDead l.id = _
    by_cases hyes : msg.data2 = 1
    · by_cases hq : (l.numSuccess + 1) % 2 ^ 16 = majority cfg
      · rw [handleIsCurrentLeaderResponse_majority hyes hq]
        have hnext : nextAcceptorId cfg l % 2 ^ 8 ≠ l.id := by
          by_cases hsome : (candidates cfg l).Nonempty
          · obtain ⟨⟨-, hlt, hne⟩, -⟩ := nextAcceptorId_of_candidate hsome
            have hsame : nextAcceptorId cfg l % 2 ^ 8 = nextAcceptorId cfg l :=
              Nat.mod_eq_of_lt (hlt.trans hn)
            rw [hsame, hleader]
            exact hne
          · rw [nextAcceptorId_of_not hsome]
            omega
        have hrest := ih { l with
            isDead := Function.update l.isDead l.currentAcceptor true
            currentAcceptor := nextAcceptorId cfg l % 2 ^ 8
            currentN := l.currentN + 1
            numSuccess := 0 } hleader hid hnext
        exact hrest.trans (Function.update_of_ne hacceptor.symm _ _)
      · rw [handleIsCurrentLeaderResponse_vote hyes hq]
        exact ih { l with numSuccess := (l.numSuccess + 1) % 2 ^ 16 } hleader hid hacceptor
    · rw [handleIsCurrentLeaderResponse_no hyes]
      exact ih l hleader hid hacceptor

/-- The counters of the votes for each acceptor. -/
structure Counting (cfg : Config) (l : OnepaxosReplicaT) (votes : Nat → Nat) : Prop where
  votes_eq : ∀ i, i < cfg.numReplicas → l.currentAcceptorVotes i = votes i
  votes_lt : ∀ i, i < cfg.numReplicas → votes i < majority cfg

/-- A vote for an acceptor that gets its majority. -/
theorem Counting.elect {l : OnepaxosReplicaT} {votes : Nat → Nat} (h : Counting cfg l votes)
    {msg : SmltMsg} (hid : msg.data2 < cfg.numReplicas)
    (hq : votes msg.data2 + 1 = majority cfg) :
    ∃ votes', Counting cfg (handleGetCurrentAcceptorResponse cfg l msg).1 (fun _ => 0) ∧
      (handleGetCurrentAcceptorResponse cfg l msg).1 = { l with
        currentAcceptor := msg.data2 % 2 ^ 8
        isDead := Function.update l.isDead l.currentLeader true
        currentN := l.currentN + 1
        currentLeader := l.id
        currentAcceptorVotes := votes' } := by
  have hsmall := majority_lt cfg
  have hmod : (l.currentAcceptorVotes msg.data2 + 1) % 2 ^ 16 = votes msg.data2 + 1 := by
    rw [h.votes_eq _ hid]
    omega
  unfold handleGetCurrentAcceptorResponse
  dsimp only
  rw [Function.update_self, hmod, if_pos hq]
  refine ⟨_, ⟨fun i hi => if_pos hi, fun i hi => majority_pos cfg⟩, rfl⟩

/-- Any other vote is counted. -/
theorem Counting.count {l : OnepaxosReplicaT} {votes : Nat → Nat} (h : Counting cfg l votes)
    {msg : SmltMsg} (hid : msg.data2 < cfg.numReplicas)
    (hq : ¬ votes msg.data2 + 1 = majority cfg) :
    ∃ votes', Counting cfg (handleGetCurrentAcceptorResponse cfg l msg).1
        (Function.update votes msg.data2 (votes msg.data2 + 1)) ∧
      (handleGetCurrentAcceptorResponse cfg l msg).1 =
        { l with currentAcceptorVotes := votes' } := by
  have hsmall := majority_lt cfg
  have hlt := h.votes_lt _ hid
  have hmod : (l.currentAcceptorVotes msg.data2 + 1) % 2 ^ 16 = votes msg.data2 + 1 := by
    rw [h.votes_eq _ hid]
    omega
  unfold handleGetCurrentAcceptorResponse
  dsimp only
  rw [Function.update_self, hmod, if_neg hq]
  refine ⟨_, ⟨fun i hi => ?_, fun i hi => ?_⟩, rfl⟩
  · show Function.update l.currentAcceptorVotes msg.data2 (votes msg.data2 + 1) i = _
    by_cases hne : i = msg.data2
    · rw [hne, Function.update_self, Function.update_self]
    · rw [Function.update_of_ne hne, Function.update_of_ne hne, h.votes_eq i hi]
  · by_cases hne : i = msg.data2
    · rw [hne, Function.update_self]
      omega
    · rw [Function.update_of_ne hne]
      exact h.votes_lt i hi

/-- Every majority makes for one change of the leader; the first is not against the
replica itself. -/
theorem acceptorRound_spec (l : OnepaxosReplicaT) (votes : Nat → Nat) (msgs : List SmltMsg)
    (h : Counting cfg l votes) (hids : ∀ msg ∈ msgs, msg.data2 < cfg.numReplicas) :
    (acceptorRound cfg l msgs).currentN =
        l.currentN + wins (majority cfg) votes (msgs.map SmltMsg.data2) ∧
      (wins (majority cfg) votes (msgs.map SmltMsg.data2) = 0 →
        (acceptorRound cfg l msgs).isDead = l.isDead) ∧
      (wins (majority cfg) votes (msgs.map SmltMsg.data2) ≤ 1 → l.id ≠ l.currentLeader →
        (acceptorRound cfg l msgs).isDead l.id = l.isDead l.id) := by
  induction msgs generalizing l votes with
  | nil => exact ⟨rfl, fun _ => rfl, fun _ _ => rfl⟩
  | cons msg msgs ih =>
    have hround : acceptorRound cfg l (msg :: msgs) =
        acceptorRound cfg (handleGetCurrentAcceptorResponse cfg l msg).1 msgs := rfl
    have hid := hids msg List.mem_cons_self
    have hids' : ∀ m ∈ msgs, m.data2 < cfg.numReplicas := fun m hm =>
      hids m (List.mem_cons_of_mem msg hm)
    rw [hround, List.map_cons, wins, tally]
    by_cases hq : votes msg.data2 + 1 = majority cfg
    · obtain ⟨votes', hcounting, heq⟩ := h.elect hid hq
      rw [heq] at hcounting ⊢
      obtain ⟨hnumber, hdead, -⟩ := ih _ (fun _ => 0) hcounting hids'
      rw [if_pos hq, if_pos hq, hnumber]
      refine ⟨Nat.add_assoc _ _ _, fun hzero => by omega, fun hle hne => ?_⟩
      rw [hdead (by omega)]
      exact Function.update_of_ne hne _ _
    · obtain ⟨votes', hcounting, heq⟩ := h.count hid hq
      rw [heq] at hcounting ⊢
      obtain ⟨hnumber, hdead, hown⟩ := ih _ _ hcounting hids'
      rw [if_neg hq, if_neg hq, Nat.zero_add]
      exact ⟨hnumber, hdead, hown⟩

/-- Two changes need a reply of each other replica, as many as two majorities. -/
theorem leaderRound_once_iff {l : OnepaxosReplicaT} {msgs : List SmltMsg}
    (hzero : l.numSuccess = 0) (hleader : l.id = l.currentLeader) (hid : l.id < cfg.numReplicas)
    (hacceptor : l.currentAcceptor ≠ l.id) (hlen : msgs.length ≤ cfg.numReplicas - 1) :
    Once l (leaderRound cfg l msgs) ↔
      ¬ (cfg.numReplicas % 2 = 1 ∧ msgs.length = cfg.numReplicas - 1 ∧
        ∀ msg ∈ msgs, msg.data2 = 1) := by
  have hpos := majority_pos cfg
  have htwo := two_mul_majority cfg
  have h2 := cfg.two_le_numReplicas
  have hfilter := List.length_filter_le (fun msg : SmltMsg => decide (msg.data2 = 1)) msgs
  have hlength := positive_length msgs
  have hle : (positive msgs).length ≤ 2 * majority cfg := by
    split at htwo <;> omega
  have hnumber := leaderRound_number l (fun _ => 0) msgs hzero hpos
  have honce : Once l (leaderRound cfg l msgs) ↔
      ¬ 2 ≤ wins (majority cfg) (fun _ => 0) (positive msgs) := by
    constructor
    · intro h
      have hgrow := h.number
      omega
    · intro h
      exact ⟨by omega, fun hdead => leaderRound_own l msgs hleader hid hacceptor ▸ hdead⟩
  have hfull : (∃ a b, positive msgs =
        List.replicate (majority cfg) a ++ List.replicate (majority cfg) b) ↔
      (positive msgs).length = 2 * majority cfg := by
    constructor
    · rintro ⟨a, b, heq⟩
      rw [heq]
      simp only [List.length_append, List.length_replicate]
      omega
    · intro heq
      refine ⟨(), (), ?_⟩
      rw [List.replicate_append_replicate, List.eq_replicate_iff]
      exact ⟨by omega, fun _ _ => rfl⟩
  rw [honce, two_wins_iff hpos hle, hfull, not_iff_not, hlength]
  constructor
  · intro heq
    split at htwo
    · rename_i hodd
      refine ⟨hodd, by omega, ?_⟩
      have hall := List.length_filter_eq_length_iff.mp
        (show (msgs.filter (·.data2 = 1)).length = msgs.length by omega)
      exact fun msg hmsg => of_decide_eq_true (hall msg hmsg)
    · omega
  · rintro ⟨hodd, heq, hall⟩
    have hsame := List.length_filter_eq_length_iff.mpr fun msg hmsg =>
      decide_eq_true (hall msg hmsg)
    rw [if_pos hodd] at htwo
    omega

/-- Two changes need the first half of the replies to agree, and the second half. -/
theorem acceptorRound_once_iff {l : OnepaxosReplicaT} {msgs : List SmltMsg}
    (hzero : ∀ i, l.currentAcceptorVotes i = 0) (hleader : l.id ≠ l.currentLeader)
    (hids : ∀ msg ∈ msgs, msg.data2 < cfg.numReplicas) (hlen : msgs.length ≤ cfg.numReplicas - 1) :
    Once l (acceptorRound cfg l msgs) ↔
      ¬ (cfg.numReplicas % 2 = 1 ∧ ∃ a b, msgs.map SmltMsg.data2 =
        List.replicate ((cfg.numReplicas - 1) / 2) a ++
          List.replicate ((cfg.numReplicas - 1) / 2) b) := by
  have hpos := majority_pos cfg
  have htwo := two_mul_majority cfg
  have h2 := cfg.two_le_numReplicas
  have hle : (msgs.map SmltMsg.data2).length ≤ 2 * majority cfg := by
    rw [List.length_map]
    split at htwo <;> omega
  obtain ⟨hnumber, -, hown⟩ := acceptorRound_spec l (fun _ => 0) msgs
    ⟨fun i _ => hzero i, fun _ _ => hpos⟩ hids
  have honce : Once l (acceptorRound cfg l msgs) ↔
      ¬ 2 ≤ wins (majority cfg) (fun _ => 0) (msgs.map SmltMsg.data2) := by
    constructor
    · intro h
      have hgrow := h.number
      omega
    · intro h
      exact ⟨by omega, fun hdead => hown (by omega) hleader ▸ hdead⟩
  rw [honce, two_wins_iff hpos hle, not_iff_not]
  constructor
  · rintro ⟨a, b, heq⟩
    have hlength := congrArg List.length heq
    rw [List.length_map, List.length_append, List.length_replicate, List.length_replicate] at hlength
    split at htwo
    · rename_i hodd
      have hhalf : (cfg.numReplicas - 1) / 2 = majority cfg := by omega
      rw [hhalf]
      exact ⟨hodd, a, b, heq⟩
    · omega
  · rintro ⟨hodd, a, b, heq⟩
    rw [if_pos hodd] at htwo
    have hhalf : (cfg.numReplicas - 1) / 2 = majority cfg := by omega
    rw [hhalf] at heq
    exact ⟨a, b, heq⟩

/-- A round takes effect more than once only in groups of odd size whose other replicas all
reply: with yes to the leader, or in two halves that each name one acceptor. -/
theorem rounds_once_iff (cfg : Config) (l : OnepaxosReplicaT) (msgs : List SmltMsg)
    (hsuccess : l.numSuccess = 0) (hvotes : ∀ i, l.currentAcceptorVotes i = 0)
    (hid : l.id < cfg.numReplicas) (hlen : msgs.length ≤ cfg.numReplicas - 1) :
    (l.id = l.currentLeader → l.currentAcceptor ≠ l.id →
      (Once l (leaderRound cfg l msgs) ↔
        ¬ (cfg.numReplicas % 2 = 1 ∧ msgs.length = cfg.numReplicas - 1 ∧
          ∀ msg ∈ msgs, msg.data2 = 1))) ∧
    (l.id ≠ l.currentLeader → (∀ msg ∈ msgs, msg.data2 < cfg.numReplicas) →
      (Once l (acceptorRound cfg l msgs) ↔
        ¬ (cfg.numReplicas % 2 = 1 ∧ ∃ a b, msgs.map SmltMsg.data2 =
          List.replicate ((cfg.numReplicas - 1) / 2) a ++
            List.replicate ((cfg.numReplicas - 1) / 2) b))) :=
  ⟨fun hleader hacceptor => leaderRound_once_iff hsuccess hleader hid hacceptor hlen,
    fun hleader hids => acceptorRound_once_iff hvotes hleader hids hlen⟩

/-- A reply to either question, with `answer` as its third word. -/
private def replyOf (tag answer : Nat) : SmltMsg :=
  SmltMsg.withTag ⟨0, 1, answer, 0, 0, 0, 0⟩ tag

/-- Three positive replies at the leader of four replicas, and three replies at replica 2
that do not agree. -/
theorem rounds_once_four :
    Once (initReplicaOnepaxos .fourNodes 0) (leaderRound .fourNodes (initReplicaOnepaxos .fourNodes 0)
      [replyOf ONE_IS_LEADER 1, replyOf ONE_IS_LEADER 1, replyOf ONE_IS_LEADER 1]) ∧
    Once (initReplicaOnepaxos .fourNodes 2) (acceptorRound .fourNodes
      (initReplicaOnepaxos .fourNodes 2) [replyOf ONE_GET_ACCEPTOR 1, replyOf ONE_GET_ACCEPTOR 3,
        replyOf ONE_GET_ACCEPTOR 1]) :=
  ⟨((rounds_once_iff .fourNodes (initReplicaOnepaxos .fourNodes 0) _ rfl (fun _ => rfl) (by decide)
      (by decide)).1 rfl (by decide)).mpr (fun h => absurd h.1 (by decide)),
    ((rounds_once_iff .fourNodes (initReplicaOnepaxos .fourNodes 2) _ rfl (fun _ => rfl) (by decide)
      (by decide)).2 (by decide) (by decide)).mpr (fun h => absurd h.1 (by decide))⟩

/-- With three replicas a majority is one reply: the leader replaces the acceptor twice, and
replica 2 becomes the leader and then marks itself as dead. -/
theorem rounds_twice :
    ¬ Once (initReplicaOnepaxos .threeNodes 0) (leaderRound .threeNodes
      (initReplicaOnepaxos .threeNodes 0) [replyOf ONE_IS_LEADER 1, replyOf ONE_IS_LEADER 1]) ∧
    ¬ Once (initReplicaOnepaxos .threeNodes 2) (acceptorRound .threeNodes
      (initReplicaOnepaxos .threeNodes 2) [replyOf ONE_GET_ACCEPTOR 1, replyOf ONE_GET_ACCEPTOR 1]) := by
  constructor
  · intro h
    have hnumber := h.number
    revert hnumber
    decide
  · intro h
    have hdead := h.own (by decide)
    revert hdead
    decide

/-- The leader either takes the next id or finds that there is none before it changes
anything; the acceptor stays a replica. -/
structure Replaced (cfg : Config) (l : OnepaxosReplicaT) (msg : SmltMsg) (r : Done) : Prop where
  choice : IsLeast (candidates cfg l) r.1.currentAcceptor ∨
    ¬ (candidates cfg l).Nonempty ∧ r.1.currentN = l.currentN ∧ r.2.1 = msg ∧
      r.2.2 = [.print "Replica %d: not enough nodes left to get new acceptor \n" [l.id]]
  acceptor_lt : r.1.currentAcceptor < cfg.numReplicas

/-- With no id left, the acceptor becomes 255. -/
theorem replaced_iff (cfg : Config) (l : OnepaxosReplicaT) (msg : SmltMsg) (hyes : msg.data2 = 1)
    (hmajority : (l.numSuccess + 1) % 2 ^ 16 = majority cfg) :
    Replaced cfg l msg (handleIsCurrentLeaderResponse cfg l msg) ↔
      ∃ j, l.currentAcceptor < j ∧ j < cfg.numReplicas ∧ j ≠ l.currentLeader := by
  have hn := cfg.numReplicas_lt
  rw [handleIsCurrentLeaderResponse_majority hyes hmajority]
  constructor
  · intro h
    by_contra hnone
    have hlt := h.acceptor_lt
    dsimp only at hlt
    rw [nextAcceptorId_of_not hnone] at hlt
    omega
  · intro h
    have hleast := nextAcceptorId_of_candidate h
    have hsmall : nextAcceptorId cfg l % 2 ^ 8 = nextAcceptorId cfg l :=
      Nat.mod_eq_of_lt (hleast.1.2.1.trans hn)
    rw [hsmall]
    exact ⟨.inl hleast, hleast.1.2.1⟩

/-- The acceptor with the largest id fails and the leader has a smaller one. -/
theorem replaced_last :
    Replaced .fourNodes { initReplicaOnepaxos .fourNodes 0 with numSuccess := 1 }
      ⟨ONE_IS_LEADER * 2 ^ 48, 1, 1, 0, 0, 0, 0⟩
      (handleIsCurrentLeaderResponse .fourNodes
        { initReplicaOnepaxos .fourNodes 0 with numSuccess := 1 }
        ⟨ONE_IS_LEADER * 2 ^ 48, 1, 1, 0, 0, 0, 0⟩) :=
  (replaced_iff .fourNodes _ _ rfl rfl).mpr ⟨2, by decide⟩

/-- No id is left after the last one. -/
theorem replaced_fails :
    ¬ ∀ (cfg : Config) (l : OnepaxosReplicaT) (msg : SmltMsg), l.currentLeader < cfg.numReplicas →
      l.currentAcceptor < cfg.numReplicas → msg.data2 = 1 →
        (l.numSuccess + 1) % 2 ^ 16 = majority cfg →
          Replaced cfg l msg (handleIsCurrentLeaderResponse cfg l msg) := by
  intro h
  have hlt := (h .threeNodes { initReplicaOnepaxos .threeNodes 0 with currentAcceptor := 2 }
    ⟨ONE_IS_LEADER * 2 ^ 48, 1, 1, 0, 0, 0, 0⟩ (by decide) (by decide) rfl rfl).acceptor_lt
  revert hlt
  decide

/-- Each replica but the acceptor is sent one learn message for the proposal, and the
acceptor none. -/
def Covers (cfg : Config) (l : OnepaxosReplicaT) (msg : SmltMsg) : Prop :=
  ∀ j, j < cfg.numReplicas →
    sentTo (.replica j) ((handleAccept cfg l msg).2.2.map .out : List Ev) =
      if j = l.id then [] else [learnMsg l.index msg]

/-- The loop leaves out the first acceptor, whoever runs it. -/
theorem covers_iff (cfg : Config) (l : OnepaxosReplicaT) (msg : SmltMsg)
    (haccept : l.highestProposalNumber ≤ msg.data2) : Covers cfg l msg ↔ l.id = 1 := by
  have h2 := cfg.two_le_numReplicas
  have hsent : ∀ j, j < cfg.numReplicas →
      sentTo (.replica j) ((handleAccept cfg l msg).2.2.map .out : List Ev) =
        if j = 1 then [] else [learnMsg l.index msg] := by
    intro j hj
    obtain ⟨success, hout⟩ : ∃ success : Bool, (handleAccept cfg l msg).2.2 =
        sendEach (learners cfg) (learnMsg l.index msg) ++
          if success then [.exec (learnMsg l.index msg).command] else [] := by
      unfold handleAccept
      rw [if_pos haccept]
      dsimp only
      unfold execute
      dsimp only
      split
      · exact ⟨false, rfl⟩
      · exact ⟨true, rfl⟩
    rw [hout, List.map_append, sentTo_append, sentTo_replica_sendEach j nodup_learners]
    by_cases hone : j = 1
    · cases success <;> simp [hone]
    · cases success <;> simp [hone, hj]
  constructor
  · intro h
    by_contra hne
    have hone := h 1 (by omega)
    rw [hsent 1 (by omega), if_pos rfl, if_neg (Ne.symm hne)] at hone
    cases hone
  · intro h j hj
    rw [hsent j hj, h]

/-- The first acceptor of four replicas. -/
theorem covers_first :
    Covers .fourNodes (initReplicaOnepaxos .fourNodes 1) ⟨ONE_ACC * 2 ^ 48, 0, 0, 0, 7, 7, 7⟩ :=
  (covers_iff .fourNodes (initReplicaOnepaxos .fourNodes 1) _ (by decide)).mpr rfl

/-- Replica 2 becomes the acceptor and accepts a proposal. -/
theorem covers_fails :
    ¬ ∀ (cfg : Config) (l : OnepaxosReplicaT) (msg : SmltMsg), l.id < cfg.numReplicas →
      l.id = l.currentAcceptor → l.highestProposalNumber ≤ msg.data2 → Covers cfg l msg := by
  intro h
  have hone := h .fourNodes
    (handleChangeAcceptor (initReplicaOnepaxos .fourNodes 2)
      ⟨ONE_CHANGE_ACCEPTOR * 2 ^ 48, 0, 2, 0, 0, 0, 0⟩).1
    ⟨ONE_ACC * 2 ^ 48, 0, 0, 0, 7, 7, 7⟩ (by decide) (by decide) (by decide) 1 (by decide)
  revert hone
  decide

end SmeltConsensus.OnePaxos.Change
