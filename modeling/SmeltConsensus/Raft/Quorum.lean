import Mathlib.Data.Finset.Card
import SmeltConsensus.Raft.Safety

/-!
How many replicas have appended an entry when the leader commits it. The leader
counts `(num_replicas - 1) / 2` followers, which together with itself is a strict
majority for odd groups only.
-/

set_option autoImplicit false
set_option relaxedAutoImplicit false

namespace SmeltConsensus.Raft.Quorum

open SmeltConsensus.Foundation.Network
open SmeltConsensus.Message.Header
open SmeltConsensus.Cluster.Parties
open SmeltConsensus.Raft.Replica
open SmeltConsensus.Raft.Log
open SmeltConsensus.Raft.CommitIndex
open SmeltConsensus.Raft.Follower
open SmeltConsensus.Raft.Leader
open SmeltConsensus.Raft.History
open SmeltConsensus.Raft.Safety

variable {cfg : Config} {C : ClientProc cfg}

/-- The replicas that have appended the entry at an index. -/
def appendedBy (s : Net (cluster (raftReplica cfg) C)) (index : Nat) : Finset Nat :=
  (Finset.range cfg.numReplicas).filter fun i =>
    (appended (s.loc (.replica i)).heap index).isSome

/-- The entry at an index is committed. -/
def Committed (s : Net (cluster (raftReplica cfg) C)) (index : Nat) : Prop :=
  1 ≤ index ∧ index ≤ (s.loc (.replica 0)).commitIndex

/-- What a group promises about commits in all of its runs. -/
structure CommitQuorum (cfg : Config) (C : ClientProc cfg) : Prop where
  majority : ∀ s : Net (cluster (raftReplica cfg) C), s.Reachable → ∀ index, Committed s index →
    cfg.numReplicas < 2 * (appendedBy s index).card
  intersect : ∀ s s' : Net (cluster (raftReplica cfg) C), s.Reachable → s'.Reachable →
    ∀ index index', Committed s index → Committed s' index' →
      (appendedBy s index ∩ appendedBy s' index').Nonempty

section Counting

variable {s : Net (cluster (raftReplica cfg) C)}

theorem follower_appended (h : s.Reachable) {i index : Nat} :
    (appended (s.loc (.replica (i + 1))).heap index).isSome ↔
      index ≤ (receivedFrom (.replica 0) (s.trace (.replica (i + 1)))).length := by
  have hi : FollowerHistory (i + 1) (s.loc (.replica (i + 1))) (s.trace (.replica (i + 1))) :=
    histories h (i + 1)
  rw [hi.state.log.appended_eq, List.length_map]
  by_cases hle : index ≤ (receivedFrom (.replica 0) (s.trace (.replica (i + 1)))).length
  · have hcs : index ≤ ((receivedFrom (.replica 0) (s.trace (.replica (i + 1)))).map
        SmltMsg.command).length := by rwa [List.length_map]
    obtain ⟨e, he, -⟩ := hi.state.log.val_eq hcs
    rw [if_pos hle, he]
    exact iff_of_true rfl hle
  · rw [if_neg hle]
    exact iff_of_false Bool.false_ne_true hle

/-- A follower has appended what it has acknowledged. -/
theorem acknowledged_appended (h : s.Reachable) {w : Nat} {l : RaftReplicaT}
    (hw : LeaderHistory cfg w l (s.trace (.replica 0))) {i index : Nat} (h1 : 1 ≤ i)
    (hi : i < cfg.numReplicas) (hindex : index ≤ if i < w then (requests (s.trace (.replica 0))).length
      else (requests (s.trace (.replica 0))).length - 1) :
    (appended (s.loc (.replica i)).heap index).isSome := by
  obtain ⟨j, rfl⟩ := Nat.exists_eq_add_of_le' h1
  have hle := (h.receivedFrom_prefix (.replica (j + 1)) (.replica 0)).length_le
  rw [sentTo_leader h j, List.length_mapIdx, hw.replies (j + 1) h1 hi] at hle
  exact (follower_appended h).mpr (hindex.trans hle)

/-- A committed entry is in the logs of the leader and of the followers that were counted. -/
theorem committed_appendedBy (h : s.Reachable) {index : Nat} (hc : Committed s index) :
    Finset.range (committer cfg.numReplicas + 1) ⊆ appendedBy s index := by
  obtain ⟨w, hw⟩ : ∃ w, LeaderHistory cfg w (s.loc (.replica 0)) (s.trace (.replica 0)) :=
    histories h 0
  obtain ⟨h1, hle⟩ := hc
  rw [hw.state.commitIndex, requested, List.length_map, committed] at hle
  have hlt := committer_lt cfg
  intro i hi
  rw [Finset.mem_range] at hi
  apply Finset.mem_filter.mpr
  refine ⟨Finset.mem_range.mpr (by omega), ?_⟩
  rcases Nat.eq_zero_or_pos i with rfl | hpos
  · have hlast : index ≤ (requested (s.trace (.replica 0))).length := by
      rw [requested, List.length_map]
      split at hle <;> omega
    obtain ⟨e, he, -⟩ := hw.state.log.val_eq hlast
    rw [hw.state.log.appended_eq, if_pos hlast, he]
    rfl
  · apply acknowledged_appended h hw hpos (by omega)
    split at hle <;> split <;> omega

theorem appendedBy_subset (s : Net (cluster (raftReplica cfg) C)) (index : Nat) :
    appendedBy s index ⊆ Finset.range cfg.numReplicas := Finset.filter_subset _ _

end Counting

/-- Two strict majorities meet. -/
theorem commitQuorum_of_majority (hmajority : ∀ s : Net (cluster (raftReplica cfg) C),
    s.Reachable → ∀ index, Committed s index →
      cfg.numReplicas < 2 * (appendedBy s index).card) : CommitQuorum cfg C where
  majority := hmajority
  intersect s s' h h' index index' hc hc' := by
    apply Finset.inter_nonempty_of_card_lt_card_add_card (appendedBy_subset s index)
      (appendedBy_subset s' index')
    have hs := hmajority s h index hc
    have hs' := hmajority s' h' index' hc'
    rw [Finset.card_range]
    omega

/-- The count is a majority in groups of two and of odd size. -/
theorem commitQuorum_of_odd (hn : cfg.numReplicas % 2 = 1 ∨ cfg.numReplicas = 2) :
    CommitQuorum cfg C := by
  apply commitQuorum_of_majority
  intro s h index hc
  have hcard := Finset.card_le_card (committed_appendedBy h hc)
  rw [Finset.card_range, committer] at hcard
  have h2 := cfg.two_le_numReplicas
  omega

section EvenGroup

variable {s : Net (cluster (raftReplica cfg) C)}

/-- The leader waits for follower `j + 1` to acknowledge its only request, and the followers
from `j + 1` on have received nothing. -/
structure Collecting (j : Nat) (s : Net (cluster (raftReplica cfg) C)) : Prop where
  reachable : s.Reachable
  leader : LeaderHistory cfg (j + 1) (s.loc (.replica 0)) (s.trace (.replica 0))
  one : (requests (s.trace (.replica 0))).length = 1
  rest : ∀ i, j < i → i < cfg.numReplicas → s.trace (.replica i) = []

/-- The append reaches follower `j + 1`. -/
private theorem append_delivered {j : Nat} (h : Collecting j s) (hj : j + 1 < cfg.numReplicas) :
    ∃ s' : Net (cluster (raftReplica cfg) C), s'.Reachable ∧
      s'.trace (.replica 0) = s.trace (.replica 0) ∧
      (receivedFrom (.replica 0) (s'.trace (.replica (j + 1)))).length = 1 ∧
      ∀ i, j + 1 < i → i < cfg.numReplicas → s'.trace (.replica i) = [] := by
  have hi : FollowerHistory (j + 1) (s.loc (.replica (j + 1))) (s.trace (.replica (j + 1))) :=
    histories h.reachable (j + 1)
  have hnone := h.rest (j + 1) (Nat.lt_succ_self j) hj
  have hpolls : (cluster (raftReplica cfg) C).polls (.replica (j + 1)) (s.loc (.replica (j + 1)))
      (.replica 0) = true := by
    show polls cfg (s.loc (.replica (j + 1))) (.replica 0) = true
    simp [polls, hi.state.alive, hi.state.waits, hi.state.id, hi.state.leader]
  have hlt : (receivedFrom (.replica 0) (s.trace (.replica (j + 1)))).length <
      (sentTo (.replica (j + 1)) (s.trace (.replica 0))).length := by
    rw [hnone, h.leader.appends (j + 1) (Nat.le_add_left 1 j) hj, List.length_mapIdx, h.one]
    exact Nat.zero_lt_one
  obtain ⟨m, s', hstep, -, htrace⟩ := h.reachable.deliver hpolls hlt
  refine ⟨s', h.reachable.step hstep, ?_, ?_, fun i hlt hi => ?_⟩
  · exact Net.step_trace_of_ne hstep (by simp [Net.actor])
  · rw [htrace, receivedFrom_step, hnone]
    rfl
  · rw [Net.step_trace_of_ne hstep (by simp [Net.actor]; omega)]
    exact h.rest i (by omega) hi

/-- Follower `j + 1` appends and its acknowledgement reaches the leader. -/
private theorem collect {j : Nat} (h : Collecting j s) (hj : j + 1 < cfg.numReplicas) :
    ∃ s' : Net (cluster (raftReplica cfg) C), Collecting (j + 1) s' := by
  obtain ⟨s₁, hr, htrace, hreceived, hrest⟩ := append_delivered h hj
  obtain ⟨w, hw⟩ : ∃ w, LeaderHistory cfg w (s₁.loc (.replica 0)) (s₁.trace (.replica 0)) :=
    histories hr 0
  have hpos : 1 ≤ w := hw.state.pos
  have hone : (requests (s₁.trace (.replica 0))).length = 1 := by rw [htrace, h.one]
  -- the leader still waits for follower `j + 1`
  have hwj : w = j + 1 := hw.unique (htrace ▸ h.leader) (by omega)
  subst hwj
  have hpolls : (cluster (raftReplica cfg) C).polls (.replica 0) (s₁.loc (.replica 0))
      (.replica (j + 1)) = true := by
    show polls cfg (s₁.loc (.replica 0)) (.replica (j + 1)) = true
    simp [polls, hw.state.alive, hw.state.waits, hj]
  have hnone := hw.replies (j + 1) hpos hj
  rw [if_neg (Nat.lt_irrefl _), hone] at hnone
  obtain ⟨m, s₂, hstep, hnext, htrace₂⟩ := hr.deliver hpolls (by
    rw [hnone, sentTo_leader hr, List.length_mapIdx, hreceived]
    exact Nat.zero_lt_one)
  rw [sentTo_leader hr] at hnext
  obtain ⟨x, -, rfl⟩ := next_of_prefix hnext
  have hr₂ := hr.step hstep
  obtain ⟨w', hw'⟩ : ∃ w, LeaderHistory cfg w (s₂.loc (.replica 0)) (s₂.trace (.replica 0)) :=
    histories hr₂ 0
  have hone₂ : (requests (s₂.trace (.replica 0))).length = 1 := by
    rw [htrace₂, requests_append, requests_recv, tag_replyMsg, requests_map_out, RAFT_APPR, REQ_TAG,
      if_neg (by decide), List.append_nil, hone]
  have hw'j : w' = j + 1 + 1 := by
    have hle := hw'.state.le
    have hfirst := hw'.replies (j + 1) hpos hj
    rw [hone₂, htrace₂, receivedFrom_step, List.length_append, hnone, List.length_singleton] at hfirst
    have hsecond : j + 1 + 1 < cfg.numReplicas → ¬ j + 1 + 1 < w' := fun hlt hlt' => by
      have hreplies := hw'.replies (j + 1 + 1) (Nat.le_add_left 1 _) hlt
      have hold := hw.replies (j + 1 + 1) (Nat.le_add_left 1 _) hlt
      have hne : Party.replica (j + 1) ≠ .replica (j + 1 + 1) := by simp
      rw [hone₂, htrace₂, receivedFrom_append, receivedFrom_recv, if_neg hne, receivedFrom_map_out,
        List.append_nil, hold, if_pos hlt', if_neg (by omega), hone] at hreplies
      cases hreplies
    split at hfirst <;> omega
  subst hw'j
  refine ⟨s₂, hr₂, hw', hone₂, fun i hlt hi => ?_⟩
  rw [Net.step_trace_of_ne hstep (by simp [Net.actor]; omega)]
  exact hrest i hlt hi

/-- A request of the first client. -/
private def firstRequest : SmltMsg := SmltMsg.stamp ⟨0, 0, 0, 0, 0, 0, 0⟩ 0 0 0 ⟨0, 0, 0⟩

/-- The leader takes the first request of a run. -/
private theorem collecting_zero {core : Nat} (hcore : cfg.clients[0]? = some core) :
    ∃ s : Net (cluster (raftReplica cfg) (anyClient cfg)), Collecting 0 s := by
  have hfrom : cfg.FromClient core firstRequest := Or.inl ⟨SmltMsg.tag_stamp _ _ _ _ _, hcore⟩
  obtain ⟨s₁, hstep₁, htrace₁⟩ := anyClient_step (R := raftReplica cfg) (Net.initial _) hfrom
  have hr₁ := Net.Reachable.init.step hstep₁
  have hother₁ : ∀ i, s₁.trace (.replica i) = [] := fun i =>
    Net.step_trace_of_ne hstep₁ (by simp [Net.actor])
  obtain ⟨w₁, hw₁⟩ : ∃ w, LeaderHistory cfg w (s₁.loc (.replica 0)) (s₁.trace (.replica 0)) :=
    histories hr₁ 0
  have hwaits : (s₁.loc (.replica 0)).waits = [] := by
    rw [hw₁.state.waits, hw₁.state.idle_of_nil (by rw [hother₁]; rfl), if_neg (Nat.lt_irrefl _)]
  have hpolls : (cluster (raftReplica cfg) (anyClient cfg)).polls (.replica 0)
      (s₁.loc (.replica 0)) (.client core) = true := by
    show polls cfg (s₁.loc (.replica 0)) (.client core) = true
    simp [polls, hw₁.state.alive, hwaits, hw₁.state.id, List.mem_of_getElem? hcore]
  have hsent : sentTo (.replica 0) (s₁.trace (.client core)) = [firstRequest] := by
    rw [htrace₁]
    rfl
  obtain ⟨m, s₂, hstep₂, hnext, htrace₂⟩ := hr₁.deliver hpolls (by
    rw [hsent, hother₁]
    exact Nat.zero_lt_one)
  have hm : m = firstRequest := by
    rw [hsent, hother₁] at hnext
    exact (List.cons.inj (hnext.eq_of_length rfl)).1
  subst hm
  have hr₂ := hr₁.step hstep₂
  obtain ⟨w, hw⟩ : ∃ w, LeaderHistory cfg w (s₂.loc (.replica 0)) (s₂.trace (.replica 0)) :=
    histories hr₂ 0
  have htag : firstRequest.tag = REQ_TAG := SmltMsg.tag_stamp _ _ _ _ _
  have hone : (requests (s₂.trace (.replica 0))).length = 1 := by
    rw [htrace₂, hother₁, requests_append, requests_recv, if_pos htag, requests_map_out]
    rfl
  have hw1 : w = 1 := by
    have hpos := hw.state.pos
    have h2 := cfg.two_le_numReplicas
    have hne : Party.client core ≠ .replica 1 := by simp
    have hreplies := hw.replies 1 le_rfl (by omega)
    rw [hone, htrace₂, hother₁, receivedFrom_append, receivedFrom_recv, if_neg hne,
      receivedFrom_map_out] at hreplies
    by_contra hlt
    rw [if_pos (by omega)] at hreplies
    cases hreplies
  subst hw1
  refine ⟨s₂, hr₂, hw, hone, fun i hpos _ => ?_⟩
  rw [Net.step_trace_of_ne hstep₂ (by simp [Net.actor]; omega), hother₁]

/-- The followers answer one after the other. -/
private theorem collecting {core : Nat} (hcore : cfg.clients[0]? = some core) {j : Nat}
    (hj : j < cfg.numReplicas) :
    ∃ s : Net (cluster (raftReplica cfg) (anyClient cfg)), Collecting j s := by
  induction j with
  | zero => exact collecting_zero hcore
  | succ j ih =>
    obtain ⟨s, hs⟩ := ih (Nat.lt_of_succ_lt hj)
    exact collect hs hj

/-- The first commit, before the other followers have received the entry. -/
private theorem first_commit (h : Collecting (committer cfg.numReplicas) s) :
    Committed s 1 ∧ (appendedBy s 1).card ≤ committer cfg.numReplicas + 1 := by
  constructor
  · refine ⟨le_rfl, ?_⟩
    rw [h.leader.state.commitIndex, requested, List.length_map, h.one, committed,
      if_pos (Nat.lt_succ_self _)]
  · rw [← Finset.card_range (committer cfg.numReplicas + 1)]
    apply Finset.card_le_card
    intro i hi
    obtain ⟨hn, hsome⟩ := Finset.mem_filter.mp hi
    by_contra hge
    rw [Finset.mem_range] at hge hn
    obtain ⟨k, rfl⟩ := Nat.exists_eq_add_of_le' (show 1 ≤ i by omega)
    rw [follower_appended h.reachable, h.rest (k + 1) (by omega) hn] at hsome
    cases hsome

end EvenGroup

/-- A group of `n` replicas with one client. -/
private def group (n : Nat) (h2 : 2 ≤ n) (hn : n < 256) : Config where
  level := .node
  numReplicas := n
  clients := [0]
  two_le_numReplicas := h2
  numReplicas_lt := hn

/-- The leader's count is a strict majority in groups of two and of odd size, and only there. -/
theorem commit_quorum_iff (n : Nat) (h2 : 2 ≤ n) (hn : n < 256) :
    (∀ cfg : Config, cfg.numReplicas = n → ∀ C : ClientProc cfg, CommitQuorum cfg C) ↔
      n % 2 = 1 ∨ n = 2 := by
  constructor
  · intro h
    by_contra heven
    have hquorum := h (group n h2 hn) rfl (anyClient _)
    have hcore : (group n h2 hn).clients[0]? = some 0 := rfl
    obtain ⟨s, hs⟩ := collecting hcore (committer_lt _)
    obtain ⟨hcommitted, hcard⟩ := first_commit hs
    have hmajority := hquorum.majority s hs.reachable 1 hcommitted
    change n < _ at hmajority
    change _ ≤ committer n + 1 at hcard
    unfold committer at hcard
    omega
  · intro hodd cfg hcfg C
    exact commitQuorum_of_odd (by rwa [hcfg])

/-- Four replicas and a client. -/
private def cfg4 : Config := .fourNodes

/-- Only follower 1 takes part. -/
private def schedule4 : List (Action (cluster (raftReplica cfg4) (anyClient cfg4))) :=
  [.stimulate (.client 10) firstRequest, .deliver (.client 10) (.replica 0),
    .deliver (.replica 0) (.replica 1), .deliver (.replica 1) (.replica 0)]

/-- Two of four replicas are enough for a commit. -/
theorem half_of_four_commits : ¬ ∀ (cfg : Config) (C : ClientProc cfg), CommitQuorum cfg C := by
  intro h
  have hcommitted : Committed (((Net.initial (cluster (raftReplica cfg4) (anyClient cfg4))).run
      schedule4).get rfl) 1 := ⟨by decide, by decide⟩
  have hmajority := (h cfg4 (anyClient cfg4)).majority _ (Net.reachable_of_run schedule4 rfl) 1
    hcommitted
  revert hmajority
  decide

theorem commit_quorum_iff_five : CommitQuorum (group 5 (by decide) (by decide)) (anyClient _) :=
  (commit_quorum_iff 5 (by decide) (by decide)).mpr (by decide) _ rfl _

end SmeltConsensus.Raft.Quorum
