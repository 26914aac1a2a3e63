import SmeltConsensus.Raft.Safety

/-!
What the followers have executed when nothing is left to do. They learn a commit
with the next request only: nobody sends the empty append that would tell them.
-/

set_option autoImplicit false
set_option relaxedAutoImplicit false

namespace SmeltConsensus.Raft.Convergence

open SmeltConsensus.Foundation.Network
open SmeltConsensus.Message.Header
open SmeltConsensus.Cluster.Parties
open SmeltConsensus.Raft.Replica
open SmeltConsensus.Raft.CommitIndex
open SmeltConsensus.Raft.Leader
open SmeltConsensus.Raft.History
open SmeltConsensus.Raft.Safety

variable {cfg : Config} {C : ClientProc cfg}

/-- With nothing in flight, no handler waits for a message. -/
theorem returned_of_quiescent {s : Net (cluster (raftReplica cfg) C)} (h : s.Reachable)
    (hq : s.Quiescent) (i : Nat) : (s.loc (.replica i)).waits = [] := by
  rcases i with _ | i
  · obtain ⟨w, hw⟩ : ∃ w, LeaderHistory cfg w (s.loc (.replica 0)) (s.trace (.replica 0)) :=
      histories h 0
    rw [hw.state.waits]
    apply if_neg
    intro hlt
    obtain ⟨j, rfl⟩ := Nat.exists_eq_add_of_le' hw.state.pos
    have hfollower : FollowerHistory (j + 1) (s.loc (.replica (j + 1)))
        (s.trace (.replica (j + 1))) := histories h (j + 1)
    -- follower `j + 1` has all appends, and the leader all its answers
    have hreplies := hw.replies (j + 1) hw.state.pos hlt
    rw [if_neg (Nat.lt_irrefl _), h.received_eq_sent (hq _ _), hfollower.sentTo_leader,
      List.length_mapIdx, h.received_eq_sent (hq _ _), hw.appends (j + 1) hw.state.pos hlt,
      List.length_mapIdx] at hreplies
    have hnil : requests (s.trace (.replica 0)) = [] :=
      List.eq_nil_of_length_eq_zero (by omega)
    exact Nat.ne_of_lt hlt (hw.state.idle_of_nil (by rw [requested, hnil, List.map_nil]))
  · have hfollower : FollowerHistory (i + 1) (s.loc (.replica (i + 1)))
        (s.trace (.replica (i + 1))) := histories h (i + 1)
    exact hfollower.state.waits

/-- Every client has as many responses as it sent requests. -/
def Answered (s : Net (cluster (raftReplica cfg) C)) : Prop :=
  ∀ core, (responsesReceived (s.trace (.client core))).length =
    (requestsSent (s.trace (.client core))).length

/-- No handler waits for a message. -/
def Returned (s : Net (cluster (raftReplica cfg) C)) : Prop :=
  ∀ i, (s.loc (.replica i)).waits = []

/-- A run that has come to rest. -/
structure AtRest (s : Net (cluster (raftReplica cfg) C)) : Prop where
  answered : Answered s
  returned : Returned s
  quiescent : s.Quiescent

/-- With nothing in flight, the leader has executed what it took, and every follower the
same sequence up to the last command. -/
structure Converged (s : Net (cluster (raftReplica cfg) C)) : Prop where
  leader : executed (s.trace (.replica 0)) = requested (s.trace (.replica 0))
  follower : ∀ i, 1 ≤ i → i < cfg.numReplicas →
    executed (s.trace (.replica i)) = (executed (s.trace (.replica 0))).dropLast

/-- At rest the followers miss exactly the last command. -/
theorem followers_converge (cfg : Config) (C : ClientProc cfg)
    (s : Net (cluster (raftReplica cfg) C)) (h : s.Reachable) (hrest : AtRest s) :
    Converged s := by
  obtain ⟨w, hw⟩ : ∃ w, LeaderHistory cfg w (s.loc (.replica 0)) (s.trace (.replica 0)) :=
    histories h 0
  have hleader : executed (s.trace (.replica 0)) = requested (s.trace (.replica 0)) := by
    rw [leader_executed_eq h hw, hw.state.lastApplied, hw.state.idle (hrest.returned 0),
      committed_idle, List.take_length]
  refine ⟨hleader, fun i h1 hi => ?_⟩
  obtain ⟨i, rfl⟩ := Nat.exists_eq_add_of_le' h1
  have hfollower : FollowerHistory (i + 1) (s.loc (.replica (i + 1)))
      (s.trace (.replica (i + 1))) := histories h (i + 1)
  have hall : receivedFrom (.replica 0) (s.trace (.replica (i + 1))) =
      replicated (s.trace (.replica 0)) := by
    rw [h.received_eq_sent (hrest.quiescent _ _), hw.appends (i + 1) h1 hi, replicated]
  rw [hleader, hfollower.executed_eq, hall, map_command_replicated]

/-- Two replicas and a client. -/
private def cfg2 : Config := .twoNodes

/-- A request, from start to end. -/
private def served (rid : Nat) (command : Payload) :
    List (Action (cluster (raftReplica cfg2) (anyClient cfg2))) :=
  let zero : SmltMsg := ⟨0, 0, 0, 0, 0, 0, 0⟩
  [.stimulate (.client 10) (zero.stamp 0 rid 0 command), .deliver (.client 10) (.replica 0),
    .deliver (.replica 0) (.replica 1), .deliver (.replica 1) (.replica 0),
    .deliver (.replica 0) (.client 10)]

/-- The commit of the first request comes with the second. -/
private def schedule2 : List (Action (cluster (raftReplica cfg2) (anyClient cfg2))) :=
  served 1 ⟨7, 7, 7⟩ ++ served 2 ⟨8, 8, 8⟩

private def rest2 : Net (cluster (raftReplica cfg2) (anyClient cfg2)) :=
  ((Net.initial _).run schedule2).get rfl

private theorem reachable_rest2 : rest2.Reachable := Net.reachable_of_run schedule2 rfl

private theorem idle_rest2 {p : Party} (hp : p ∉ schedule2.map Net.actor) :
    rest2.trace p = [] :=
  Net.run_trace_of_notMem (Option.some_get (rfl : ((Net.initial _).run schedule2).isSome)).symm hp

private theorem quiescent_rest2 : rest2.Quiescent :=
  Net.quiescent_of_run schedule2 rfl (by decide)

private theorem atRest_rest2 : AtRest rest2 where
  answered core := by
    by_cases hcore : core = 10
    · subst hcore
      decide
    · rw [idle_rest2 (by simp [schedule2, served, Net.actor, hcore])]
      rfl
  returned := returned_of_quiescent reachable_rest2 quiescent_rest2
  quiescent := quiescent_rest2

/-- After two requests the leader has executed both and the follower the first. -/
theorem last_command_missing : ¬ ∀ (cfg : Config) (C : ClientProc cfg)
    (s : Net (cluster (raftReplica cfg) C)), s.Reachable → AtRest s → ∀ i, i < cfg.numReplicas →
      executed (s.trace (.replica i)) = executed (s.trace (.replica 0)) := by
  intro h
  have hsame := h cfg2 _ rest2 reachable_rest2 atRest_rest2 1 (by decide)
  revert hsame
  decide

theorem followers_converge_run :
    executed (rest2.trace (.replica 0)) = [⟨0, 1, ⟨7, 7, 7⟩⟩, ⟨0, 2, ⟨8, 8, 8⟩⟩] ∧
      executed (rest2.trace (.replica 1)) = [⟨0, 1, ⟨7, 7, 7⟩⟩] ∧ Converged rest2 :=
  ⟨by decide, by decide, followers_converge cfg2 _ rest2 reachable_rest2 atRest_rest2⟩

end SmeltConsensus.Raft.Convergence
