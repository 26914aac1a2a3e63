import SmeltConsensus.Raft.History

/-!
State machine safety of Raft: the replicas execute the requests in the order in
which the leader took them, one for each index of their logs, and the leader
answers each request once.
-/

set_option autoImplicit false
set_option relaxedAutoImplicit false

namespace SmeltConsensus.Raft.Safety

open SmeltConsensus.Foundation.Network
open SmeltConsensus.Message.Header
open SmeltConsensus.Cluster.Parties
open SmeltConsensus.Raft.LogQueue
open SmeltConsensus.Raft.Replica
open SmeltConsensus.Raft.Log
open SmeltConsensus.Raft.CommitIndex
open SmeltConsensus.Raft.Follower
open SmeltConsensus.Raft.Leader
open SmeltConsensus.Raft.History

variable {cfg : Config} {C : ClientProc cfg} {s : Net (cluster (raftReplica cfg) C)}

theorem command_appendMsg (k : Nat) (msg : SmltMsg) : (appendMsg k msg).command = msg.command := by
  show (⟨getClientId (setTag msg.data0 RAFT_APP), getRequestId (setTag msg.data0 RAFT_APP), _⟩ :
    Command) = _
  rw [getClientId_setTag, getRequestId_setTag]
  rfl

theorem tag_replyMsg (i index : Nat) (msg : SmltMsg) : (replyMsg i index msg).tag = RAFT_APPR := by
  show getTag (setTag msg.data0 RAFT_APPR) = RAFT_APPR
  rw [getTag_setTag]
  rfl

/-- A list that begins an indexed list. -/
theorem eq_mapIdx_take {α β : Type} {xs : List β} {ys : List α} {f : Nat → α → β}
    (h : xs <+: ys.mapIdx f) : xs = (ys.take xs.length).mapIdx f := by
  refine (List.prefix_iff_eq_take.mp h).trans ?_
  ext k m
  rw [List.getElem?_take, List.getElem?_mapIdx, List.getElem?_mapIdx, List.getElem?_take]
  split <;> rfl

theorem prefix_mapIdx {α β : Type} {xs ys : List α} (h : xs <+: ys) (f : Nat → α → β) :
    xs.mapIdx f <+: ys.mapIdx f := by
  obtain ⟨zs, rfl⟩ := h
  rw [List.mapIdx_append]
  exact List.prefix_append _ _

/-- What the leader sends for its `k`-th request, counted from 0. -/
def replicated (t : List Ev) : List SmltMsg := (requests t).mapIdx fun k x => appendMsg k x.2

theorem map_command_replicated (t : List Ev) :
    (replicated t).map SmltMsg.command = requested t := by
  ext k c
  rw [replicated, requested, List.getElem?_map, List.getElem?_mapIdx, List.getElem?_map]
  cases (requests t)[k]? with
  | none => rfl
  | some x => simp only [Option.map_some, command_appendMsg]

/-- What follower `j` has received. -/
theorem follower_received (hr : s.Reachable) {w : Nat} {l : RaftReplicaT}
    (hw : LeaderHistory cfg w l (s.trace (.replica 0))) {j : Nat} (h1 : 1 ≤ j) :
    receivedFrom (.replica 0) (s.trace (.replica j)) <+: replicated (s.trace (.replica 0)) := by
  have hpre := hr.receivedFrom_prefix (.replica 0) (.replica j)
  by_cases hj : j < cfg.numReplicas
  · rwa [hw.appends j h1 hj] at hpre
  · rw [hw.appends_nil j (Or.inr (Nat.le_of_not_lt hj))] at hpre
    exact hpre.trans List.nil_prefix

/-- Every message of a follower is an acknowledgement. -/
theorem sentTo_leader (hr : s.Reachable) (i : Nat) :
    sentTo (.replica 0) (s.trace (.replica (i + 1))) =
      (receivedFrom (.replica 0) (s.trace (.replica (i + 1)))).mapIdx
        fun k m => replyMsg (i + 1) (k + 1) m := by
  have hi : FollowerHistory (i + 1) _ (s.trace (.replica (i + 1))) := histories hr (i + 1)
  exact hi.sentTo_leader

/-- The acknowledgements that the leader has from follower `j`. -/
theorem leader_received (hr : s.Reachable) {w : Nat} {l : RaftReplicaT}
    (hw : LeaderHistory cfg w l (s.trace (.replica 0))) {j : Nat} (h1 : 1 ≤ j) :
    receivedFrom (.replica j) (s.trace (.replica 0)) <+:
      (replicated (s.trace (.replica 0))).mapIdx fun k m => replyMsg j (k + 1) m := by
  obtain ⟨i, rfl⟩ := Nat.exists_eq_add_of_le' h1
  have hpre := hr.receivedFrom_prefix (.replica (i + 1)) (.replica 0)
  rw [sentTo_leader hr i] at hpre
  exact hpre.trans (prefix_mapIdx (follower_received hr hw h1) _)

/-- The response to the request `x` that the leader took after `k` others. -/
def response (n k : Nat) (x : Party × SmltMsg) : SmltMsg :=
  replyMsg (committer n) (k + 1) (appendMsg k x.2)

theorem clientId_response (n k : Nat) (x : Party × SmltMsg) :
    (response n k x).clientId = x.2.clientId := by
  show getClientId (setTag (setTag x.2.data0 RAFT_APP) RAFT_APPR) = getClientId x.2.data0
  rw [getClientId_setTag, getClientId_setTag]

theorem requestId_response (n k : Nat) (x : Party × SmltMsg) :
    (response n k x).requestId = x.2.requestId := by
  show getRequestId (setTag (setTag x.2.data0 RAFT_APP) RAFT_APPR) = getRequestId x.2.data0
  rw [getRequestId_setTag, getRequestId_setTag]

/-- The requests that the leader has executed, with their responses. -/
def answered (n a : Nat) (t : List Ev) : List ((Party × SmltMsg) × SmltMsg) :=
  ((requests t).take a).mapIdx fun k x => (x, response n k x)

theorem map_fst_answered (n a : Nat) (t : List Ev) :
    (answered n a t).map Prod.fst = (requests t).take a := by
  ext k x
  rw [answered, List.getElem?_map, List.getElem?_mapIdx]
  cases ((requests t).take a)[k]? <;> rfl

/-- State machine safety over a whole run. -/
structure StateMachineSafety (s : Net (cluster (raftReplica cfg) C)) : Prop where
  applied_le : (s.loc (.replica 0)).lastApplied ≤ (requested (s.trace (.replica 0))).length
  /-- The leader has executed its first requests. -/
  leader_executed : executed (s.trace (.replica 0)) =
    (requested (s.trace (.replica 0))).take (s.loc (.replica 0)).lastApplied
  follower_prefix : ∀ i, executed (s.trace (.replica i)) <+: executed (s.trace (.replica 0))
  /-- The `k`-th execution is that of the entry at index `k`. -/
  index_order : ∀ i, (executed (s.trace (.replica i))).map some =
    (List.range' 1 (s.loc (.replica i)).lastApplied).map fun index =>
      (appended (s.loc (.replica i)).heap index).map LogEntry.command
  /-- The executions and responses of the leader, in program order. -/
  served_once : service (s.trace (.replica 0)) =
    (answered cfg.numReplicas (s.loc (.replica 0)).lastApplied (s.trace (.replica 0))).flatMap
      fun x => [.exec x.1.2.command, .send (cfg.clientAt x.1.2.clientId) x.2]
  /-- What a client is sent beside set-up replies: the responses to its own requests. -/
  response_owner : ∀ cid core, cfg.clients[cid]? = some core →
    (sentTo (.client core) (s.trace (.replica 0))).filter (·.tag ≠ SETUP_TAG) =
      ((answered cfg.numReplicas (s.loc (.replica 0)).lastApplied (s.trace (.replica 0))).filter
        (·.1.2.clientId = cid)).map Prod.snd
  follower_silent : ∀ i, 1 ≤ i → ∀ x ∈ sends (s.trace (.replica i)), x.1 = .replica 0
  /-- Between requests, all of them are executed and answered. -/
  returned : (s.loc (.replica 0)).waits = [] →
    (s.loc (.replica 0)).lastApplied = (requested (s.trace (.replica 0))).length

private theorem zip_mapIdx_take {α β : Type} (ys : List α) (a : Nat) (f : Nat → α → β) :
    ys.zip ((ys.take a).mapIdx f) = (ys.take a).mapIdx fun k y => (y, f k y) := by
  ext k x
  rw [List.zip, List.getElem?_zipWith, List.getElem?_mapIdx, List.getElem?_mapIdx,
    List.getElem?_take]
  by_cases hk : k < a
  · rw [if_pos hk]
    cases ys[k]? <;> rfl
  · rw [if_neg hk]
    cases ys[k]? <;> rfl

/-- The first `a` elements, by their positions from 1 on. -/
private theorem map_some_take {α : Type} {cs : List α} {a : Nat} (h : a ≤ cs.length) :
    (cs.take a).map some = (List.range' 1 a).map fun j => cs[j - 1]? := by
  ext k x
  rw [List.getElem?_map, List.getElem?_map, List.getElem?_take]
  by_cases hk : k < a
  · have hlt : k < cs.length := Nat.lt_of_lt_of_le hk h
    rw [if_pos hk, List.getElem?_range' hk, List.getElem?_eq_getElem hlt]
    simp [hlt]
  · rw [if_neg hk, List.getElem?_eq_none (by rw [List.length_range']; omega)]
    rfl

section Leader

variable {w : Nat} {l : RaftReplicaT} {t : List Ev}

/-- The entries of a log, by their indices. -/
private theorem appended_commands {heap : LogHeap} {queue : LogQueueT} {c : Nat}
    {cs : List Command} (hlog : LogAt heap queue c cs.length)
    (hcs : ∀ a, 1 ≤ a → a ≤ cs.length → (heap.val a).map LogEntry.command = cs[a - 1]?)
    {a : Nat} (ha : a ≤ cs.length) : (cs.take a).map some =
      (List.range' 1 a).map fun index => (appended heap index).map LogEntry.command := by
  rw [map_some_take ha]
  refine List.map_congr_left fun j hj => ?_
  obtain ⟨h1, hlt⟩ := List.mem_range'_1.mp hj
  have hle : j ≤ cs.length := by omega
  rw [hlog.appended_eq, if_pos hle, hcs j h1 hle]

private theorem applied_le (hw : LeaderHistory cfg w l t) :
    l.lastApplied ≤ (requested t).length := by
  rw [hw.state.lastApplied, committed]
  split <;> omega

/-- The executed requests are those that the committing follower has acknowledged. -/
private theorem received_length (hw : LeaderHistory cfg w l t) :
    (receivedFrom (.replica (committer cfg.numReplicas)) t).length = l.lastApplied := by
  rw [hw.replies _ (one_le_committer _) (committer_lt cfg), hw.state.lastApplied, requested,
    List.length_map]
  rfl

end Leader

/-- The executions and responses of the leader. -/
theorem service_eq_answered (hr : s.Reachable) {w : Nat} {l : RaftReplicaT}
    (hw : LeaderHistory cfg w l (s.trace (.replica 0))) : service (s.trace (.replica 0)) =
      (answered cfg.numReplicas l.lastApplied (s.trace (.replica 0))).flatMap
        fun x => [.exec x.1.2.command, .send (cfg.clientAt x.1.2.clientId) x.2] := by
  have hreceived := leader_received hr hw (one_le_committer cfg.numReplicas)
  have hmap : ((replicated (s.trace (.replica 0))).mapIdx fun k m =>
      replyMsg (committer cfg.numReplicas) (k + 1) m) =
        (requests (s.trace (.replica 0))).mapIdx (response cfg.numReplicas) := by
    rw [replicated, List.mapIdx_mapIdx]
    rfl
  rw [hmap] at hreceived
  rw [hw.service_eq, eq_mapIdx_take hreceived, received_length hw, zip_mapIdx_take, answered]

/-- The leader has executed the requests that it took first. -/
theorem leader_executed_eq (hr : s.Reachable) {w : Nat} {l : RaftReplicaT}
    (hw : LeaderHistory cfg w l (s.trace (.replica 0))) :
    executed (s.trace (.replica 0)) = (requested (s.trace (.replica 0))).take l.lastApplied := by
  rw [executed_eq_service, service_eq_answered hr hw, filterMap_execOf_flatMap, answered, requested]
  ext k c
  rw [List.getElem?_map, List.getElem?_mapIdx, ← List.map_take, List.getElem?_map]
  cases ((requests (s.trace (.replica 0))).take _)[k]? <;> rfl

/-- Raft executes the requests in the order of the leader, for any clients and any interleaving. -/
theorem state_machine_safety (cfg : Config) (C : ClientProc cfg)
    (s : Net (cluster (raftReplica cfg) C)) (h : s.Reachable) : StateMachineSafety s := by
  obtain ⟨w, hw⟩ : ∃ w, LeaderHistory cfg w (s.loc (.replica 0)) (s.trace (.replica 0)) :=
    histories h 0
  have hfollower : ∀ i, FollowerHistory (i + 1) (s.loc (.replica (i + 1)))
      (s.trace (.replica (i + 1))) := fun i => histories h (i + 1)
  have hservice := service_eq_answered h hw
  have hexecuted := leader_executed_eq h hw
  have hreceived : ∀ i, (receivedFrom (.replica 0) (s.trace (.replica (i + 1)))).map
      SmltMsg.command <+: requested (s.trace (.replica 0)) := fun i => by
    rw [← map_command_replicated]
    exact (follower_received h hw (Nat.le_add_left 1 i)).map _
  refine
    { applied_le := applied_le hw
      leader_executed := hexecuted
      follower_prefix := ?_
      index_order := ?_
      served_once := hservice
      response_owner := ?_
      follower_silent := ?_
      returned := ?_ }
  · rintro (_ | i)
    · exact List.prefix_rfl
    · have hlen := (hreceived i).length_le
      rw [(hfollower i).executed_eq, hexecuted]
      apply List.prefix_take_iff.mpr
      constructor
      · exact (List.dropLast_prefix _).trans (hreceived i)
      · rw [List.length_dropLast, hw.state.lastApplied, committed]
        split <;> omega
  · rintro (_ | i)
    · rw [hexecuted]
      exact appended_commands hw.state.log hw.state.commands (applied_le hw)
    · have hi := (hfollower i).state
      rw [(hfollower i).executed_eq, hi.lastApplied, List.dropLast_eq_take, List.length_map]
      refine appended_commands hi.log hi.commands ?_
      rw [List.length_map]
      exact Nat.sub_le _ _
  · intro cid core hcid
    have howner : ∀ x ∈ answered cfg.numReplicas (s.loc (.replica 0)).lastApplied
        (s.trace (.replica 0)), x.2.clientId = x.1.2.clientId ∧
          x.1.2.clientId < cfg.clients.length := by
      intro x hx
      obtain ⟨k, hk, rfl⟩ := List.mem_mapIdx.mp hx
      obtain ⟨core, -, hcore⟩ := hw.ownRequests _ (List.mem_of_mem_take (List.getElem_mem hk))
      exact ⟨clientId_response _ _ _, (List.getElem?_eq_some_iff.mp hcore).1⟩
    have hresp : responses (s.trace (.replica 0)) =
        ((answered cfg.numReplicas (s.loc (.replica 0)).lastApplied
          (s.trace (.replica 0))).map Prod.snd).map fun m => (cfg.clientAt m.clientId, id m) := by
      rw [responses, hservice, filterMap_sendOf_flatMap, List.map_map]
      refine List.map_congr_left fun x hx => ?_
      rw [Function.comp_apply, (howner x hx).1]
      rfl
    rw [sentTo_client_of_responses hresp ?_ hcid, List.map_id, List.filter_map]
    · congr 1
      refine List.filter_congr fun x hx => ?_
      rw [Function.comp_apply, (howner x hx).1]
    · intro m hm
      obtain ⟨x, hx, rfl⟩ := List.mem_map.mp hm
      rw [(howner x hx).1]
      exact (howner x hx).2
  · intro i h1 x hx
    obtain ⟨i, rfl⟩ := Nat.exists_eq_add_of_le' h1
    rw [(hfollower i).sends_eq] at hx
    obtain ⟨k, hk, rfl⟩ := List.mem_mapIdx.mp hx
    rfl
  · intro hwaits
    rw [hw.state.lastApplied, hw.state.idle hwaits, committed_idle]

/-- Three replicas and two clients. -/
private def cfg3 : Config := .threeNodes

/-- Both clients send at once; the second request is taken when the first is done. -/
private def schedule3 : List (Action (cluster (raftReplica cfg3) (anyClient cfg3))) :=
  let zero : SmltMsg := ⟨0, 0, 0, 0, 0, 0, 0⟩
  [.stimulate (.client 10) (zero.stamp 0 1 0 ⟨7, 7, 7⟩),
    .stimulate (.client 11) (zero.stamp 1 1 0 ⟨8, 8, 8⟩),
    .deliver (.client 11) (.replica 0), .deliver (.replica 0) (.replica 1),
    .deliver (.replica 0) (.replica 2), .deliver (.replica 1) (.replica 0),
    .deliver (.replica 2) (.replica 0), .deliver (.client 10) (.replica 0),
    .deliver (.replica 0) (.replica 1), .deliver (.replica 1) (.replica 0)]

/-- Follower 1 learns the first commit from the second request. -/
theorem state_machine_safety_run :
    ∃ s : Net (cluster (raftReplica cfg3) (anyClient cfg3)),
      executed (s.trace (.replica 0)) = [⟨1, 1, ⟨8, 8, 8⟩⟩, ⟨0, 1, ⟨7, 7, 7⟩⟩] ∧
      executed (s.trace (.replica 1)) = [⟨1, 1, ⟨8, 8, 8⟩⟩] ∧ StateMachineSafety s :=
  ⟨((Net.initial _).run schedule3).get rfl, by decide, by decide,
    state_machine_safety cfg3 _ _ (Net.reachable_of_run schedule3 rfl)⟩

end SmeltConsensus.Raft.Safety
