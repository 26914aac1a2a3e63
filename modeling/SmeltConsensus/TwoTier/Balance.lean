import SmeltConsensus.Broadcast.Replication
import SmeltConsensus.Raft.Safety
import SmeltConsensus.TwoPhase.Commit
import SmeltConsensus.TwoTier.NodeCore

/-!
Broadcast replication, two-phase commit and Raft below a node: the first replica
answers the node core once for each request and nobody else sends it anything.
-/

set_option autoImplicit false
set_option relaxedAutoImplicit false

namespace SmeltConsensus.TwoTier.Balance

open SmeltConsensus.Foundation.Network
open SmeltConsensus.Message.Header
open SmeltConsensus.Cluster.Parties
open SmeltConsensus.TwoTier.ComLayer
open SmeltConsensus.TwoTier.NodeCore

variable {cfg : Config} {hclients : cfg.clients = [cfg.startedFrom]} {com : ComLayerT}

/-- A replica that sends to replicas only sends nothing to a client. -/
theorem sentTo_client_of_silent {t : List Ev} {i : Nat} (h : ∀ x ∈ sends t, x.1 = .replica i)
    (core : Nat) : sentTo (.client core) t = [] := by
  have hnone : (sends t).filter (fun x => x.1 = .client core) = [] := by
    rw [List.filter_eq_nil_iff]
    intro x hx
    rw [h x hx]
    simp
  rw [sentTo_eq_sends, hnone, List.map_nil]

/-- A client of a core-level group is the core that started it. -/
theorem eq_startedFrom (hclients : cfg.clients = [cfg.startedFrom]) {cid core : Nat}
    (h : cfg.clients[cid]? = some core) : cid = 0 ∧ core = cfg.startedFrom := by
  rw [hclients] at h
  obtain ⟨hlt, hget⟩ := List.getElem?_eq_some_iff.mp h
  rw [List.length_singleton, Nat.lt_one_iff] at hlt
  subst hlt
  exact ⟨rfl, hget.symm⟩

theorem clientAt_eq (hclients : cfg.clients = [cfg.startedFrom]) {cid : Nat}
    (h : cid < cfg.clients.length) : cfg.clientAt cid = .client cfg.startedFrom := by
  rw [hclients, List.length_singleton, Nat.lt_one_iff] at h
  rw [h, Config.clientAt, hclients]
  rfl

theorem length_le (hclients : cfg.clients = [cfg.startedFrom]) :
    cfg.clients.length ≤ MAX_NUM_CLIENTS := by
  rw [hclients, List.length_singleton, MAX_NUM_CLIENTS]
  omega

theorem startedFrom_mem (hclients : cfg.clients = [cfg.startedFrom]) :
    cfg.startedFrom ∈ cfg.clients := by
  rw [hclients]
  exact List.mem_singleton_self _

section Broadcast

open SmeltConsensus.Broadcast.Replica
open SmeltConsensus.Broadcast.Replication

private theorem broadcast_loc {C : ClientProc cfg} {s : Net (cluster (broadcastReplica cfg) C)}
    (h : s.Reachable) (i : Nat) : s.loc (.replica i) = (⟨i, cfg.level⟩ : ReplicaT) := by
  apply replica_induction (R := broadcastReplica cfg) i (fun (l : ReplicaT) _ => l = ⟨i, cfg.level⟩)
    rfl _ h
  rintro s s' l src msg - - hl - -
  exact hl

/-- Broadcast replication below a node. -/
theorem broadcast_balanced (hcount : com.reqCount = 0)
    {s : Net (cluster (broadcastReplica cfg) (nodeCore cfg hclients com))} (h : s.Reachable) :
    Balanced s := by
  obtain ⟨hlead, hfol, -⟩ := histories (.inr hclients) h
  have hinputs := inputs_from_clients h
  have hown : OwnRequests cfg (s.trace (.replica 0)) :=
    ownRequests_of h fun x hx => hinputs x (List.mem_filter.mp hx).1
  have hsetup : ∀ m ∈ replies s, m.tag ≠ SETUP_TAG := by
    apply (setupsAnswered (R := broadcastReplica cfg) answersSetup h 0).no_setup
    rintro ⟨src, m⟩ hx
    obtain ⟨core, rfl⟩ := hinputs _ hx
    have hsent := (h.receivedFrom_prefix _ _).subset (mem_receivedFrom_iff.mpr hx)
    rw [request_of_client h hsent]
    decide
  have hresp : responses (s.trace (.replica 0)) = (requests (s.trace (.replica 0))).map
      fun x => (x.1, x.2.withTag BROAD_COMMIT) := by
    rw [responses, hlead.service, filterMap_sendOf_flatMap]
  have hreplies : (replies s).length = (requests (s.trace (.replica 0))).length := by
    rw [replies_length hsetup, hresp, List.length_map]
    intro x hx
    rw [hresp] at hx
    obtain ⟨y, hy, rfl⟩ := List.mem_map.mp hx
    obtain ⟨core, hsrc, hcid⟩ := hown y hy
    rw [hsrc, (eq_startedFrom hclients hcid).2]
  apply balanced_of hcount h hown
  · intro i hi
    rw [sentTo_eq_sends, (hfol i hi).sends]
    rfl
  · exact hreplies.le
  · intro hlt
    omega
  · intro _
    left
    rw [broadcast_loc h 0]
    simp [broadcastReplica, polls, startedFrom_mem hclients]

end Broadcast

section TwoPhase

open SmeltConsensus.TwoPhase.Replica
open SmeltConsensus.TwoPhase.Commit

variable {ready ack : ClientTable}

private theorem tpc_id {C : ClientProc cfg} {s : Net (cluster (tpcReplica cfg ready ack) C)}
    (h : s.Reachable) (i : Nat) : TpcReplicaT.id (s.loc (.replica i)) = i := by
  apply replica_induction (R := tpcReplica cfg ready ack) i (fun (l : TpcReplicaT) _ => l.id = i)
    rfl _ h
  rintro s s' l src msg - - hl - -
  exact (messageHandlerTpc_frame cfg l msg).1.trans hl

/-- Two-phase commit below a node: the leader answers as often as it executes. -/
private theorem tpc_replies
    {s : Net (cluster (tpcReplica cfg ready ack) (nodeCore cfg hclients com))} (h : s.Reachable) :
    (replies s).length = (executed (s.trace (.replica 0))).length := by
  have hmax := length_le hclients
  obtain ⟨hlead, -, hchan⟩ := histories (.inr hclients) hmax h
  have hresp : responses (s.trace (.replica 0)) = (commits (s.trace (.replica 0))).map
      fun m => (cfg.clientAt m.clientId, m.withTag RESP_TAG) := by
    rw [responses, hlead.service, filterMap_sendOf_flatMap]
  have hsetup : ∀ m ∈ replies s, m.tag ≠ SETUP_TAG := by
    apply no_setup h (setupsAnswered (R := tpcReplica cfg ready ack) answersSetup h 0)
    rintro (_ | i) m hm
    · rcases (hchan _ _ m hm).1 with htag | htag
      · rw [htag]
        decide
      · rw [htag]
        decide
    · rw [(hchan _ _ m hm).2.1]
      decide
  rw [replies_length hsetup, hresp, hlead.executed_eq, List.length_map, List.length_map]
  intro x hx
  rw [hresp] at hx
  obtain ⟨m, hm, rfl⟩ := List.mem_map.mp hx
  exact clientAt_eq hclients (hchan (.replica 0) (.replica 1) m (List.mem_filter.mp hm).1).2

/-- In a core-level group every command is of client 0. -/
private theorem tpc_ofClient
    {s : Net (cluster (tpcReplica cfg ready ack) (nodeCore cfg hclients com))} (h : s.Reachable) :
    ofClient 0 (executed (s.trace (.replica 0))) = executed (s.trace (.replica 0)) ∧
      ofClient 0 (requested (s.trace (.replica 0))) = requested (s.trace (.replica 0)) := by
  have hmax := length_le hclients
  obtain ⟨hlead, -, hchan⟩ := histories (.inr hclients) hmax h
  constructor
  · rw [hlead.executed_eq]
    apply List.filter_eq_self.mpr
    intro c hc
    obtain ⟨m, hm, rfl⟩ := List.mem_map.mp hc
    have hlt := (hchan (.replica 0) (.replica 1) m (List.mem_filter.mp hm).1).2
    rw [hclients, List.length_singleton, Nat.lt_one_iff] at hlt
    exact decide_eq_true hlt
  · apply List.filter_eq_self.mpr
    intro c hc
    obtain ⟨x, hx, rfl⟩ := List.mem_map.mp hc
    obtain ⟨core, -, hcid⟩ := hlead.ownRequests x hx
    exact decide_eq_true (eq_startedFrom hclients hcid).1

/-- Two-phase commit below a node. -/
theorem tpc_balanced (hcount : com.reqCount = 0)
    {s : Net (cluster (tpcReplica cfg ready ack) (nodeCore cfg hclients com))} (h : s.Reachable) :
    Balanced s := by
  have hd : cfg.Direct := .inr hclients
  have hmax := length_le hclients
  have hopen : OneOpen ready ack (nodeCore cfg hclients com) := by
    intro s h cid core hcid
    obtain ⟨rfl, -⟩ := eq_startedFrom hclients hcid
    have hle := requests_le hcount h (histories hd hmax h).1.ownRequests
    rw [tpc_replies h] at hle
    rw [(tpc_ofClient h).1, (tpc_ofClient h).2, requested, List.length_map]
    exact hle
  obtain ⟨hlead, hpart, -⟩ := histories hd hmax h
  have hzero : 0 < MAX_NUM_CLIENTS := by decide
  obtain ⟨table, hvoting⟩ := voting hopen hd hmax h hzero
  apply balanced_of hcount h hlead.ownRequests
  · exact fun i hi => sentTo_client_of_silent (hpart i hi).silent _
  · have hle := hvoting.closed_prefix.length_le
    rw [(tpc_ofClient h).1, (tpc_ofClient h).2, requested, List.length_map] at hle
    rw [tpc_replies h]
    exact hle
  · intro hlt
    by_contra hstuck
    -- nothing is in flight between the leader and a participant
    have hempty : ∀ i, 1 ≤ i → i < cfg.numReplicas →
        s.inFlight (.replica 0) (.replica i) = [] ∧ s.inFlight (.replica i) (.replica 0) = [] := by
      intro i h1 hn
      have hto := congrArg List.length (h.fifo (.replica 0) (.replica i))
      have hfrom := congrArg List.length (h.fifo (.replica i) (.replica 0))
      rw [List.length_append] at hto hfrom
      constructor
      · apply List.eq_nil_of_length_eq_zero
        by_contra hne
        apply hstuck
        apply canDeliver (p := .replica 0) (q := .replica i) h _ (by omega)
        show polls cfg (s.loc (.replica i)) (.replica 0) = true
        have hid := tpc_id h i
        simp [polls, hid, Nat.ne_of_gt h1]
      · apply List.eq_nil_of_length_eq_zero
        by_contra hne
        apply hstuck
        apply canDeliver (p := .replica i) (q := .replica 0) h _ (by omega)
        show polls cfg (s.loc (.replica 0)) (.replica i) = true
        have hid := tpc_id h 0
        simp [polls, hid, hn, h1]
    have hexec := hvoting.executed_eq fun i h1 hn =>
      readies_of_empty hd hmax h h1 hn (hempty i h1 hn).1 (hempty i h1 hn).2
    rw [(tpc_ofClient h).1, (tpc_ofClient h).2] at hexec
    rw [tpc_replies h, hexec, requested, List.length_map] at hlt
    omega
  · intro _
    left
    show polls cfg (s.loc (.replica 0)) (.client cfg.startedFrom) = true
    have hid := tpc_id h 0
    simp [polls, hid, startedFrom_mem hclients]

end TwoPhase

section Raft

open SmeltConsensus.Raft.Replica
open SmeltConsensus.Raft.CommitIndex
open SmeltConsensus.Raft.Leader
open SmeltConsensus.Raft.History
open SmeltConsensus.Raft.Safety

variable {s : Net (cluster (raftReplica cfg) (nodeCore cfg hclients com))}

/-- A leader that waits for a follower is not left waiting. -/
private theorem raft_canDeliver (h : s.Reachable) {w : Nat}
    (hw : LeaderHistory cfg w (s.loc (.replica 0)) (s.trace (.replica 0)))
    (hlt : w < cfg.numReplicas) : CanDeliver s := by
  obtain ⟨i, rfl⟩ := Nat.exists_eq_add_of_le' hw.state.pos
  have hfollower : FollowerHistory (i + 1) (s.loc (.replica (i + 1)))
      (s.trace (.replica (i + 1))) := histories h (i + 1)
  have hsent := congrArg List.length (hw.appends (i + 1) hw.state.pos hlt)
  have hacks := congrArg List.length (sentTo_leader h i)
  have hreceived := hw.replies (i + 1) hw.state.pos hlt
  have hle := (h.receivedFrom_prefix (.replica 0) (.replica (i + 1))).length_le
  rw [List.length_mapIdx] at hsent hacks
  rw [if_neg (Nat.lt_irrefl _)] at hreceived
  rcases Nat.lt_or_ge (receivedFrom (.replica 0) (s.trace (.replica (i + 1)))).length
      (sentTo (.replica (i + 1)) (s.trace (.replica 0))).length with hmore | hall
  · apply canDeliver (p := .replica 0) (q := .replica (i + 1)) h _ hmore
    show polls cfg (s.loc (.replica (i + 1))) (.replica 0) = true
    simp [polls, hfollower.state.alive, hfollower.state.waits, hfollower.state.id,
      hfollower.state.leader]
  · have hpos : requests (s.trace (.replica 0)) ≠ [] := by
      intro hnil
      have hidle := hw.state.idle_of_nil (by rw [requested, hnil, List.map_nil])
      omega
    have hrequests := List.length_pos_of_ne_nil hpos
    apply canDeliver (p := .replica (i + 1)) (q := .replica 0) h _ (by omega)
    show polls cfg (s.loc (.replica 0)) (.replica (i + 1)) = true
    simp [polls, hw.state.alive, hw.state.waits, hlt]

/-- The leader answers as often as it executes. -/
private theorem raft_replies (h : s.Reachable) {w : Nat}
    (hw : LeaderHistory cfg w (s.loc (.replica 0)) (s.trace (.replica 0))) :
    (replies s).length = (executed (s.trace (.replica 0))).length := by
  have hexec := executed_eq_service (s.trace (.replica 0))
  have hresponses := congrArg (List.filterMap sendOf) hw.service_eq
  rw [hw.service_eq, filterMap_execOf_flatMap] at hexec
  rw [filterMap_sendOf_flatMap] at hresponses
  have hsetup : ∀ m ∈ replies s, m.tag ≠ SETUP_TAG := by
    apply no_setup h hw.setups
    rintro (_ | i) m hm
    · rw [hw.appends_nil 0 (.inl rfl)] at hm
      cases hm
    · rw [sentTo_leader h i] at hm
      obtain ⟨k, hk, rfl⟩ := List.mem_mapIdx.mp hm
      rw [tag_replyMsg]
      decide
  have hclient : (replies s).length = (responses (s.trace (.replica 0))).length := by
    apply replies_length hsetup
    intro x hx
    rw [responses, hresponses] at hx
    obtain ⟨y, hy, rfl⟩ := List.mem_map.mp hx
    obtain ⟨core, -, hcid⟩ := hw.ownRequests y.1 (List.of_mem_zip hy).1
    exact clientAt_eq hclients (List.getElem?_eq_some_iff.mp hcid).1
  rw [hclient, responses, hresponses, hexec, List.length_map, List.length_map]

/-- Raft below a node. -/
theorem raft_balanced (hcount : com.reqCount = 0) (h : s.Reachable) : Balanced s := by
  obtain ⟨w, hw⟩ : ∃ w, LeaderHistory cfg w (s.loc (.replica 0)) (s.trace (.replica 0)) :=
    histories h 0
  have hexec := leader_executed_eq h hw
  have hlen := congrArg List.length hexec
  rw [List.length_take, requested, List.length_map] at hlen
  apply balanced_of hcount h hw.ownRequests
  · intro i hi
    obtain ⟨i, rfl⟩ := Nat.exists_eq_succ_of_ne_zero hi
    have hfollower : FollowerHistory (i + 1) (s.loc (.replica (i + 1)))
        (s.trace (.replica (i + 1))) := histories h (i + 1)
    apply sentTo_client_of_silent (i := 0)
    intro x hx
    rw [hfollower.sends_eq] at hx
    obtain ⟨k, hk, rfl⟩ := List.mem_mapIdx.mp hx
    rfl
  · rw [raft_replies h hw]
    omega
  · intro hlt
    rcases Nat.lt_or_ge w cfg.numReplicas with hwait | hidle
    · exact raft_canDeliver h hw hwait
    · have hall : w = cfg.numReplicas := Nat.le_antisymm hw.state.le hidle
      have happlied := hw.state.lastApplied
      rw [hall, committed_idle, requested, List.length_map] at happlied
      rw [raft_replies h hw] at hlt
      omega
  · intro _
    rcases Nat.lt_or_ge w cfg.numReplicas with hwait | hidle
    · exact .inr (raft_canDeliver h hw hwait)
    · left
      show polls cfg (s.loc (.replica 0)) (.client cfg.startedFrom) = true
      simp [polls, hw.state.alive, hw.state.waits, hw.state.id, Nat.not_lt.mpr hidle,
        startedFrom_mem hclients]

end Raft

end SmeltConsensus.TwoTier.Balance
