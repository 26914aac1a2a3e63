import SmeltConsensus.Raft.Follower
import SmeltConsensus.Raft.Leader

/-!
What the replicas have done in a reachable state, as a function of the messages
they received, and why every message is the one its receiver is ready for.
-/

set_option autoImplicit false
set_option relaxedAutoImplicit false

namespace SmeltConsensus.Raft.History

open SmeltConsensus.Foundation.Network
open SmeltConsensus.Message.Header
open SmeltConsensus.Cluster.Parties
open SmeltConsensus.Raft.Replica
open SmeltConsensus.Raft.CommitIndex
open SmeltConsensus.Raft.Follower
open SmeltConsensus.Raft.Leader

variable {cfg : Config}

/-- A follower has appended the entries it received and executed all but the last. -/
structure FollowerHistory (i : Nat) (l : RaftReplicaT) (t : List Ev) : Prop where
  state : Following l i ((receivedFrom (.replica 0) t).map SmltMsg.command)
    ((receivedFrom (.replica 0) t).length - 1) ((receivedFrom (.replica 0) t).length - 1)
  executed_eq : executed t = ((receivedFrom (.replica 0) t).map SmltMsg.command).dropLast
  sends_eq : sends t = (receivedFrom (.replica 0) t).mapIdx fun k m =>
    (.replica 0, replyMsg i (k + 1) m)

/-- The leader has sent every request to every follower and waits for follower `i`; it
has executed and answered the requests that the committing follower acknowledged. -/
structure LeaderHistory (cfg : Config) (i : Nat) (l : RaftReplicaT) (t : List Ev) : Prop where
  state : Leading cfg l (requested t) i
  ownRequests : OwnRequests cfg t
  appends : ∀ j, 1 ≤ j → j < cfg.numReplicas →
    sentTo (.replica j) t = (requests t).mapIdx fun k x => appendMsg k x.2
  appends_nil : ∀ j, j = 0 ∨ cfg.numReplicas ≤ j → sentTo (.replica j) t = []
  replies : ∀ j, 1 ≤ j → j < cfg.numReplicas → (receivedFrom (.replica j) t).length =
    if j < i then (requests t).length else (requests t).length - 1
  service_eq : service t =
    ((requests t).zip (receivedFrom (.replica (committer cfg.numReplicas)) t)).flatMap fun x =>
      [.exec x.1.2.command, .send (cfg.clientAt x.1.2.clientId) x.2]
  prints : ∀ text args, .out (.print text args) ∉ t
  setups : SetupsAnswered cfg t

/-- A request that has no reply yet is paired with none. -/
private theorem zip_pending {α β : Type} {rs : List α} {ms : List β} (h : ms.length = rs.length)
    (x : α) : (rs ++ [x]).zip ms = rs.zip ms := by
  have hzip : (rs ++ [x]).zip (ms ++ []) = rs.zip ms ++ [] := List.zip_append h.symm
  rwa [List.append_nil, List.append_nil] at hzip

/-- Once there is a request, the messages tell for which follower the leader waits. -/
theorem LeaderHistory.unique {i j : Nat} {l l' : RaftReplicaT} {t : List Ev}
    (h : LeaderHistory cfg i l t) (h' : LeaderHistory cfg j l' t) (hpos : 0 < (requests t).length) :
    i = j := by
  have hi := h.replies i h.state.pos
  have hi' := h'.replies i h.state.pos
  have hj := h.replies j h'.state.pos
  have hj' := h'.replies j h'.state.pos
  have hle := h.state.le
  have hle' := h'.state.le
  by_contra hne
  rcases Nat.lt_or_gt_of_ne hne with hlt | hlt
  · have hn : i < cfg.numReplicas := by omega
    have heq := (hi hn).symm.trans (hi' hn)
    rw [if_neg (Nat.lt_irrefl i), if_pos hlt] at heq
    omega
  · have hn : j < cfg.numReplicas := by omega
    have heq := (hj hn).symm.trans (hj' hn)
    rw [if_neg (Nat.lt_irrefl j), if_pos hlt] at heq
    omega

/-- The history of replica `i`; replica 0 leads. -/
def ReplicaHistory (cfg : Config) : Nat → RaftReplicaT → List Ev → Prop
  | 0, l, t => ∃ i, LeaderHistory cfg i l t
  | i + 1, l, t => FollowerHistory (i + 1) l t

theorem follower_init {i : Nat} (h : i ≠ 0) : FollowerHistory i (initReplicaRaft cfg i) [] where
  state := following_init h
  executed_eq := rfl
  sends_eq := rfl

theorem leader_init (cfg : Config) :
    LeaderHistory cfg cfg.numReplicas (initReplicaRaft cfg 0) [] where
  state := leading_init cfg
  ownRequests x hx := by cases hx
  appends j _ _ := rfl
  appends_nil j _ := rfl
  replies j _ hj := (if_pos hj).symm
  service_eq := rfl
  prints text args h := by cases h
  setups := setupsAnswered_nil

section Follower

variable {i : Nat} {l : RaftReplicaT} {t : List Ev} {msg : SmltMsg}

private theorem executed_getLast (cs : List Command) (t : List Ev) :
    executed (t ++ (cs.getLast?.toList.map .exec : List Out).map .out) =
      executed t ++ cs.getLast?.toList := by
  rw [executed_append]
  cases cs.getLast? <;> rfl

private theorem dropLast_append_getLast (cs : List Command) :
    cs.dropLast ++ cs.getLast?.toList = cs := by
  rcases List.eq_nil_or_concat' cs with rfl | ⟨ds, c, rfl⟩
  · rfl
  · rw [List.dropLast_concat, List.getLast?_concat]
    rfl

variable (cfg) in
/-- The next append at a follower. -/
private theorem follower_step (h : FollowerHistory i l t)
    (hm : IsAppend msg (receivedFrom (.replica 0) t).length) :
    FollowerHistory i (messageHandlerLoop cfg l msg).1
      (t ++ .recv (.replica 0) msg :: (messageHandlerLoop cfg l msg).2.map .out) := by
  obtain ⟨ms, hms⟩ : ∃ ms, receivedFrom (.replica 0) t = ms := ⟨_, rfl⟩
  obtain ⟨hstate, hexecuted, hsends⟩ := h
  rw [hms] at hstate hexecuted hsends hm
  have hlen : (ms.map SmltMsg.command).length = ms.length := List.length_map _
  obtain ⟨l', hstep, hl'⟩ := append_step cfg (by rw [hlen]; exact hstate)
    (by rw [hlen]; exact hm)
  rw [hlen] at hstep hl'
  rw [hstep]
  have hrecv : ∀ os : List Out, receivedFrom (.replica 0)
      (t ++ .recv (.replica 0) msg :: os.map .out) = ms ++ [msg] := fun os => by
    rw [receivedFrom_step, hms]
  have hlast : (ms ++ [msg]).length - 1 = ms.length := by
    rw [List.length_append, List.length_singleton, Nat.add_sub_cancel]
  refine ⟨?_, ?_, ?_⟩
  · rw [hrecv, hlast, List.map_append]
    exact hl'
  · rw [hrecv, List.map_append, List.map_singleton, List.dropLast_concat]
    rw [List.map_cons, List.append_cons, List.append_cons, executed_getLast, executed_append,
      executed_append, hexecuted]
    simp only [executed_recv, executed_send, executed_nil, List.append_nil]
    exact dropLast_append_getLast _
  · rw [hrecv, List.mapIdx_concat, sends_append, hsends]
    congr 1
    rw [sends_recv, List.map_cons, sends_send]
    congr 1
    cases (ms.map SmltMsg.command).getLast? <;> rfl

end Follower

section Leader

variable {i core : Nat} {l : RaftReplicaT} {t : List Ev} {msg : SmltMsg}

/-- A set-up message between requests. -/
private theorem leader_setup (h : LeaderHistory cfg cfg.numReplicas l t)
    (ht : msg.tag = SETUP_TAG) :
    LeaderHistory cfg cfg.numReplicas (messageHandlerLoop cfg l msg).1
      (t ++ .recv (.client core) msg :: (messageHandlerLoop cfg l msg).2.map .out) := by
  obtain ⟨l', hstep, hl'⟩ := setup_step h.state ht
  have hmsg : msg.tag = 0 := ht
  rw [hstep]
  have hreq : requests (t ++ .recv (.client core) msg :: (handleSetup cfg msg).map .out) =
      requests t := by simp [hmsg]
  have hrecv : ∀ j, receivedFrom (.replica j)
      (t ++ .recv (.client core) msg :: (handleSetup cfg msg).map .out) =
        receivedFrom (.replica j) t := fun j => by simp
  have hsent : ∀ j, sentTo (.replica j)
      (t ++ .recv (.client core) msg :: (handleSetup cfg msg).map .out) =
        sentTo (.replica j) t := fun j => by simp [handleSetup]
  refine ⟨?_, ?_, ?_, ?_, ?_, ?_, ?_, ?_⟩
  · rw [requested, hreq]
    exact hl'
  · intro x hx
    rw [hreq] at hx
    exact h.ownRequests x hx
  · intro j h1 hj
    rw [hsent, hreq]
    exact h.appends j h1 hj
  · intro j hj
    rw [hsent]
    exact h.appends_nil j hj
  · intro j h1 hj
    rw [hrecv, hreq]
    exact h.replies j h1 hj
  · rw [hrecv, hreq, ← h.service_eq]
    simp [handleSetup, hmsg]
  · intro text args hmem
    have hold := h.prints text args
    simp [handleSetup, hold] at hmem
  · exact h.setups.step ⟨fun _ => rfl, fun hne => absurd ht hne⟩

/-- A request between requests. -/
private theorem leader_request (h : LeaderHistory cfg cfg.numReplicas l t)
    (ht : msg.tag = REQ_TAG) (hclient : cfg.clients[msg.clientId]? = some core) :
    LeaderHistory cfg 1 (messageHandlerLoop cfg l msg).1
      (t ++ .recv (.client core) msg :: (messageHandlerLoop cfg l msg).2.map .out) := by
  obtain ⟨l', hstep, hl'⟩ := request_step h.state ht
  have hmsg : msg.tag = 1 := ht
  have hk : (requested t).length = (requests t).length := List.length_map _
  rw [hk] at hstep
  rw [hstep]
  generalize hos : sendEach (List.range' 1 (cfg.numReplicas - 1))
    (appendMsg (requests t).length msg) = os
  have hreq : requests (t ++ .recv (.client core) msg :: os.map .out) =
      requests t ++ [(.client core, msg)] := by simp [hmsg]
  have hrecv : ∀ j, receivedFrom (.replica j) (t ++ .recv (.client core) msg :: os.map .out) =
      receivedFrom (.replica j) t := fun j => by simp
  have hsent : ∀ j, sentTo (.replica j) (t ++ .recv (.client core) msg :: os.map .out) =
      sentTo (.replica j) t ++ if j ∈ List.range' 1 (cfg.numReplicas - 1) then
        [appendMsg (requests t).length msg] else [] := fun j => by
    rw [sentTo_append, sentTo_recv, ← hos, sentTo_replica_sendEach j List.nodup_range']
  have hcommitter : 1 ≤ committer cfg.numReplicas := Nat.le_max_left _ _
  refine ⟨?_, ?_, ?_, ?_, ?_, ?_, ?_, ?_⟩
  · rw [requested, hreq, List.map_append]
    exact hl'
  · intro x hx
    rw [hreq, List.mem_append] at hx
    rcases hx with hx | hx
    · exact h.ownRequests x hx
    · obtain rfl := List.mem_singleton.mp hx
      exact ⟨core, rfl, hclient⟩
  · intro j h1 hj
    have hmem : j ∈ List.range' 1 (cfg.numReplicas - 1) := by
      rw [List.mem_range'_1]
      omega
    rw [hsent, hreq, if_pos hmem, h.appends j h1 hj, List.mapIdx_concat]
  · intro j hj
    have hmem : j ∉ List.range' 1 (cfg.numReplicas - 1) := by
      rw [List.mem_range'_1]
      omega
    rw [hsent, if_neg hmem, h.appends_nil j hj, List.append_nil]
  · intro j h1 hj
    rw [hrecv, hreq, h.replies j h1 hj, if_pos hj, if_neg (Nat.not_lt.mpr h1),
      List.length_append, List.length_singleton, Nat.add_sub_cancel]
  · have hlen := h.replies _ hcommitter (committer_lt cfg)
    rw [if_pos (committer_lt cfg)] at hlen
    rw [hrecv, hreq, zip_pending hlen, ← h.service_eq, service_append, service_recv, ← hos, service_sendEach,
      List.append_nil]
  · intro text args hmem
    have hold := h.prints text args
    simp [hold, ← hos, sendEach] at hmem
  · refine h.setups.step ⟨fun hs => ?_, fun _ c m hm => ?_⟩
    · rw [ht] at hs
      cases hs
    · rw [← hos, mem_sendEach] at hm
      obtain ⟨-, j, -, hj⟩ := hm
      cases hj

/-- The reply that the leader waits for. -/
private theorem leader_reply (h : LeaderHistory cfg i l t) (hi : i < cfg.numReplicas)
    (hm : IsReply msg i (requests t).length) :
    LeaderHistory cfg (i + 1) (messageHandlerLoop cfg l msg).1
      (t ++ .recv (.replica i) msg :: (messageHandlerLoop cfg l msg).2.map .out) := by
  have hk : (requested t).length = (requests t).length := List.length_map _
  have hcs : requested t ≠ [] := fun hnil =>
    Nat.ne_of_lt hi (h.state.idle_of_nil hnil)
  have hrs : requests t ≠ [] := fun hnil => hcs (by rw [requested, hnil, List.map_nil])
  have hpos := h.state.pos
  have hmsg : msg.tag = 4 := hm.tag
  obtain ⟨rs, x, hsplit⟩ := (List.eq_nil_or_concat' (requests t)).resolve_left hrs
  have hlast : (requested t).getLast? = some x.2.command := by
    rw [requested, hsplit, List.map_append, List.map_singleton, List.getLast?_concat]
  obtain ⟨l', hstep, hl'⟩ := reply_step h.state hi hcs (by rw [hk]; exact hm)
  rw [hlast] at hstep
  rw [hstep]
  generalize hos : (if i = committer cfg.numReplicas then
    (some x.2.command).toList.flatMap fun c => [Output.exec c, .send (cfg.clientAt c.clientId) msg]
    else []) = os
  have houts : os = if i = committer cfg.numReplicas then
      [.exec x.2.command, .send (cfg.clientAt x.2.clientId) msg] else [] := hos.symm
  have hreq : requests (t ++ .recv (.replica i) msg :: os.map .out) = requests t := by
    simp [hmsg]
  have hrecv : ∀ j, receivedFrom (.replica j) (t ++ .recv (.replica i) msg :: os.map .out) =
      receivedFrom (.replica j) t ++ if i = j then [msg] else [] := fun j => by
    rw [receivedFrom_append, receivedFrom_recv, receivedFrom_map_out]
    simp only [Party.replica.injEq]
  have hsent : ∀ j, sentTo (.replica j) (t ++ .recv (.replica i) msg :: os.map .out) =
      sentTo (.replica j) t := fun j => by
    rw [sentTo_append, sentTo_recv, houts]
    split <;> simp
  refine ⟨?_, ?_, ?_, ?_, ?_, ?_, ?_, ?_⟩
  · rw [requested, hreq]
    exact hl'
  · intro x hx
    rw [hreq] at hx
    exact h.ownRequests x hx
  · intro j h1 hj
    rw [hsent, hreq]
    exact h.appends j h1 hj
  · intro j hj
    rw [hsent]
    exact h.appends_nil j hj
  · intro j h1 hj
    have hlen := List.length_pos_of_ne_nil hrs
    rw [hrecv, hreq, List.length_append, h.replies j h1 hj]
    by_cases hij : i = j
    · subst hij
      rw [if_pos rfl, if_neg (Nat.lt_irrefl i), if_pos (Nat.lt_succ_self i), List.length_singleton]
      omega
    · rw [if_neg hij, List.length_nil, Nat.add_zero]
      split_ifs <;> omega
  · rw [hrecv, hreq, service_append, service_recv, h.service_eq, houts]
    by_cases hcm : i = committer cfg.numReplicas
    · have hlen : (receivedFrom (.replica (committer cfg.numReplicas)) t).length = rs.length := by
        rw [h.replies _ (hcm ▸ hpos) (committer_lt cfg), ← hcm, if_neg (Nat.lt_irrefl i), hsplit,
          List.length_append, List.length_singleton, Nat.add_sub_cancel]
      have hafter : (rs ++ [x]).zip
          (receivedFrom (Party.replica (committer cfg.numReplicas)) t ++ [msg]) =
          rs.zip (receivedFrom (.replica (committer cfg.numReplicas)) t) ++ [(x, msg)] :=
        List.zip_append hlen.symm
      rw [if_pos hcm, if_pos hcm, hsplit, hafter, zip_pending hlen, List.flatMap_append]
      congr 1
      simp [hmsg]
    · rw [if_neg hcm, if_neg hcm, List.append_nil]
      simp
  · intro text args hmem
    have hold := h.prints text args
    rw [houts] at hmem
    split at hmem <;> simp [hold] at hmem
  · refine h.setups.step ⟨fun hs => ?_, fun hne c m hm => ?_⟩
    · rw [SETUP_TAG, hmsg] at hs
      cases hs
    · rw [houts] at hm
      split at hm
      · simp only [List.mem_cons, reduceCtorEq, Output.send.injEq, List.not_mem_nil, or_false,
          false_or] at hm
        rw [hm.2]
        exact hne
      · cases hm

end Leader

section Network

variable {C : ClientProc cfg}

theorem isAppend_appendMsg (k : Nat) (msg : SmltMsg) : IsAppend (appendMsg k msg) k where
  tag := by
    show getTag (setTag msg.data0 RAFT_APP) = RAFT_APP
    rw [getTag_setTag]
    rfl
  term := (getRequestId_setTag _ _).trans (getRequestId_setRequestId _ _)
  leader := congrArg (· % 2 ^ 8) (getTag_setTag _ _)
  prevIndex := rfl
  commit := rfl

theorem isReply_replyMsg {i : Nat} (hi : i < 2 ^ 8) (index : Nat) (msg : SmltMsg) :
    IsReply (replyMsg i index msg) i index where
  tag := by
    show getTag (setTag msg.data0 RAFT_APPR) = RAFT_APPR
    rw [getTag_setTag]
    rfl
  term := Nat.one_mod_eq_one.mpr (by decide)
  index := rfl
  replicaId := Nat.mod_eq_of_lt hi
  success := Nat.one_ne_zero

/-- What a follower has sent to the leader. -/
theorem FollowerHistory.sentTo_leader {i : Nat} {l : RaftReplicaT} {t : List Ev}
    (h : FollowerHistory i l t) : sentTo (.replica 0) t =
      (receivedFrom (.replica 0) t).mapIdx fun k m => replyMsg i (k + 1) m := by
  rw [sentTo_eq_sends, h.sends_eq, List.filter_eq_self.mpr]
  · ext k m
    simp
  · intro x hx
    obtain ⟨k, hk, rfl⟩ := List.mem_mapIdx.mp hx
    exact decide_eq_true rfl

/-- Replica `i` received no more entries than the leader took requests. -/
private theorem received_length_le {s : Net (cluster (raftReplica cfg) C)} (hr : s.Reachable)
    {w : Nat} {l : RaftReplicaT} (h : LeaderHistory cfg w l (s.trace (.replica 0))) {j : Nat}
    (h1 : 1 ≤ j) (hj : j < cfg.numReplicas) :
    (receivedFrom (.replica 0) (s.trace (.replica j))).length ≤
      (requests (s.trace (.replica 0))).length := by
  have hle := (hr.receivedFrom_prefix (.replica 0) (.replica j)).length_le
  rwa [h.appends j h1 hj, List.length_mapIdx] at hle

/-- The next message at the leader is a request or set-up message between requests, or the
reply it waits for. -/
private theorem leader_next {s : Net (cluster (raftReplica cfg) C)} (hr : s.Reachable) {w : Nat}
    {l : RaftReplicaT} (hw : LeaderHistory cfg w l (s.trace (.replica 0)))
    (hfollowers : ∀ j, 1 ≤ j → sentTo (.replica 0) (s.trace (.replica j)) =
      (receivedFrom (.replica 0) (s.trace (.replica j))).mapIdx fun k m => replyMsg j (k + 1) m)
    {src : Party} {msg : SmltMsg} (hp : polls cfg l src = true)
    (hnext : receivedFrom src (s.trace (.replica 0)) ++ [msg] <+:
      sentTo (.replica 0) (s.trace src)) :
    ReplicaHistory cfg 0 (messageHandlerLoop cfg l msg).1
      (s.trace (.replica 0) ++ .recv src msg :: (messageHandlerLoop cfg l msg).2.map .out) := by
  have hwaits := hw.state.waits
  have hpos := hw.state.pos
  have hbyte := cfg.numReplicas_lt
  by_cases hlt : w < cfg.numReplicas
  · -- blocked inside of `handle_request`
    rw [if_pos hlt] at hwaits
    have hsrc : src = .replica w := by simpa [polls, hw.state.alive, hwaits] using hp
    subst hsrc
    rw [hfollowers w hpos] at hnext
    obtain ⟨m, -, rfl⟩ := next_of_prefix hnext
    have hlen := hw.replies w hpos hlt
    rw [if_neg (Nat.lt_irrefl w)] at hlen
    have hrs : requests (s.trace (.replica 0)) ≠ [] := fun hnil =>
      Nat.ne_of_lt hlt (hw.state.idle_of_nil (by rw [requested, hnil, List.map_nil]))
    have hindex : (requests (s.trace (.replica 0))).length - 1 + 1 =
        (requests (s.trace (.replica 0))).length := by
      have hpos := List.length_pos_of_ne_nil hrs
      omega
    rw [hlen, hindex]
    exact ⟨w + 1, leader_reply hw hlt (isReply_replyMsg (by omega) _ _)⟩
  · -- between requests
    obtain rfl : w = cfg.numReplicas := Nat.le_antisymm hw.state.le (Nat.le_of_not_lt hlt)
    rw [if_neg hlt] at hwaits
    rcases src with j | core
    · have hj : j < cfg.numReplicas := by
        simpa [polls, hw.state.alive, hwaits, hw.state.id] using hp
      exfalso
      rcases Nat.eq_zero_or_pos j with rfl | h1
      · rw [hw.appends_nil 0 (Or.inl rfl)] at hnext
        exact absurd (List.prefix_nil.mp hnext) (by simp)
      · have hle := hnext.length_le
        have hmax := received_length_le hr hw h1 hj
        rw [hfollowers j h1, List.length_mapIdx, List.length_append, List.length_singleton,
          hw.replies j h1 hj, if_pos hj] at hle
        omega
    · have hfrom := fromClient_of_mem_sentTo hr (hnext.subset (by simp : msg ∈ _ ++ [msg]))
      rcases hfrom with ⟨hreq, hclient⟩ | ⟨hsetup, -⟩
      · exact ⟨1, leader_request hw hreq hclient⟩
      · exact ⟨_, leader_setup hw hsetup⟩

/-- The histories of all replicas. -/
theorem histories {s : Net (cluster (raftReplica cfg) C)} (h : s.Reachable) (i : Nat) :
    ReplicaHistory cfg i (s.loc (.replica i)) (s.trace (.replica i)) := by
  refine group_induction (R := raftReplica cfg) (C := C) (ReplicaHistory cfg) ?_ ?_ h i
  · rintro (_ | i)
    · exact ⟨_, leader_init cfg⟩
    · exact follower_init (Nat.succ_ne_zero i)
  · rintro s ls (_ | i) src msg hr hI hp hnext
    · obtain ⟨w, hw⟩ := hI 0
      exact leader_next hr hw (fun j hj => by
        obtain ⟨k, rfl⟩ := Nat.exists_eq_add_of_le' hj
        exact (hI (k + 1)).sentTo_leader) hp hnext
    · obtain ⟨w, hw⟩ := hI 0
      have hi : FollowerHistory (i + 1) (ls (i + 1)) (s.trace (.replica (i + 1))) := hI (i + 1)
      have hsrc : src = .replica 0 := by
        simpa [raftReplica, polls, hi.state.alive, hi.state.waits, hi.state.id, hi.state.leader]
          using hp
      subst hsrc
      have hlt : i + 1 < cfg.numReplicas := by
        by_contra hge
        rw [hw.appends_nil (i + 1) (by omega)] at hnext
        exact absurd (List.prefix_nil.mp hnext) (by simp)
      rw [hw.appends (i + 1) (Nat.le_add_left 1 i) hlt] at hnext
      obtain ⟨x, -, rfl⟩ := next_of_prefix hnext
      exact follower_step cfg hi (isAppend_appendMsg _ _)

end Network

end SmeltConsensus.Raft.History
