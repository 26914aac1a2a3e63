import SmeltConsensus.TwoTier.ComLayer

/-!
A core-level group together with the core that started it. That core calls
`com_layer_core_send_request` again and again: a call sends one request to the
first replica and returns with the next message that comes from there.
-/

set_option autoImplicit false
set_option relaxedAutoImplicit false

namespace SmeltConsensus.TwoTier.NodeCore

open SmeltConsensus.Foundation.Network
open SmeltConsensus.Message.Header
open SmeltConsensus.Cluster.Parties
open SmeltConsensus.TwoTier.ComLayer

/-- The group that the 64 records of `thr_args2` describe; what the replicas are really started with
is in `TwoTier.CoreStart`. -/
def coreGroup (com : ComLayerT) (h2 : 2 ≤ com.numCores) (h64 : com.numCores ≤ MAX_NUM_REPLICAS)
    (hcores : com.numCores ≤ com.cores.length) (hcore : com.currentCore < 256) : Config where
  level := (thrArgs2 com 0).level
  startedFrom := (thrArgs2 com 0).startedFrom
  numReplicas := (thrArgs2 com 0).numReplicas
  clients := (thrArgs2 com 0).clients
  replicas := (thrArgs2 com 0).replicas.take (thrArgs2 com 0).numReplicas
  two_le_numReplicas := h2
  numReplicas_lt := Nat.lt_of_le_of_lt h64 (by decide)
  clients_nodup := List.nodup_singleton _
  numClients_lt := Nat.one_lt_succ_succ 254
  core_lt core h := by
    obtain rfl := List.mem_singleton.mp h
    exact hcore
  replicas_length := List.length_take_of_le hcores

/-- The node core, and whether it is inside of a call. -/
structure NodeCoreT where
  com : ComLayerT
  waiting : Bool

/-- The request of a call, with the layer after it. -/
def request (com : ComLayerT) (msg : SmltMsg) : Option (ComLayerT × SmltMsg) :=
  match comLayerCoreSendRequest com msg with
  | (com, _, [.nodeSend _ down, .nodeRecv _]) => some (com, down)
  | _ => none

theorem request_eq {com com' : ComLayerT} {msg down : SmltMsg}
    (h : request com msg = some (com', down)) :
    com' = { com with reqCount := com.reqCount + 1 } ∧ down = coreRequest com msg := by
  unfold request at h
  by_cases hdone : com.initDone = false
  · rw [comLayerCoreSendRequest, if_pos hdone] at h
    cases h
  · by_cases hshm : com.algorithm = ALG_SHM
    · rw [comLayerCoreSendRequest, if_neg hdone, if_pos hshm] at h
      cases h
    · rw [comLayerCoreSendRequest, if_neg hdone, if_neg hshm] at h
      obtain ⟨rfl, rfl⟩ := Prod.mk.inj (Option.some.inj h)
      exact ⟨rfl, rfl⟩

/-- The node core as the one client of the group; what it receives is not looked at. -/
def nodeCore (cfg : Config) (hclients : cfg.clients = [cfg.startedFrom]) (com : ComLayerT) :
    ClientProc cfg where
  State := NodeCoreT
  Call := SmltMsg
  init _ := ⟨com, false⟩
  polls _ s src := s.waiting && decide (src = .replica 0)
  receive _ s _ _ := { s with waiting := false }
  call core s msg :=
    if core = cfg.startedFrom ∧ s.waiting = false then
      (request s.com msg).map fun r => (⟨r.1, true⟩, r.2)
    else none
  call_ok core s msg r h := by
    split at h
    · rename_i hcall
      obtain ⟨⟨com', down⟩, hreq, rfl⟩ := Option.map_eq_some_iff.mp h
      obtain ⟨-, rfl⟩ := request_eq hreq
      refine .inl ⟨tag_coreRequest _ _, ?_⟩
      rw [clientId_coreRequest, hclients, hcall.1]
      rfl
    · cases h

section Calls

variable {cfg : Config} {hclients : cfg.clients = [cfg.startedFrom]} {com : ComLayerT}
  {R : ReplicaProc}

/-- The `k`-th message that went down is request `k` of client 0, counted from 0. -/
def Stamped (ms : List SmltMsg) : Prop :=
  ∀ k m, ms[k]? = some m → m.tag = REQ_TAG ∧ m.clientId = 0 ∧ m.requestId = k % 2 ^ 32

/-- The node core between its messages: it has a reply to each call but the current one. -/
structure Calls (s : NodeCoreT) (t : List Ev) : Prop where
  sent : (sentTo (.replica 0) t).length =
    (receivedFrom (.replica 0) t).length + s.waiting.toNat
  number : s.com.reqCount = (sentTo (.replica 0) t).length
  stamped : Stamped (sentTo (.replica 0) t)

theorem Stamped.snoc {ms : List SmltMsg} (h : Stamped ms) {m : SmltMsg} (htag : m.tag = REQ_TAG)
    (hcid : m.clientId = 0) (hrid : m.requestId = ms.length % 2 ^ 32) : Stamped (ms ++ [m]) := by
  intro k m' hm'
  rcases Nat.lt_or_ge k ms.length with hk | hk
  · rw [List.getElem?_append_left hk] at hm'
    exact h k m' hm'
  · have hlt := (List.getElem?_eq_some_iff.mp hm').1
    rw [List.length_append, List.length_singleton] at hlt
    obtain rfl : k = ms.length := by omega
    rw [List.getElem?_concat_length] at hm'
    obtain rfl := Option.some.inj hm'
    exact ⟨htag, hcid, hrid⟩

theorem Stamped.tag {ms : List SmltMsg} (h : Stamped ms) {m : SmltMsg} (hm : m ∈ ms) :
    m.tag = REQ_TAG := by
  obtain ⟨k, hk⟩ := List.mem_iff_getElem?.mp hm
  exact (h k m hk).1

theorem calls (hcount : com.reqCount = 0) {s : Net (cluster R (nodeCore cfg hclients com))}
    (h : s.Reachable) :
    Calls (s.loc (.client cfg.startedFrom)) (s.trace (.client cfg.startedFrom)) := by
  refine client_induction (C := nodeCore cfg hclients com) cfg.startedFrom Calls ?_ ?_ ?_ h
  · refine ⟨rfl, hcount, fun k m hm => ?_⟩
    cases hm
  · intro s s' (l : NodeCoreT) src msg _ _ hI hp ht
    obtain ⟨hwait, hsrc⟩ : l.waiting = true ∧ src = .replica 0 := by
      simpa [nodeCore] using hp
    subst hsrc
    rw [ht]
    constructor
    · have hsent := hI.sent
      rw [hwait] at hsent
      rw [sentTo_append, receivedFrom_append, sentTo_recv, sentTo_nil, List.append_nil, hsent,
        receivedFrom_recv, if_pos rfl, receivedFrom_nil, List.length_append]
      rfl
    · rw [sentTo_append, sentTo_recv, sentTo_nil, List.append_nil]
      exact hI.number
    · rw [sentTo_append, sentTo_recv, sentTo_nil, List.append_nil]
      exact hI.stamped
  · intro (l : NodeCoreT) t (msg : SmltMsg) r hI hr
    have hcall : (if cfg.startedFrom = cfg.startedFrom ∧ l.waiting = false then
        (request l.com msg).map fun r => ((⟨r.1, true⟩ : NodeCoreT), r.2) else none) = some r := hr
    split at hcall
    · rename_i hwait
      obtain ⟨⟨com', down⟩, hreq, rfl⟩ := Option.map_eq_some_iff.mp hcall
      obtain ⟨rfl, rfl⟩ := request_eq hreq
      have hnew : sentTo (.replica 0) (t ++ [.out (.send (.replica 0) (coreRequest l.com msg))]) =
          sentTo (.replica 0) t ++ [coreRequest l.com msg] := by
        rw [sentTo_append, sentTo_send, if_pos rfl, sentTo_nil]
      have hsent := hI.sent
      rw [hwait.2] at hsent
      constructor
      · rw [hnew, receivedFrom_append, receivedFrom_out, receivedFrom_nil, List.append_nil,
          List.length_append, List.length_singleton, hsent]
        rfl
      · rw [hnew, List.length_append, List.length_singleton, ← hI.number]
      · rw [hnew]
        refine hI.stamped.snoc (tag_coreRequest _ _) (clientId_coreRequest _ _) ?_
        rw [requestId_coreRequest, hI.number]
    · cases hcall

/-- Clients send nothing to clients. -/
theorem sentTo_client_of_client {C : ClientProc cfg} {s : Net (cluster R C)} (h : s.Reachable)
    (core core' : Nat) : sentTo (.client core') (s.trace (.client core)) = [] := by
  have key := replica_invariant (R := R) (C := C) (fun _ _ _ => True)
    (fun src dst _ => ∀ i j, src = .client i → dst ≠ .client j) (fun _ => trivial)
    (fun _ _ _ _ _ _ hdst => by cases hdst)
    (fun _ _ _ _ _ _ _ _ => ⟨trivial, fun _ _ _ _ _ hsrc => by cases hsrc⟩) h
  rw [List.eq_nil_iff_forall_not_mem]
  exact fun m hm => key.2 (.client core) (.client core') m hm core core' rfl rfl

/-- A call sends a request. -/
theorem tag_of_call {core : Nat} {l : NodeCoreT} {msg : SmltMsg} {r : NodeCoreT × SmltMsg}
    (h : (nodeCore cfg hclients com).call core l msg = some r) : r.2.tag = REQ_TAG := by
  have hcall : (if core = cfg.startedFrom ∧ l.waiting = false then
      (request l.com msg).map fun r => ((⟨r.1, true⟩ : NodeCoreT), r.2) else none) = some r := h
  split at hcall
  · obtain ⟨⟨com', down⟩, hreq, rfl⟩ := Option.map_eq_some_iff.mp hcall
    obtain ⟨-, rfl⟩ := request_eq hreq
    exact tag_coreRequest _ _
  · cases hcall

/-- All that clients send are requests. -/
theorem request_of_client {s : Net (cluster R (nodeCore cfg hclients com))} (h : s.Reachable)
    {core : Nat} {dst : Party} {m : SmltMsg} (hm : m ∈ sentTo dst (s.trace (.client core))) :
    m.tag = REQ_TAG := by
  have key := client_induction (C := nodeCore cfg hclients com) core
    (fun _ t => ∀ m, Event.out (.send dst m) ∈ t → m.tag = REQ_TAG) ?_ ?_ ?_ h
  · exact key m (mem_sentTo_iff.mp hm)
  · intro m hm
    cases hm
  · intro s s' l src msg _ _ hI _ ht m hm
    rw [ht, List.mem_append, List.mem_singleton] at hm
    rcases hm with hm | hm
    · exact hI m hm
    · cases hm
  · intro l t x r hI hr m hm
    rw [List.mem_append, List.mem_singleton] at hm
    rcases hm with hm | hm
    · exact hI m hm
    · obtain ⟨-, rfl⟩ := Output.send.inj (Event.out.inj hm)
      exact tag_of_call hr

/-- There are no set-up messages: clients send none, and the replicas pass none on. -/
theorem no_setup {s : Net (cluster R (nodeCore cfg hclients com))} (h : s.Reachable)
    (hsetups : SetupsAnswered cfg (s.trace (.replica 0)))
    (hreplica : ∀ i, ∀ m ∈ sentTo (.replica 0) (s.trace (.replica i)), m.tag ≠ SETUP_TAG)
    (core : Nat) : ∀ m ∈ sentTo (.client core) (s.trace (.replica 0)), m.tag ≠ SETUP_TAG := by
  apply hsetups.no_setup
  rintro ⟨src, m⟩ hx
  have hsent := (h.receivedFrom_prefix src (.replica 0)).subset (mem_receivedFrom_iff.mpr hx)
  rcases src with i | core
  · exact hreplica i m hsent
  · rw [request_of_client h hsent]
    decide

variable (s : Net (cluster R (nodeCore cfg hclients com)))

/-- The messages from the first replica to the node core. -/
def replies : List SmltMsg := sentTo (.client cfg.startedFrom) (s.trace (.replica 0))

/-- The messages that the calls sent. -/
def called : List SmltMsg := sentTo (.replica 0) (s.trace (.client cfg.startedFrom))

/-- Whether the node core is inside of a call. -/
def waiting : Bool := NodeCoreT.waiting (s.loc (.client cfg.startedFrom))

/-- Some message can be taken by its receiver. -/
def CanDeliver : Prop := ∃ src dst s', s.step (.deliver src dst) = some s'

/-- Each call has exactly one message from the group, which comes from the first replica. -/
structure Balanced : Prop where
  silent : ∀ i, i ≠ 0 → sentTo (.client cfg.startedFrom) (s.trace (.replica i)) = []
  at_most_one : (replies s).length ≤ (called s).length
  /-- Between the calls each of them has its message, and none is left in any channel. -/
  returned : waiting s = false → (replies s).length = (called s).length ∧
    ∀ p, s.inFlight p (.client cfg.startedFrom) = []
  /-- A call does not wait for ever: the group has something to do. -/
  progress : waiting s = true → CanDeliver s

variable {s}

/-- Every message in flight to a party that is ready for it can be taken. -/
theorem canDeliver (h : s.Reachable) {p q : Party}
    (hp : (cluster R (nodeCore cfg hclients com)).polls q (s.loc q) p = true)
    (hlt : (receivedFrom p (s.trace q)).length < (sentTo q (s.trace p)).length) :
    CanDeliver s := by
  obtain ⟨m, s', hs', -, -⟩ := h.deliver hp hlt
  exact ⟨p, q, s', hs'⟩

/-- What the calls sent has been taken by the first replica or is in flight to it. -/
theorem called_eq (hcount : com.reqCount = 0) (h : s.Reachable)
    (hown : OwnRequests cfg (s.trace (.replica 0))) :
    called s = (requests (s.trace (.replica 0))).map Prod.snd ++
      s.inFlight (.client cfg.startedFrom) (.replica 0) := by
  have hstamped := (calls hcount h).stamped
  have hsent := requestsSent_eq h cfg.startedFrom
  have hall : requestsSent (s.trace (.client cfg.startedFrom)) = called s := by
    refine List.filter_eq_self.mpr fun m hm => ?_
    rw [decide_eq_true_eq]
    exact hstamped.tag hm
  have hflight : (s.inFlight (.client cfg.startedFrom) (.replica 0)).filter (·.tag = REQ_TAG) =
      s.inFlight (.client cfg.startedFrom) (.replica 0) := by
    refine List.filter_eq_self.mpr fun m hm => ?_
    rw [decide_eq_true_eq]
    apply hstamped.tag
    rw [h.fifo]
    exact List.mem_append_right _ hm
  have hmine : (requests (s.trace (.replica 0))).filter (·.1 = .client cfg.startedFrom) =
      requests (s.trace (.replica 0)) := by
    refine List.filter_eq_self.mpr fun x hx => ?_
    obtain ⟨core, hsrc, hcid⟩ := hown x hx
    rw [hclients] at hcid
    have hcore := List.mem_singleton.mp (List.mem_of_getElem? hcid)
    rw [decide_eq_true_eq, hsrc, hcore]
  rw [← hall, hsent, hmine, hflight]

/-- The first replica holds at most one request that it has not answered. -/
theorem requests_le (hcount : com.reqCount = 0) (h : s.Reachable)
    (hown : OwnRequests cfg (s.trace (.replica 0))) :
    (requests (s.trace (.replica 0))).length ≤ (replies s).length + 1 := by
  have hcalled := congrArg List.length (called_eq hcount h hown)
  rw [List.length_append, List.length_map] at hcalled
  have hsent : (called s).length =
      (receivedFrom (.replica 0) (s.trace (.client cfg.startedFrom))).length +
        (waiting s).toNat := (calls hcount h).sent
  have hreceived : _ ≤ (replies s).length := (h.receivedFrom_prefix (.replica 0)
    (.client cfg.startedFrom)).length_le
  have hone := Bool.toNat_le (waiting s)
  omega

/-- Without set-up messages, the replies are the responses to the node core. -/
theorem replies_length (hsetup : ∀ m ∈ replies s, m.tag ≠ SETUP_TAG)
    (hresp : ∀ x ∈ responses (s.trace (.replica 0)), x.1 = .client cfg.startedFrom) :
    (replies s).length = (responses (s.trace (.replica 0))).length := by
  have hreplies := sentTo_client_eq_responses cfg.startedFrom (s.trace (.replica 0))
  have hall : (replies s).filter (·.tag ≠ SETUP_TAG) = replies s :=
    List.filter_eq_self.mpr fun m hm => decide_eq_true (hsetup m hm)
  have hmine : (responses (s.trace (.replica 0))).filter (·.1 = .client cfg.startedFrom) =
      responses (s.trace (.replica 0)) :=
    List.filter_eq_self.mpr fun x hx => decide_eq_true (hresp x hx)
  rw [hmine] at hreplies
  rw [← hall, replies, hreplies, List.length_map]

/-- A group is balanced if only its first replica sends to the node core, at most one message
for each request that it took, and if it does not stop before. -/
theorem balanced_of (hcount : com.reqCount = 0) (h : s.Reachable)
    (hown : OwnRequests cfg (s.trace (.replica 0)))
    (hsilent : ∀ i, i ≠ 0 → sentTo (.client cfg.startedFrom) (s.trace (.replica i)) = [])
    (hreplies : (replies s).length ≤ (requests (s.trace (.replica 0))).length)
    (hbusy : (replies s).length < (requests (s.trace (.replica 0))).length → CanDeliver s)
    (hidle : (replies s).length = (requests (s.trace (.replica 0))).length →
      R.polls (s.loc (.replica 0)) (.client cfg.startedFrom) = true ∨ CanDeliver s) :
    Balanced s := by
  have hcalls := calls hcount h
  have hcalled := congrArg List.length (called_eq hcount h hown)
  rw [List.length_append, List.length_map] at hcalled
  have hsent : (called s).length =
      (receivedFrom (.replica 0) (s.trace (.client cfg.startedFrom))).length +
        (waiting s).toNat := hcalls.sent
  have hreceived := congrArg List.length (h.fifo (.replica 0) (.client cfg.startedFrom))
  rw [List.length_append] at hreceived
  have hdef : (replies s).length =
      (sentTo (.client cfg.startedFrom) (s.trace (.replica 0))).length := rfl
  refine ⟨hsilent, ?_, ?_, ?_⟩
  · omega
  · intro hwait
    rw [hwait, Bool.toNat_false] at hsent
    refine ⟨by omega, ?_⟩
    rintro (i | core)
    · rcases Nat.eq_zero_or_pos i with rfl | hpos
      · apply List.eq_nil_of_length_eq_zero
        omega
      · have hfifo := h.fifo (.replica i) (.client cfg.startedFrom)
        rw [hsilent i (Nat.ne_of_gt hpos)] at hfifo
        exact (List.append_eq_nil_iff.mp hfifo.symm).2
    · have hfifo := h.fifo (.client core) (.client cfg.startedFrom)
      rw [sentTo_client_of_client h] at hfifo
      exact (List.append_eq_nil_iff.mp hfifo.symm).2
  · intro hwait
    rw [hwait, Bool.toNat_true] at hsent
    rcases Nat.lt_or_ge (replies s).length (requests (s.trace (.replica 0))).length with hlt | hge
    · exact hbusy hlt
    · have heq := Nat.le_antisymm hreplies hge
      rcases Nat.eq_zero_or_pos (s.inFlight (.client cfg.startedFrom) (.replica 0)).length
        with hzero | hpos
      · -- every request is answered, so the last answer is on its way
        apply canDeliver (p := .replica 0) (q := .client cfg.startedFrom) h
        · show (waiting s && decide _) = true
          rw [hwait]
          rfl
        · omega
      · rcases hidle heq with hpolls | hdeliver
        swap
        · exact hdeliver
        apply canDeliver (p := .client cfg.startedFrom) (q := .replica 0) h hpolls
        have htaken := congrArg List.length (h.fifo (.client cfg.startedFrom) (.replica 0))
        rw [List.length_append] at htaken
        omega

end Calls

end SmeltConsensus.TwoTier.NodeCore
