import Mathlib.Algebra.Order.BigOperators.Group.Finset
import SmeltConsensus.Bench.Answers
import SmeltConsensus.Foundation.Deliveries

/-!
How many messages an algorithm needs. Every run delivers at most so many as the requests
account for, and just as many once nothing is in flight, so a run without new requests ends.
-/

set_option autoImplicit false
set_option relaxedAutoImplicit false

namespace SmeltConsensus.Bench.MessageCount

open SmeltConsensus.Foundation.Network
open SmeltConsensus.Foundation.Deliveries
open SmeltConsensus.Foundation.LastSeen
open SmeltConsensus.Message.Header
open SmeltConsensus.Cluster.Parties
open SmeltConsensus.Cluster.Algorithms
open SmeltConsensus.Bench.Client (recvReplica)
open SmeltConsensus.Bench.Answers

variable {cfg : Config}

/-- The messages that all replicas of a group sent. -/
def sentByReplicas {R : ReplicaProc} {C : ClientProc cfg} (s : Net (cluster R C)) : Nat :=
  ∑ i ∈ Finset.range cfg.numReplicas, (sends (s.trace (.replica i))).length

section Run

variable {R : ReplicaProc} {C : ClientProc cfg} {s s' : Net (cluster R C)}
  {as : List (Action (cluster R C))}

/-- A client sends what it is stimulated to, and nothing in reply. -/
theorem client_sends (hrun : s.run as = some s') (core : Nat) :
    (sends (s'.trace (.client core))).length =
      (sends (s.trace (.client core))).length + (stimulated as).count (.client core) := by
  induction as generalizing s with
  | nil =>
    obtain rfl := Option.some.inj hrun
    rfl
  | cons a as ih =>
    obtain ⟨t, ht, hrun⟩ := Option.bind_eq_some_iff.mp hrun
    rw [ih hrun]
    by_cases hact : Net.actor a = .client core
    · cases a with
      | deliver src dst =>
        obtain rfl : dst = .client core := hact
        have hcons : stimulated (.deliver src (.client core) :: as) = stimulated as := rfl
        rw [Net.step] at ht
        split at ht
        case isFalse => cases ht
        case isTrue =>
          split at ht
          case h_1 => cases ht
          case h_2 m rest _ =>
            obtain rfl := Option.some.inj ht
            have hnone : ((cluster R C).handle (.client core) (s.loc (.client core)) src m).2 =
                [] := rfl
            rw [hcons, Net.act_trace_self, Net.pop_trace, sends_append, hnone]
            simp
      | stimulate p x =>
        obtain rfl : p = .client core := hact
        have hcons : stimulated (.stimulate (.client core) x :: as) =
          .client core :: stimulated as := rfl
        obtain ⟨r, hr, rfl⟩ := Option.map_eq_some_iff.mp ht
        obtain ⟨c, -, rfl⟩ := Option.map_eq_some_iff.mp hr
        rw [hcons, List.count_cons_self, Net.act_trace_self, sends_append, List.length_append]
        simp
        omega
    · rw [Net.step_trace_of_ne ht hact]
      cases a with
      | deliver src dst => rfl
      | stimulate p x =>
        have hcons : stimulated (.stimulate p x :: as) = p :: stimulated as := rfl
        have hne : p ≠ .client core := hact
        rw [hcons, List.count_cons_of_ne hne]

/-- Only clients are stimulated. -/
theorem stimulated_client (hrun : s.run as = some s') (i : Nat) :
    (stimulated as).count (.replica i) = 0 := by
  induction as generalizing s with
  | nil => rfl
  | cons a as ih =>
    obtain ⟨t, ht, hrest⟩ := Option.bind_eq_some_iff.mp hrun
    have hrest := ih hrest
    cases a with
    | deliver src dst => exact hrest
    | stimulate p x =>
      have hcons : stimulated (.stimulate p x :: as) = p :: stimulated as := rfl
      obtain ⟨r, hr, -⟩ := Option.map_eq_some_iff.mp ht
      cases p with
      | replica j => cases hr
      | client core =>
        rw [hcons, List.count_cons_of_ne (by simp)]
        exact hrest

/-- Clients send to the leader only. -/
theorem client_sends_leader (h : s.Reachable) (core : Nat) :
    ∀ x ∈ sends (s.trace (.client core)), x.1 = .replica 0 := by
  refine client_induction (R := R) (C := C) core
    (fun _ t => ∀ x ∈ sends t, x.1 = .replica 0) (fun x hx => by cases hx) ?_ ?_ h
  · intro s s' l src msg _ _ hI _ ht
    rw [ht, sends_append]
    simpa using hI
  · intro l t x r hI _ y hy
    rw [sends_append, List.mem_append] at hy
    rcases hy with hy | hy
    · exact hI y hy
    · obtain rfl := List.mem_singleton.mp hy
      rfl

/-- The channels of all messages that were sent. -/
def issued (as : List (Action (cluster R C))) (s : Net (cluster R C)) : List (Party × Party) :=
  (stimulated as).map (fun p => (p, .replica 0)) ++
    (List.range cfg.numReplicas).flatMap fun i => channels (.replica i) (s.trace (.replica i))

theorem length_issued (as : List (Action (cluster R C))) (s : Net (cluster R C)) :
    (issued as s).length = (stimulated as).length + sentByReplicas s := by
  have hrange : ∀ n, ((List.range n).flatMap fun i =>
      channels (.replica i) (s.trace (.replica i))).length =
        ∑ i ∈ Finset.range n, (sends (s.trace (.replica i))).length := by
    intro n
    induction n with
    | zero => rfl
    | succ n ih =>
      rw [List.range_succ, List.flatMap_append, List.length_append, ih, Finset.sum_range_succ,
        List.flatMap_singleton, length_channels]
  rw [issued, List.length_append, List.length_map, hrange, sentByReplicas]

/-- The channels from one of the first `n` replicas. -/
theorem count_channels_replica (f : Nat → List Ev) (n i : Nat) (q : Party) :
    ((List.range n).flatMap fun i => channels (.replica i) (f i)).count (.replica i, q) =
      if i < n then (sentTo q (f i)).length else 0 := by
  induction n with
  | zero => rfl
  | succ n ih =>
    rw [List.range_succ, List.flatMap_append, List.count_append, ih, List.flatMap_singleton,
      count_channels]
    simp only [Party.replica.injEq]
    rcases Nat.lt_trichotomy i n with hlt | rfl | hlt
    · rw [if_pos hlt, if_neg (Nat.ne_of_gt hlt), if_pos (Nat.lt_succ_of_lt hlt), Nat.add_zero]
    · rw [if_neg (Nat.lt_irrefl _), if_pos rfl, if_pos (Nat.lt_succ_self _), Nat.zero_add]
    · rw [if_neg (Nat.lt_asymm hlt), if_neg (Nat.ne_of_lt hlt), if_neg (by omega)]

theorem count_channels_client (f : Nat → List Ev) (n core : Nat) (q : Party) :
    ((List.range n).flatMap fun i => channels (.replica i) (f i)).count (.client core, q) = 0 := by
  rw [List.count_eq_zero]
  intro hmem
  obtain ⟨i, -, hmem⟩ := List.mem_flatMap.mp hmem
  obtain ⟨x, -, heq⟩ := List.mem_map.mp hmem
  cases heq

/-- In the list of all channels each channel stands once for each message sent on it. -/
theorem count_issued (hrun : (Net.initial (cluster R C)).run as = some s)
    (hout : ∀ i, cfg.numReplicas ≤ i → sends (s.trace (.replica i)) = []) (p q : Party) :
    (sentTo q (s.trace p)).length = (issued as s).count (p, q) := by
  have hreach : s.Reachable := Net.Reachable.init.run hrun
  rw [issued, List.count_append]
  cases p with
  | replica i =>
    have hnone : ((stimulated as).map fun p => (p, Party.replica 0)).count (.replica i, q) = 0 := by
      rw [List.count_eq_zero]
      intro hmem
      obtain ⟨p, hp, heq⟩ := List.mem_map.mp hmem
      obtain ⟨rfl, -⟩ := Prod.mk.inj heq
      exact List.count_eq_zero.mp (stimulated_client hrun i) hp
    rw [hnone, Nat.zero_add, count_channels_replica]
    split
    case isTrue => rfl
    case isFalse hge =>
      rw [sentTo_eq_sends, hout i (Nat.le_of_not_lt hge)]
      rfl
  | client core =>
    have hall := client_sends_leader hreach core
    have hcount := client_sends hrun core
    have hinit : sends ((Net.initial (cluster R C)).trace (.client core)) = [] := rfl
    rw [hinit, List.length_nil, Nat.zero_add] at hcount
    rw [count_channels_client, Nat.add_zero]
    by_cases hq : q = .replica 0
    · subst hq
      rw [List.count_map_of_injective _ _ fun _ _ heq => (Prod.mk.inj heq).1]
      rw [← hcount, sentTo_eq_sends, List.length_map,
        List.filter_eq_self.mpr fun x hx => decide_eq_true (hall x hx)]
    · have hnone : ((stimulated as).map fun p => (p, Party.replica 0)).count (.client core, q) =
          0 := by
        rw [List.count_eq_zero]
        intro hmem
        obtain ⟨p, -, heq⟩ := List.mem_map.mp hmem
        exact hq (Prod.mk.inj heq).2.symm
      rw [hnone, List.length_eq_zero_iff, List.eq_nil_iff_forall_not_mem]
      intro m hm
      rw [sentTo_eq_sends] at hm
      obtain ⟨x, hx, -⟩ := List.mem_map.mp hm
      obtain ⟨hx, hxq⟩ := List.mem_filter.mp hx
      exact hq ((of_decide_eq_true hxq).symm.trans (hall x hx))

/-- A run delivers no more than what the clients were stimulated to send and the replicas sent. -/
theorem delivered_le (hrun : (Net.initial (cluster R C)).run as = some s)
    (hout : ∀ i, cfg.numReplicas ≤ i → sends (s.trace (.replica i)) = []) :
    (delivered as).length ≤ (stimulated as).length + sentByReplicas s := by
  rw [← length_issued]
  exact (delivered_subperm hrun fun p q => (count_issued hrun hout p q).le).length_le

theorem delivered_eq (hrun : (Net.initial (cluster R C)).run as = some s) (hq : s.Quiescent)
    (hout : ∀ i, cfg.numReplicas ≤ i → sends (s.trace (.replica i)) = []) :
    (delivered as).length = (stimulated as).length + sentByReplicas s := by
  rw [← length_issued]
  exact (delivered_perm hrun hq fun p q => count_issued hrun hout p q).length_eq

/-- Replicas that no message is sent to have no history. -/
theorem outside (J : Nat → R.State → Prop) (hinit : ∀ i, J i (R.init i))
    (hstep : ∀ i l src msg, J i l → R.polls l src = true → J i (R.handle l msg).1)
    (hsend : ∀ i l msg, i < cfg.numReplicas → J i l → ∀ j m,
      .send (.replica j) m ∈ (R.handle l msg).2 → j < cfg.numReplicas)
    (h : s.Reachable) {i : Nat} (hi : cfg.numReplicas ≤ i) : s.trace (.replica i) = [] := by
  have hn := cfg.two_le_numReplicas
  have key := replica_invariant (R := R) (C := C)
    (fun i l t => J i l ∧ (cfg.numReplicas ≤ i → t = []))
    (fun _ dst _ => ∀ j, dst = .replica j → j < cfg.numReplicas)
    (fun i => ⟨hinit i, fun _ => rfl⟩) ?_ ?_ h
  · exact (key.1 i).2 hi
  · rintro core msg - j hj
    obtain rfl := Party.replica.inj hj
    omega
  · intro i l t src msg hI hp hm
    have hlt := hm i rfl
    refine ⟨⟨hstep i l src msg hI.1 hp, fun hge => absurd hge (Nat.not_le_of_lt hlt)⟩, ?_⟩
    rintro dst m hs j rfl
    exact hsend i l msg hlt hI.1 j m hs

theorem sentByReplicas_eq (s : Net (cluster R C)) : sentByReplicas s =
    (sends (s.trace (.replica 0))).length +
      ∑ i ∈ Finset.range (cfg.numReplicas - 1), (sends (s.trace (.replica (i + 1)))).length := by
  have hn := cfg.two_le_numReplicas
  obtain ⟨m, hm⟩ : ∃ m, cfg.numReplicas = m + 1 := ⟨cfg.numReplicas - 1, by omega⟩
  rw [sentByReplicas, hm, Finset.sum_range_succ', Nat.add_comm, Nat.add_sub_cancel]

theorem sum_le {f : Nat → Nat} {k c : Nat} (hle : ∀ i, i < k → f i ≤ c) :
    ∑ i ∈ Finset.range k, f i ≤ k * c := by
  have hsum := Finset.sum_le_card_nsmul (Finset.range k) f c fun i hi => hle i (Finset.mem_range.mp hi)
  rwa [Finset.card_range, nsmul_eq_mul, Nat.cast_id] at hsum

theorem sum_eq {f : Nat → Nat} {k c : Nat} (heq : ∀ i, i < k → f i = c) :
    ∑ i ∈ Finset.range k, f i = k * c := by
  rw [Finset.sum_const_nat fun i hi => heq i (Finset.mem_range.mp hi), Finset.card_range]

/-- What the followers send if each sends so many messages at most. -/
theorem followers_le {c : Nat} (hle : ∀ i, 1 ≤ i → i < cfg.numReplicas →
    (sends (s.trace (.replica i))).length ≤ c) :
    sentByReplicas s ≤ (sends (s.trace (.replica 0))).length + (cfg.numReplicas - 1) * c := by
  rw [sentByReplicas_eq]
  exact Nat.add_le_add_left (sum_le fun i hi => hle (i + 1) (Nat.le_add_left 1 i) (by omega)) _

theorem followers_eq {c : Nat} (heq : ∀ i, 1 ≤ i → i < cfg.numReplicas →
    (sends (s.trace (.replica i))).length = c) :
    sentByReplicas s = (sends (s.trace (.replica 0))).length + (cfg.numReplicas - 1) * c := by
  rw [sentByReplicas_eq, sum_eq fun i hi => heq (i + 1) (Nat.le_add_left 1 i) (by omega)]

end Run

/-- The set-up messages a party received. -/
def setups (t : List Ev) : List (Party × SmltMsg) :=
  (inputs t).filter fun x => x.2.tag = SETUP_TAG

/-- A leader that sends one reply to a set-up message, `a` messages for a request and `b` when
it executes a command; set-up messages and requests come from clients. -/
structure Spent (a b : Nat) (t : List Ev) : Prop where
  sends_eq : (sends t).length =
    (setups t).length + a * (requests t).length + b * (executed t).length
  clients : ∀ x ∈ inputs t, x.2.tag = SETUP_TAG ∨ x.2.tag = REQ_TAG → ∃ core, x.1 = .client core

/-- What one handler has to send for that. -/
structure Spends (a b : Nat) (src : Party) (msg : SmltMsg) (os : List Out) : Prop where
  sends_eq : (sends (os.map .out : List Ev)).length = (if msg.tag = SETUP_TAG then 1 else 0) +
    a * (if msg.tag = REQ_TAG then 1 else 0) + b * (executed (os.map .out : List Ev)).length
  client : msg.tag = SETUP_TAG ∨ msg.tag = REQ_TAG → ∃ core, src = .client core

theorem Spent.step {a b : Nat} {t : List Ev} (h : Spent a b t) {src : Party} {msg : SmltMsg}
    {os : List Out} (hos : Spends a b src msg os) :
    Spent a b (t ++ .recv src msg :: os.map .out) := by
  have hinputs : inputs (t ++ .recv src msg :: os.map .out) = inputs t ++ [(src, msg)] := by
    rw [inputs_append, inputs_recv, inputs_map_out]
  have hsetups : (setups (t ++ .recv src msg :: os.map .out)).length =
      (setups t).length + if msg.tag = SETUP_TAG then 1 else 0 := by
    rw [setups, setups, hinputs, List.filter_append, List.length_append, List.filter_singleton]
    by_cases hs : msg.tag = 0 <;> simp [hs]
  have hrequests : (requests (t ++ .recv src msg :: os.map .out)).length =
      (requests t).length + if msg.tag = REQ_TAG then 1 else 0 := by
    rw [requests_append, requests_recv, requests_map_out, List.length_append]
    by_cases hr : msg.tag = 1 <;> simp [hr]
  have hsends : sends (t ++ .recv src msg :: os.map .out : List Ev) =
      sends t ++ sends (os.map .out : List Ev) := by
    rw [sends_append, sends_recv]
  have hexec : executed (t ++ .recv src msg :: os.map .out : List Ev) =
      executed t ++ executed (os.map .out : List Ev) := by
    rw [executed_append, executed_recv]
  constructor
  · rw [hsetups, hrequests, hsends, hexec, List.length_append, List.length_append, h.sends_eq,
      hos.sends_eq, Nat.mul_add, Nat.mul_add]
    omega
  · intro x hx htag
    rw [hinputs, List.mem_append] at hx
    rcases hx with hx | hx
    · exact h.clients x hx htag
    · obtain rfl := List.mem_singleton.mp hx
      exact hos.client htag

@[simp] theorem sends_sendEach (ids : List Nat) (msg : SmltMsg) :
    sends ((sendEach ids msg).map .out : List Ev) = ids.map fun i => (.replica i, msg) := by
  induction ids with
  | nil => rfl
  | cons i ids ih => simpa [sendEach] using ih

/-- A party that sends clients responses, and nothing else, sends its responses. -/
theorem responses_eq_sends {t : List Ev}
    (hall : ∀ x ∈ sends t, ∃ core, x.1 = .client core ∧ x.2.tag ≠ SETUP_TAG) :
    responses t = sends t := by
  induction t with
  | nil => rfl
  | cons e t ih =>
    unfold responses at ih ⊢
    rcases e with ⟨src, m⟩ | (⟨dst, m⟩ | c | ⟨text, args⟩)
    · exact ih hall
    · obtain ⟨core, hcore, htag⟩ := hall (dst, m) List.mem_cons_self
      obtain rfl : dst = .client core := hcore
      rw [service_send_client, if_neg htag, filterMap_sendOf_send, sends_send,
        ih fun x hx => hall x (List.mem_cons_of_mem _ hx)]
    · exact ih hall
    · exact ih hall

section Leader

variable {R : ReplicaProc} {C : ClientProc cfg} {s : Net (cluster R C)}

/-- The message of a step came over its channel. -/
theorem sent_of_step {s' : Net (cluster R C)} (h : s'.Reachable) {p q : Party} {t : List Ev}
    {msg : SmltMsg} {os : List Out} (ht : s'.trace q = t ++ .recv p msg :: os.map .out) :
    msg ∈ sentTo q (s'.trace p) := by
  apply (h.receivedFrom_prefix p q).subset
  rw [ht, receivedFrom_step]
  exact List.mem_concat_self

/-- A leader each of whose steps sends what it has to. -/
theorem leader_spent {a b : Nat}
    (hstep : ∀ (s s' : Net (cluster R C)) src msg, s.Reachable → s'.Reachable →
      R.polls (s.loc (.replica 0)) src = true →
      s'.trace (.replica 0) = s.trace (.replica 0) ++
        .recv src msg :: (R.handle (s.loc (.replica 0)) msg).2.map .out →
      Spends a b src msg (R.handle (s.loc (.replica 0)) msg).2)
    (h : s.Reachable) : Spent a b (s.trace (.replica 0)) := by
  refine h.party_induction (.replica 0) (fun _ t => Spent a b t) ⟨rfl, fun _ hx => ?_⟩ ?_ ?_
  · exact absurd hx List.not_mem_nil
  · intro s s' src msg hr hr' hI hp ht
    rw [ht]
    exact hI.step (hstep s s' src msg hr hr' hp ht)
  · intro s s' x r _ _ _ hx
    cases hx

end Leader

/-- The messages that the replicas send for a request, beside the response. -/
def perRequest (n : Nat) : Algorithm → Nat
  | .onePaxos => n
  | .tpc => 3 * (n - 1)
  | .broad => n - 1
  | .chain => n - 1
  | .raft => 2 * (n - 1)

/-- What the set-up messages, requests and responses of a run account for. -/
def allowance (alg : Algorithm) {R : ReplicaProc} {C : ClientProc cfg}
    (s : Net (cluster R C)) : Nat :=
  (setups (s.trace (.replica 0))).length +
    perRequest cfg.numReplicas alg * (requests (s.trace (.replica 0))).length +
    (responses (s.trace (.replica (recvReplica cfg alg)))).length

/-- What the replicas send is accounted for. -/
structure Counted (alg : Algorithm) {R : ReplicaProc} {C : ClientProc cfg}
    (s : Net (cluster R C)) : Prop where
  outside : ∀ i, cfg.numReplicas ≤ i → sends (s.trace (.replica i)) = []
  clients : ∀ x ∈ inputs (s.trace (.replica 0)), x.2.tag = SETUP_TAG ∨ x.2.tag = REQ_TAG →
    ∃ core, x.1 = .client core
  served : (responses (s.trace (.replica (recvReplica cfg alg)))).length ≤
    (requests (s.trace (.replica 0))).length
  le : sentByReplicas s ≤ allowance alg s
  eq : s.Quiescent → sentByReplicas s = allowance alg s

section Broadcast

open SmeltConsensus.Broadcast.Replica
open SmeltConsensus.Broadcast.Replication

variable {C : ClientProc cfg}

theorem broadcast_spent (hl : cfg.level = .node) {s : Net (cluster (broadcastReplica cfg) C)}
    (h : s.Reachable) : Spent cfg.numReplicas 0 (s.trace (.replica 0)) := by
  have hn := cfg.two_le_numReplicas
  apply leader_spent _ h
  intro s s' src msg hr hr' hp ht
  have hloc := broadcast_loc hr 0
  rw [hloc] at hp ht ⊢
  rcases src with j | core
  · exact absurd hp Bool.false_ne_true
  · rcases fromClient_of_mem_sentTo hr' (sent_of_step hr' ht) with ⟨htag, -⟩ | ⟨htag, -⟩
    · have hmsg : msg.tag = 1 := htag
      refine ⟨?_, fun _ => ⟨core, rfl⟩⟩
      simp [broadcastReplica, messageHandlerBroadcast, handleRequest, initReplicaBroadcast, hmsg, hl]
      omega
    · have hmsg : msg.tag = 0 := htag
      refine ⟨?_, fun _ => ⟨core, rfl⟩⟩
      simp [broadcastReplica, messageHandlerBroadcast, handleSetup, hmsg]

theorem broadcast_counted (hl : cfg.level = .node) {s : Net (cluster (broadcastReplica cfg) C)}
    (h : s.Reachable) : Counted .broad s := by
  have hn := cfg.two_le_numReplicas
  obtain ⟨hlead, hfol, -⟩ := histories (.inl hl) h
  have hspent : Spent cfg.numReplicas 0 (s.trace (.replica 0)) := broadcast_spent hl h
  have hresp : (responses (s.trace (.replica 0))).length = (requests (s.trace (.replica 0))).length := by
    rw [responses, hlead.service, filterMap_sendOf_flatMap, List.length_map]
  have hrecv : recvReplica cfg .broad = 0 := rfl
  have hall : sentByReplicas s = allowance .broad s := by
    rw [followers_eq (c := 0) fun i h1 _ => by rw [(hfol i (by omega)).sends, List.length_nil],
      allowance, hrecv, hresp, perRequest, hspent.sends_eq]
    obtain ⟨m, hm⟩ : ∃ m, cfg.numReplicas = m + 1 := ⟨cfg.numReplicas - 1, by omega⟩
    rw [hm, Nat.succ_mul, Nat.add_sub_cancel]
    omega
  refine ⟨fun i hi => ?_, hspent.clients, hresp.le, hall.le, fun _ => hall⟩
  exact (hfol i (by omega)).sends

end Broadcast

section Chain

open SmeltConsensus.Chain.Replica
open SmeltConsensus.Chain.Order

variable {C : ClientProc cfg}

theorem chain_spent (hl : cfg.level = .node) {s : Net (cluster (chainReplica cfg) C)}
    (h : s.Reachable) : Spent 1 0 (s.trace (.replica 0)) := by
  apply leader_spent _ h
  intro s s' src msg hr hr' hp ht
  have hloc := chain_loc hr 0
  rw [hloc] at hp ht ⊢
  rcases src with j | core
  · exact absurd hp Bool.false_ne_true
  · rcases fromClient_of_mem_sentTo hr' (sent_of_step hr' ht) with ⟨htag, -⟩ | ⟨htag, -⟩
    · have hmsg : msg.tag = 1 := htag
      refine ⟨?_, fun _ => ⟨core, rfl⟩⟩
      simp [chainReplica, messageHandlerChain, handleRequest, initReplicaChain, hmsg, hl]
    · have hmsg : msg.tag = 0 := htag
      refine ⟨?_, fun _ => ⟨core, rfl⟩⟩
      simp [chainReplica, messageHandlerChain, handleSetup, hmsg]

/-- Where a replica behind the head sends: to its right neighbour, the tail to clients. -/
theorem chain_sends (hl : cfg.level = .node) {s : Net (cluster (chainReplica cfg) C)}
    (h : s.Reachable) {i : Nat} (h1 : 1 ≤ i) (hi : i < cfg.numReplicas) :
    (i + 1 < cfg.numReplicas → ∀ x ∈ sends (s.trace (.replica i)), x.1 = .replica (i + 1)) ∧
      (i + 1 = cfg.numReplicas → ∀ x ∈ sends (s.trace (.replica i)),
        ∃ core, x.1 = .client core ∧ x.2.tag ≠ SETUP_TAG) := by
  have hmax := cfg.numReplicas_lt
  obtain ⟨i, rfl⟩ := Nat.exists_eq_add_of_le' h1
  have hleft : (i + 1 + 255) % 256 = i := by omega
  refine h.party_induction (.replica (i + 1)) (fun _ (t : List Ev) =>
    (i + 1 + 1 < cfg.numReplicas → ∀ x ∈ sends t, x.1 = .replica (i + 1 + 1)) ∧
      (i + 1 + 1 = cfg.numReplicas → ∀ x ∈ sends t,
        ∃ core, x.1 = .client core ∧ x.2.tag ≠ SETUP_TAG)) ?_ ?_ ?_
  · exact ⟨fun _ _ hx => absurd hx List.not_mem_nil, fun _ _ hx => absurd hx List.not_mem_nil⟩
  · intro s s' src msg hr hr' hI hp ht
    have hloc := chain_loc hr (i + 1)
    have hp : polls cfg (s.loc (.replica (i + 1))) src = true := hp
    have ht : s'.trace (.replica (i + 1)) = s.trace (.replica (i + 1)) ++ .recv src msg ::
      (messageHandlerChain cfg (s.loc (.replica (i + 1))) msg).map .out := ht
    rw [hloc] at hp ht
    have hsrc : src = .replica i := by
      simpa [polls, initReplicaChain, hleft] using hp
    subst hsrc
    have htag : msg.tag = CHAIN_COMMIT := by
      have hmem := (prefix_relayed hl hr' hi).subset (sent_of_step hr' ht)
      obtain ⟨x, -, rfl⟩ := List.mem_map.mp hmem
      exact SmltMsg.tag_withTag _ _
    have hmsg : msg.tag = 4 := htag
    rw [ht]
    constructor
    · intro hlt x hx
      have hright : (i + 1 + 1) % 256 = i + 1 + 1 := Nat.mod_eq_of_lt (by omega)
      have htail : ¬ i + 1 = cfg.numReplicas - 1 := by omega
      rw [sends_append, List.mem_append] at hx
      rcases hx with hx | hx
      · exact hI.1 hlt x hx
      · simp [messageHandlerChain, handleCommit, initReplicaChain, hmsg, htail, hright] at hx
        rw [hx]
    · intro heq x hx
      have htail : i + 1 = cfg.numReplicas - 1 := by omega
      rw [sends_append, List.mem_append] at hx
      rcases hx with hx | hx
      · exact hI.2 heq x hx
      · have hpos : ¬ cfg.numReplicas - 1 = 0 := by omega
        simp [messageHandlerChain, handleCommit, initReplicaChain, hmsg, htail, hpos] at hx
        rw [hx]
        refine ⟨_, rfl, ?_⟩
        rw [SmltMsg.tag_withTag]
        decide
  · intro s s' x r _ _ _ hx
    cases hx

/-- Between its neighbours, a replica sends what its right neighbour is sent. -/
theorem middle_sends (hl : cfg.level = .node) {s : Net (cluster (chainReplica cfg) C)}
    (h : s.Reachable) {i : Nat} (h1 : 1 ≤ i) (hi : i + 1 < cfg.numReplicas) :
    (sends (s.trace (.replica i))).length =
      (sentTo (.replica (i + 1)) (s.trace (.replica i))).length := by
  have hall := (chain_sends hl h h1 (by omega)).1 hi
  rw [sentTo_eq_sends, List.length_map,
    List.filter_eq_self.mpr fun x hx => decide_eq_true (hall x hx)]

theorem tail_sends (hl : cfg.level = .node) {s : Net (cluster (chainReplica cfg) C)}
    (h : s.Reachable) : responses (s.trace (.replica (cfg.numReplicas - 1))) =
      sends (s.trace (.replica (cfg.numReplicas - 1))) := by
  have hn := cfg.two_le_numReplicas
  exact responses_eq_sends ((chain_sends hl h (by omega) (by omega)).2 (by omega))

/-- With nothing in flight, every request has gone through the whole chain. -/
theorem relayed_all (hl : cfg.level = .node) {s : Net (cluster (chainReplica cfg) C)}
    (h : s.Reachable) (hq : s.Quiescent) {i : Nat} (hi : i + 1 < cfg.numReplicas) :
    (sentTo (.replica (i + 1)) (s.trace (.replica i))).length =
      (requests (s.trace (.replica 0))).length := by
  obtain ⟨hhead, hmid, -, -⟩ := histories hl h
  induction i with
  | zero => rw [hhead.relayed, List.length_map]
  | succ i ih =>
    have hm := hmid (i + 1) (Nat.succ_pos i) hi
    rw [hm.relayed, Nat.add_sub_cancel, h.received_eq_sent (hq _ _), ih (by omega)]

/-- A replica that is not in the chain has no right neighbour to send to. -/
theorem chain_outside {s : Net (cluster (chainReplica cfg) C)} (h : s.Reachable) {i : Nat}
    (hi : cfg.numReplicas ≤ i) : s.trace (.replica i) = [] := by
  have hn := cfg.two_le_numReplicas
  have hmax := cfg.numReplicas_lt
  refine outside (R := chainReplica cfg) (C := C)
    (fun i (l : ReplicaT) => l = initReplicaChain cfg i) (fun _ => rfl)
    (fun i l src msg hl _ => hl) ?_ h hi
  rintro i l msg hlt rfl j m hs
  have hs : .send (.replica j) m ∈ messageHandlerChain cfg (initReplicaChain cfg i) msg := hs
  unfold messageHandlerChain at hs
  split_ifs at hs
  · simp [handleSetup] at hs
  · unfold handleRequest at hs
    split at hs
    · cases hlevel : (initReplicaChain cfg i).level <;> simp [hlevel] at hs <;> omega
    · simp at hs
  · unfold handleCommit at hs
    split at hs
    · split at hs
      case isTrue htail =>
        have hlast : ¬ i = cfg.numReplicas - 1 := by simpa [initReplicaChain] using htail
        have hright : (i + 1) % 256 = i + 1 := Nat.mod_eq_of_lt (by omega)
        simp [initReplicaChain, hright] at hs
        omega
      case isFalse => simp [Config.clientAt] at hs
    · simp at hs
  · simp at hs

theorem chain_counted (hl : cfg.level = .node) {s : Net (cluster (chainReplica cfg) C)}
    (h : s.Reachable) : Counted .chain s := by
  have hn := cfg.two_le_numReplicas
  have hspent : Spent 1 0 (s.trace (.replica 0)) := chain_spent hl h
  obtain ⟨m, hm⟩ : ∃ m, cfg.numReplicas = m + 2 := ⟨cfg.numReplicas - 2, by omega⟩
  have hlast : cfg.numReplicas - 1 = m + 1 := by omega
  have hrecv : recvReplica cfg .chain = m + 1 := hlast
  have htail := tail_sends hl h
  rw [hlast] at htail
  have hsum : sentByReplicas s = (setups (s.trace (.replica 0))).length +
      (requests (s.trace (.replica 0))).length +
      ∑ i ∈ Finset.range m, (sends (s.trace (.replica (i + 1)))).length +
      (responses (s.trace (.replica (m + 1)))).length := by
    rw [sentByReplicas_eq, hlast, Finset.sum_range_succ, hspent.sends_eq, htail]
    omega
  have hallow : allowance .chain s = (setups (s.trace (.replica 0))).length +
      (requests (s.trace (.replica 0))).length + m * (requests (s.trace (.replica 0))).length +
      (responses (s.trace (.replica (m + 1)))).length := by
    rw [allowance, hrecv, perRequest, hlast, Nat.succ_mul]
    omega
  refine ⟨fun i hi => by rw [chain_outside h hi, sends_nil], hspent.clients, ?_, ?_, fun hq => ?_⟩
  · rw [hrecv, ← hlast, tail_responses hl h, List.length_map, List.length_take]
    exact Nat.min_le_right _ _
  · have hle : ∑ i ∈ Finset.range m, (sends (s.trace (.replica (i + 1)))).length ≤
        m * (requests (s.trace (.replica 0))).length := by
      apply sum_le
      intro i hi
      rw [middle_sends hl h (Nat.le_add_left 1 i) (by omega)]
      have hpre := (prefix_relayed hl h (i := i + 1) (by omega)).length_le
      rwa [List.length_map] at hpre
    rw [hsum, hallow]
    omega
  · have heq : ∑ i ∈ Finset.range m, (sends (s.trace (.replica (i + 1)))).length =
        m * (requests (s.trace (.replica 0))).length := by
      apply sum_eq
      intro i hi
      rw [middle_sends hl h (Nat.le_add_left 1 i) (by omega), relayed_all hl h hq (by omega)]
    rw [hsum, hallow, heq]

end Chain

section TwoPhase

open SmeltConsensus.TwoPhase.Replica
open SmeltConsensus.TwoPhase.Commit

variable {C : ClientProc cfg} {ready ack : ClientTable}

/-- A ready message commits or does nothing, whatever the counter is. -/
theorem spends_ready {l : TpcReplicaT} {msg : SmltMsg} (hid : l.id = 0) (hmsg : msg.tag = TPC_RDY)
    (src : Party) :
    Spends (cfg.numReplicas - 1) cfg.numReplicas src msg (messageHandlerTpc cfg l msg).2 := by
  have hn := cfg.two_le_numReplicas
  have htag : msg.tag = 4 := hmsg
  have heq : messageHandlerTpc cfg l msg = handleReady cfg l msg := by
    simp [messageHandlerTpc, htag]
  refine ⟨?_, fun hs => by simp [htag] at hs⟩
  rw [heq, handleReady, if_pos hid]
  dsimp only
  split
  · cases l.level
    · simp [htag, commitMsg]
      omega
    · simp [htag, commitMsg]
      omega
  · simp [htag]

theorem tpc_spent (hl : cfg.level = .node) (hmax : cfg.clients.length ≤ MAX_NUM_CLIENTS)
    {s : Net (cluster (tpcReplica cfg ready ack) C)} (h : s.Reachable) :
    Spent (cfg.numReplicas - 1) cfg.numReplicas (s.trace (.replica 0)) := by
  apply leader_spent _ h
  intro s s' src msg hr hr' hp ht
  have hid := tpc_id hr 0
  have hchan := (histories (.inl hl) hmax hr').2.2 _ _ msg (sent_of_step hr' ht)
  show Spends _ _ src msg (messageHandlerTpc cfg (s.loc (.replica 0)) msg).2
  rcases src with (_ | j) | core
  · have hp : polls cfg (s.loc (.replica 0)) (.replica 0) = true := hp
    simp [polls, hid] at hp
  · exact spends_ready hid hchan.2.1 _
  · rcases hchan with ⟨htag, -⟩ | ⟨htag, -⟩
    · have hmsg : msg.tag = 1 := htag
      refine ⟨?_, fun _ => ⟨core, rfl⟩⟩
      simp [messageHandlerTpc, handleRequest, hmsg, hid]
    · have hmsg : msg.tag = 0 := htag
      refine ⟨?_, fun _ => ⟨core, rfl⟩⟩
      simp [messageHandlerTpc, handleSetup, hmsg]

/-- Every message to a replica is for one of the group. -/
theorem tpc_inside {l : TpcReplicaT} {msg m : SmltMsg} {j : Nat}
    (hs : .send (.replica j) m ∈ (messageHandlerTpc cfg l msg).2) : j < cfg.numReplicas := by
  have hn := cfg.two_le_numReplicas
  unfold messageHandlerTpc at hs
  split_ifs at hs
  · simp [handleSetup] at hs
  · unfold handleRequest at hs
    split at hs
    · obtain ⟨-, k, hk, heq⟩ := mem_sendEach.mp hs
      obtain rfl := Party.replica.inj heq
      rw [List.mem_range'_1] at hk
      omega
    · simp at hs
      omega
  · unfold handlePrepare at hs
    split at hs
    · simp at hs
      omega
    · simp at hs
  · unfold handleReady at hs
    dsimp only at hs
    split at hs
    · split at hs
      · rw [List.mem_append, mem_sendEach] at hs
        rcases hs with ⟨-, k, hk, heq⟩ | hs
        · obtain rfl := Party.replica.inj heq
          rw [List.mem_range'_1] at hk
          omega
        · cases hlevel : l.level <;> simp [hlevel] at hs
          exact absurd hs.1 (by simp [Config.clientAt])
      · cases hs
    · simp at hs
  · unfold handleCommit at hs
    split at hs <;> simp at hs
  · simp at hs

theorem tpc_outside {s : Net (cluster (tpcReplica cfg ready ack) C)} (h : s.Reachable) {i : Nat}
    (hi : cfg.numReplicas ≤ i) : s.trace (.replica i) = [] := by
  refine outside (R := tpcReplica cfg ready ack) (C := C) (fun i (l : TpcReplicaT) => l.id = i)
    (fun _ => rfl) (fun i l src msg hid _ => ?_) (fun _ _ _ _ _ _ _ hs => tpc_inside hs) h hi
  exact (messageHandlerTpc_frame cfg l msg).1.trans hid

/-- A participant sends one message for each that tells it to prepare. -/
theorem participant_sends (hl : cfg.level = .node) (hmax : cfg.clients.length ≤ MAX_NUM_CLIENTS)
    {s : Net (cluster (tpcReplica cfg ready ack) C)} (h : s.Reachable) {i : Nat} (h1 : 1 ≤ i) :
    (sends (s.trace (.replica i))).length =
      ((receivedFrom (.replica 0) (s.trace (.replica i))).filter (·.tag = TPC_PREP)).length := by
  obtain ⟨-, hpart, -⟩ := histories (.inl hl) hmax h
  have hi := hpart i (by omega)
  have hready := congrArg List.length hi.readies
  rw [sentTo_eq_sends, List.length_map, List.length_map,
    List.filter_eq_self.mpr fun x hx => decide_eq_true (hi.silent x hx)] at hready
  exact hready

/-- As many commands were executed as have one client each. -/
theorem length_eq_of_ofClient {cs ds : List Command}
    (h : ∀ cid, ofClient cid cs = ofClient cid ds) : cs.length = ds.length := by
  apply List.Perm.length_eq
  rw [List.perm_iff_count]
  intro c
  have hc := congrArg (List.count c) (h c.clientId)
  rwa [ofClient, ofClient, List.count_filter (by simp), List.count_filter (by simp)] at hc

theorem length_le_of_ofClient {cs ds : List Command}
    (h : ∀ cid, ofClient cid cs <+: ofClient cid ds) : cs.length ≤ ds.length := by
  apply List.Subperm.length_le
  rw [List.subperm_ext_iff]
  intro c _
  have hc := (h c.clientId).sublist.count_le c
  rwa [ofClient, ofClient, List.count_filter (by simp), List.count_filter (by simp)] at hc

theorem executed_requested (hone : OneOpen ready ack C) (hl : cfg.level = .node)
    (hmax : cfg.clients.length ≤ MAX_NUM_CLIENTS)
    {s : Net (cluster (tpcReplica cfg ready ack) C)} (h : s.Reachable) (cid : Nat) :
    ofClient cid (executed (s.trace (.replica 0))) <+:
      ofClient cid (requested (s.trace (.replica 0))) := by
  by_cases hcid : cid < MAX_NUM_CLIENTS
  · obtain ⟨table, hvote⟩ := voting hone (.inl hl) hmax h hcid
    exact hvote.closed_prefix
  · have hnone : ofClient cid (executed (s.trace (.replica 0))) = [] := by
      rw [ofClient, List.filter_eq_nil_iff]
      intro c hc
      have hlt := tpc_own hl hmax h c hc
      rw [decide_eq_true_eq]
      omega
    rw [hnone]
    exact List.nil_prefix

/-- With nothing in flight, the leader has executed every request it took. -/
theorem executed_all (hone : OneOpen ready ack C) (hl : cfg.level = .node)
    (hmax : cfg.clients.length ≤ MAX_NUM_CLIENTS)
    {s : Net (cluster (tpcReplica cfg ready ack) C)} (h : s.Reachable) (hq : s.Quiescent) :
    (executed (s.trace (.replica 0))).length = (requested (s.trace (.replica 0))).length := by
  obtain ⟨hlead, -, -⟩ := histories (.inl hl) hmax h
  apply length_eq_of_ofClient
  intro cid
  by_cases hcid : cid < MAX_NUM_CLIENTS
  · obtain ⟨table, hvote⟩ := voting hone (.inl hl) hmax h hcid
    exact hvote.executed_eq fun i h1 hi =>
      readies_of_empty (.inl hl) hmax h h1 hi (hq _ _) (hq _ _)
  · have hnone : ofClient cid (requested (s.trace (.replica 0))) = [] := by
      rw [ofClient, List.filter_eq_nil_iff]
      intro c hc
      have hlt := OwnRequests.lt hlead.ownRequests c hc
      rw [decide_eq_true_eq]
      omega
    have hprefix := executed_requested hone hl hmax h cid
    rw [hnone] at hprefix ⊢
    exact List.prefix_nil.mp hprefix

theorem tpc_counted (hone : OneOpen ready ack C) (hl : cfg.level = .node)
    (hmax : cfg.clients.length ≤ MAX_NUM_CLIENTS)
    {s : Net (cluster (tpcReplica cfg ready ack) C)} (h : s.Reachable) : Counted .tpc s := by
  obtain ⟨hlead, -, -⟩ := histories (.inl hl) hmax h
  have hn := cfg.two_le_numReplicas
  have hspent : Spent (cfg.numReplicas - 1) cfg.numReplicas (s.trace (.replica 0)) :=
    tpc_spent hl hmax h
  obtain ⟨m, hm⟩ : ∃ m, cfg.numReplicas = m + 1 := ⟨cfg.numReplicas - 1, by omega⟩
  have hresp : (responses (s.trace (.replica 0))).length = (executed (s.trace (.replica 0))).length := by
    rw [responses, hlead.service, filterMap_sendOf_flatMap, hlead.executed_eq, List.length_map,
      List.length_map]
  have hallow : allowance .tpc s = (setups (s.trace (.replica 0))).length +
      3 * (m * (requests (s.trace (.replica 0))).length) +
      (executed (s.trace (.replica 0))).length := by
    have hrecv : recvReplica cfg .tpc = 0 := rfl
    rw [allowance, hrecv, perRequest, hresp, hm, Nat.add_sub_cancel, Nat.mul_assoc]
  have hleader : (sends (s.trace (.replica 0))).length = (setups (s.trace (.replica 0))).length +
      m * (requests (s.trace (.replica 0))).length +
      (m * (executed (s.trace (.replica 0))).length + (executed (s.trace (.replica 0))).length) := by
    rw [hspent.sends_eq, hm, Nat.add_sub_cancel, Nat.succ_mul]
  have hprepares : ∀ i, 1 ≤ i → i < cfg.numReplicas →
      ((sentTo (.replica i) (s.trace (.replica 0))).filter (·.tag = TPC_PREP)).length =
        (requests (s.trace (.replica 0))).length := by
    intro i h1 hi
    rw [hlead.same i h1 hi, hlead.prepares, List.length_map]
  have hle := length_le_of_ofClient fun cid => executed_requested hone hl hmax h cid
  rw [requested, List.length_map] at hle
  refine ⟨fun i hi => by rw [tpc_outside h hi, sends_nil], hspent.clients, hresp.le.trans hle, ?_,
    fun hq => ?_⟩
  · have hfollowers := followers_le (s := s) (c := (requests (s.trace (.replica 0))).length) ?_
    · have hmul := Nat.mul_le_mul_left m hle
      rw [hm, Nat.add_sub_cancel] at hfollowers
      omega
    · intro i h1 hi
      rw [participant_sends hl hmax h h1, ← hprepares i h1 hi]
      exact ((h.receivedFrom_prefix _ _).filter _).length_le
  · have hfollowers := followers_eq (s := s) (c := (requests (s.trace (.replica 0))).length) ?_
    · have heq := executed_all hone hl hmax h hq
      rw [requested, List.length_map] at heq
      rw [hm, Nat.add_sub_cancel] at hfollowers
      rw [hfollowers, hleader, hallow, heq]
      omega
    · intro i h1 hi
      rw [participant_sends hl hmax h h1, ← hprepares i h1 hi, h.received_eq_sent (hq _ _)]

end TwoPhase

section OnePaxos

open SmeltConsensus.OnePaxos.Replica
open SmeltConsensus.OnePaxos.Execute
open SmeltConsensus.OnePaxos.Learn
open SmeltConsensus.OnePaxos.Backlog

variable {C : ClientProc cfg}

theorem paxos_spent (hl : cfg.level = .node) (hmax : cfg.clients.length ≤ MAX_NUM_CLIENTS)
    {s : Net (cluster (onepaxosReplica cfg false) C)} (h : s.Reachable) :
    Spent 1 1 (s.trace (.replica 0)) := by
  apply leader_spent _ h
  intro s s' src msg hr hr' hp ht
  obtain ⟨hlead, -, -, -⟩ := parties (.inl hl) hmax hr
  obtain ⟨-, -, -, hchan⟩ := parties (.inl hl) hmax hr'
  have hprop : Proposing (s.loc (.replica 0)) _ _ := proposing hmax hr
  have hsent := sent_of_step hr' ht
  show Spends 1 1 src msg (messageHandlerLoop cfg false (s.loc (.replica 0)) msg).2
  rcases src with (_ | _ | j) | core
  · have hp : polls cfg (s.loc (.replica 0)) (.replica 0) = true := hp
    simp [polls, hprop.alive, hlead.steady.id] at hp
  · have htag : msg.tag = ONE_LEARN := (hchan _ _ msg hsent).2.1
    have hmsg : msg.tag = 6 := htag
    have hle := learned_le_requests hmax hr'
    have hreq : requests (s'.trace (.replica 0)) = requests (s.trace (.replica 0)) := by
      rw [ht]
      simp [hmsg]
    rw [hreq, ht, receivedFrom_step, List.length_append, List.length_singleton] at hle
    obtain ⟨success, heq⟩ := learn_answered hl hprop (by omega) hlead.steady htag
      (hchan _ _ msg hsent).2.2 (next_learn hmax hr' ht)
    refine ⟨?_, fun hs => by simp [hmsg] at hs⟩
    rw [heq]
    cases success <;> simp [hmsg]
  · exact (hchan _ _ msg hsent).elim
  · rcases hchan _ _ msg hsent with ⟨htag, -⟩ | ⟨htag, -⟩
    · have hmsg : msg.tag = 1 := htag
      obtain ⟨l', -, heq⟩ := hprop.request false (learned_le_requests hmax hr) hlead.steady.id
        hlead.steady.leader hlead.steady.acceptor htag
      refine ⟨?_, fun _ => ⟨core, rfl⟩⟩
      rw [heq]
      simp [hmsg]
    · have hmsg : msg.tag = 0 := htag
      refine ⟨?_, fun _ => ⟨core, rfl⟩⟩
      rw [messageHandlerLoop_setup false hlead.steady.id htag]
      simp [handleSetup, hmsg]

theorem length_learners (cfg : Config) : (learners cfg).length = cfg.numReplicas - 1 := by
  have hn := cfg.two_le_numReplicas
  have herase : learners cfg = (List.range cfg.numReplicas).erase 1 := by
    rw [List.nodup_range.erase_eq_filter]
    exact List.filter_congr fun i _ => by simp [bne, Bool.beq_eq_decide_eq]
  rw [herase, List.length_erase_of_mem (List.mem_range.mpr (by omega)), List.length_range]

/-- The acceptor tells all others of each proposal. -/
theorem acceptor_sends (hl : cfg.level = .node) (hmax : cfg.clients.length ≤ MAX_NUM_CLIENTS)
    {s : Net (cluster (onepaxosReplica cfg false) C)} (h : s.Reachable) :
    (sends (s.trace (.replica 1))).length =
      (cfg.numReplicas - 1) * (receivedFrom (.replica 0) (s.trace (.replica 1))).length := by
  refine h.party_induction (.replica 1) (fun _ (t : List Ev) => (sends t).length =
    (cfg.numReplicas - 1) * (receivedFrom (.replica 0) t).length) rfl ?_ ?_
  · intro s s' src msg hr hr' hI hp ht
    obtain ⟨-, hacc, -, -⟩ := parties (.inl hl) hmax hr
    obtain ⟨-, -, -, hchan⟩ := parties (.inl hl) hmax hr'
    have hp : polls cfg (s.loc (.replica 1)) src = true := hp
    have ht : s'.trace (.replica 1) = s.trace (.replica 1) ++ .recv src msg ::
      (messageHandlerLoop cfg false (s.loc (.replica 1)) msg).2.map .out := ht
    have hsrc : src = .replica 0 := by
      by_contra hne
      simp [polls, hacc.steady.id, hacc.steady.leader, hne] at hp
    subst hsrc
    have htag : msg.tag = ONE_ACC := (hchan _ _ msg (sent_of_step hr' ht)).2.1
    have hmsg : msg.tag = 5 := htag
    obtain ⟨success, table, hexec⟩ := execute_frame
      { s.loc (.replica 1) with lastEntry := .message }
      { msg.withTag ONE_LEARN with data1 := OnepaxosReplicaT.index (s.loc (.replica 1)) }
    have hout : (sends ((messageHandlerLoop cfg false (s.loc (.replica 1)) msg).2.map .out :
        List Ev)).length = cfg.numReplicas - 1 := by
      have hge : msg.data2 ≥ (s.loc (.replica 1)).highestProposalNumber := by
        rw [hacc.steady.number]
        exact Nat.zero_le _
      have hid := hacc.steady.id
      simp only [messageHandlerLoop, messageHandlerOnepaxos, hmsg, handleAccept, if_pos hge, hexec,
        advance_eq]
      cases success <;> simp [hid, length_learners]
    rw [ht, receivedFrom_step, sends_append, sends_recv, List.length_append, List.length_append,
      hI, hout, List.length_singleton, Nat.mul_succ]
  · intro s s' x r _ _ _ hx
    cases hx

theorem paxos_counted (hl : cfg.level = .node) (hmax : cfg.clients.length ≤ MAX_NUM_CLIENTS)
    {s : Net (cluster (onepaxosReplica cfg false) C)} (h : s.Reachable) :
    Counted .onePaxos s := by
  have hn := cfg.two_le_numReplicas
  obtain ⟨hlead, hacc, hlearn, -⟩ := parties (.inl hl) hmax h
  have hprop : Proposing (s.loc (.replica 0)) _ _ := proposing hmax h
  have hspent : Spent 1 1 (s.trace (.replica 0)) := paxos_spent hl hmax h
  have hresp := paxos_responses hl hmax h
  have hquiet : ∀ i, 2 ≤ i → sends (s.trace (.replica i)) = [] := fun i hi => by
    rw [(hlearn i hi).history.replies, if_neg Bool.false_ne_true]
  obtain ⟨m, hm⟩ : ∃ m, cfg.numReplicas = m + 2 := ⟨cfg.numReplicas - 2, by omega⟩
  have hproposed : (sentTo (.replica 1) (s.trace (.replica 0))).length =
      (requests (s.trace (.replica 0))).length := by
    rw [hlead.proposals hprop.alive, List.length_map]
  have hsum : sentByReplicas s = (sends (s.trace (.replica 0))).length +
      (m + 1) * (receivedFrom (.replica 0) (s.trace (.replica 1))).length := by
    have hnone : ∀ i ∈ Finset.range m, (sends (s.trace (.replica (i + 1 + 1)))).length = 0 :=
      fun i _ => by rw [hquiet (i + 1 + 1) (by omega), List.length_nil]
    have hlast : cfg.numReplicas - 1 = m + 1 := by omega
    rw [sentByReplicas_eq, hlast, Finset.sum_range_succ', Finset.sum_eq_zero hnone, Nat.zero_add,
      acceptor_sends hl hmax h, hlast]
  have hallow : allowance .onePaxos s = (sends (s.trace (.replica 0))).length +
      (m + 1) * (requests (s.trace (.replica 0))).length := by
    have hrecv : recvReplica cfg .onePaxos = 0 := rfl
    rw [allowance, hrecv, perRequest, hresp, hspent.sends_eq, hm, Nat.succ_mul]
    omega
  refine ⟨fun i hi => hquiet i (by omega), hspent.clients, ?_, ?_, fun hq => ?_⟩
  · have hrecv : recvReplica cfg .onePaxos = 0 := rfl
    have hlearned := learned_le_requests hmax h
    rw [← List.length_map (f := SmltMsg.command)] at hlearned
    rw [hrecv, hresp, hlead.history.executed_eq]
    exact (select_sublist _ _).length_le.trans hlearned
  · have hle := (h.receivedFrom_prefix (.replica 0) (.replica 1)).length_le
    rw [hproposed] at hle
    rw [hsum, hallow]
    exact Nat.add_le_add_left (Nat.mul_le_mul_left _ hle) _
  · rw [hsum, hallow, h.received_eq_sent (hq _ _), hproposed]

end OnePaxos

section Raft

open SmeltConsensus.Raft.Replica
open SmeltConsensus.Raft.CommitIndex
open SmeltConsensus.Raft.Follower
open SmeltConsensus.Raft.Leader
open SmeltConsensus.Raft.History
open SmeltConsensus.Raft.Safety

variable {C : ClientProc cfg}

/-- The leader takes a message of another replica when it waits for it, and it is the reply. -/
theorem raft_reply {s s' : Net (cluster (raftReplica cfg) C)} (hr' : s'.Reachable) {w : Nat}
    (hw : LeaderHistory cfg w (s.loc (.replica 0)) (s.trace (.replica 0))) {j : Nat} {msg : SmltMsg}
    {os : List Out} (hp : polls cfg (s.loc (.replica 0)) (.replica j) = true)
    (ht : s'.trace (.replica 0) = s.trace (.replica 0) ++ .recv (.replica j) msg :: os.map .out) :
    w < cfg.numReplicas ∧ IsReply msg w (requests (s.trace (.replica 0))).length := by
  obtain ⟨w', hw'⟩ : ∃ w, LeaderHistory cfg w (s'.loc (.replica 0)) (s'.trace (.replica 0)) :=
    histories hr' 0
  have hwaits := hw.state.waits
  have hpos := hw.state.pos
  have hbyte := cfg.numReplicas_lt
  have hnext := hr'.receivedFrom_prefix (.replica j) (.replica 0)
  rw [ht, receivedFrom_step] at hnext
  rcases j with _ | j
  · have hnone : sentTo (.replica 0) (s'.trace (.replica 0)) = [] := hw'.appends_nil 0 (.inl rfl)
    rw [hnone] at hnext
    exact absurd (List.prefix_nil.mp hnext) (by simp)
  have hfollower : FollowerHistory (j + 1) (s'.loc (.replica (j + 1)))
    (s'.trace (.replica (j + 1))) := histories hr' (j + 1)
  rw [hfollower.sentTo_leader] at hnext
  obtain ⟨m, -, rfl⟩ := next_of_prefix hnext
  by_cases hlt : w < cfg.numReplicas
  · rw [if_pos hlt] at hwaits
    obtain rfl : j + 1 = w := by simpa [polls, hw.state.alive, hwaits] using hp
    have hlen := hw.replies (j + 1) hpos hlt
    rw [if_neg (Nat.lt_irrefl _)] at hlen
    have hrs : requests (s.trace (.replica 0)) ≠ [] := fun hnil =>
      Nat.ne_of_lt hlt (hw.state.idle_of_nil (by rw [requested, hnil, List.map_nil]))
    have hindex : (requests (s.trace (.replica 0))).length - 1 + 1 =
        (requests (s.trace (.replica 0))).length := by
      have hpos := List.length_pos_of_ne_nil hrs
      omega
    rw [hlen, hindex]
    exact ⟨hlt, isReply_replyMsg (by omega) _ _⟩
  · -- between requests every reply has been taken
    exfalso
    obtain rfl : w = cfg.numReplicas := Nat.le_antisymm hw.state.le (Nat.le_of_not_lt hlt)
    rw [if_neg hlt] at hwaits
    have hj : j + 1 < cfg.numReplicas := by
      simpa [polls, hw.state.alive, hwaits, hw.state.id] using hp
    have hmsg : (replyMsg (j + 1) ((receivedFrom (.replica (j + 1)) (s.trace (.replica 0))).length + 1)
        m).tag = RAFT_APPR := (isReply_replyMsg (by omega) _ _).tag
    have hreq : requests (s'.trace (.replica 0)) = requests (s.trace (.replica 0)) := by
      rw [ht, requests_append, requests_recv, if_neg (by rw [hmsg]; decide), requests_map_out,
        List.append_nil]
    have hle := hw'.replies (j + 1) (Nat.le_add_left 1 j) hj
    rw [hreq, ht, receivedFrom_step, List.length_append, List.length_singleton,
      hw.replies (j + 1) (Nat.le_add_left 1 j) hj, if_pos hj] at hle
    split at hle <;> omega

theorem raft_spent {s : Net (cluster (raftReplica cfg) C)} (h : s.Reachable) :
    Spent (cfg.numReplicas - 1) 1 (s.trace (.replica 0)) := by
  apply leader_spent _ h
  intro s s' src msg hr hr' hp ht
  obtain ⟨w, hw⟩ : ∃ w, LeaderHistory cfg w (s.loc (.replica 0)) (s.trace (.replica 0)) :=
    histories hr 0
  have hp : polls cfg (s.loc (.replica 0)) src = true := hp
  have hwaits := hw.state.waits
  have hpos := hw.state.pos
  have hbyte := cfg.numReplicas_lt
  show Spends _ _ src msg (messageHandlerLoop cfg (s.loc (.replica 0)) msg).2
  rcases src with j | core
  · obtain ⟨hlt, hm⟩ := raft_reply hr' hw hp ht
    have hcs : requested (s.trace (.replica 0)) ≠ [] := fun hnil =>
      Nat.ne_of_lt hlt (hw.state.idle_of_nil hnil)
    have hmsg : msg.tag = 4 := hm.tag
    obtain ⟨l', heq, -⟩ := reply_step hw.state hlt hcs (by rw [requested, List.length_map]; exact hm)
    refine ⟨?_, fun hs => by simp [hmsg] at hs⟩
    rw [heq]
    split
    · cases (requested (s.trace (.replica 0))).getLast? <;> simp [hmsg]
    · simp [hmsg]
  · have hidle : w = cfg.numReplicas := by
      by_contra hne
      have hlt : w < cfg.numReplicas := Nat.lt_of_le_of_ne hw.state.le hne
      rw [if_pos hlt] at hwaits
      simp [polls, hw.state.alive, hwaits] at hp
    subst hidle
    rcases fromClient_of_mem_sentTo hr' (sent_of_step hr' ht) with ⟨htag, -⟩ | ⟨htag, -⟩
    · have hmsg : msg.tag = 1 := htag
      obtain ⟨l', heq, -⟩ := request_step hw.state htag
      refine ⟨?_, fun _ => ⟨core, rfl⟩⟩
      rw [heq]
      simp [hmsg]
    · have hmsg : msg.tag = 0 := htag
      obtain ⟨l', heq, -⟩ := setup_step hw.state htag
      refine ⟨?_, fun _ => ⟨core, rfl⟩⟩
      rw [heq]
      simp [handleSetup, hmsg]

theorem raft_counted {s : Net (cluster (raftReplica cfg) C)} (h : s.Reachable) :
    Counted .raft s := by
  have hn := cfg.two_le_numReplicas
  obtain ⟨w, hw⟩ : ∃ w, LeaderHistory cfg w (s.loc (.replica 0)) (s.trace (.replica 0)) :=
    histories h 0
  have hspent : Spent (cfg.numReplicas - 1) 1 (s.trace (.replica 0)) := raft_spent h
  have hfollower : ∀ i, FollowerHistory (i + 1) (s.loc (.replica (i + 1)))
    (s.trace (.replica (i + 1))) := fun i => histories h (i + 1)
  have hservice := service_eq_answered h hw
  have hexec : (executed (s.trace (.replica 0))).length =
      (responses (s.trace (.replica 0))).length := by
    rw [executed_eq_service, responses, hservice, filterMap_execOf_flatMap, filterMap_sendOf_flatMap,
      List.length_map, List.length_map]
  have hrecv : recvReplica cfg .raft = 0 := rfl
  have hallow : allowance .raft s = (sends (s.trace (.replica 0))).length +
      (cfg.numReplicas - 1) * (requests (s.trace (.replica 0))).length := by
    rw [allowance, hrecv, perRequest, ← hexec, hspent.sends_eq, Nat.mul_assoc]
    omega
  have happends : ∀ i, i + 1 < cfg.numReplicas →
      (sentTo (.replica (i + 1)) (s.trace (.replica 0))).length =
        (requests (s.trace (.replica 0))).length := fun i hi => by
    rw [hw.appends (i + 1) (Nat.le_add_left 1 i) hi, List.length_mapIdx]
  have hsends : ∀ i, (sends (s.trace (.replica (i + 1)))).length =
      (receivedFrom (.replica 0) (s.trace (.replica (i + 1)))).length := fun i => by
    rw [(hfollower i).sends_eq, List.length_mapIdx]
  refine ⟨?_, hspent.clients, ?_, ?_, fun hq => ?_⟩
  · intro i hi
    obtain ⟨i, rfl⟩ := Nat.exists_eq_add_of_le' (Nat.le_trans (Nat.le_of_succ_le hn) hi)
    have hnone : receivedFrom (.replica 0) (s.trace (.replica (i + 1))) = [] := by
      have hpre := h.receivedFrom_prefix (.replica 0) (.replica (i + 1))
      rw [hw.appends_nil (i + 1) (.inr hi)] at hpre
      exact List.prefix_nil.mp hpre
    rw [(hfollower i).sends_eq, hnone, List.mapIdx_nil]
  · rw [hrecv, ← hexec, leader_executed_eq h hw, List.length_take, requested, List.length_map]
    exact Nat.min_le_right _ _
  · rw [hallow]
    refine followers_le fun i h1 hi => ?_
    obtain ⟨i, rfl⟩ := Nat.exists_eq_add_of_le' h1
    rw [hsends, ← happends i hi]
    exact (h.receivedFrom_prefix _ _).length_le
  · rw [hallow]
    refine followers_eq fun i h1 hi => ?_
    obtain ⟨i, rfl⟩ := Nat.exists_eq_add_of_le' h1
    rw [hsends, h.received_eq_sent (hq _ _), happends i hi]

end Raft

theorem counted (hl : cfg.level = .node) (hmax : cfg.clients.length ≤ MAX_NUM_CLIENTS)
    (ready ack : ClientTable) (C : WaitingClient cfg) (alg : Algorithm)
    {s : Net (cluster (initReplica cfg ready ack alg) C.toClientProc)} (h : s.Reachable) :
    Counted alg s := by
  cases alg with
  | onePaxos => exact paxos_counted hl hmax h
  | tpc =>
    have hone : TwoPhase.Commit.OneOpen ready ack C.toClientProc := fun s h cid core hcid =>
      TwoPhase.Commit.requested_length_le C (.inl hl) hmax h hcid
    exact tpc_counted hone hl hmax h
  | broad => exact broadcast_counted hl h
  | chain => exact chain_counted hl h
  | raft => exact raft_counted h

section Bound

variable {R : ReplicaProc} {C : ClientProc cfg} {s : Net (cluster R C)}
  {as : List (Action (cluster R C))}

/-- The leader has taken no more set-up messages and requests than the clients were stimulated
to send. -/
theorem taken_le (hrun : (Net.initial (cluster R C)).run as = some s)
    (hclients : ∀ x ∈ inputs (s.trace (.replica 0)),
      x.2.tag = SETUP_TAG ∨ x.2.tag = REQ_TAG → ∃ core, x.1 = .client core) :
    (setups (s.trace (.replica 0))).length + (requests (s.trace (.replica 0))).length ≤
      (stimulated as).length := by
  have hreach : s.Reachable := Net.Reachable.init.run hrun
  have hsplit : ∀ xs : List (Party × SmltMsg), (xs.filter fun x => x.2.tag = SETUP_TAG).length +
      (xs.filter fun x => x.2.tag = REQ_TAG).length =
        ((xs.filter fun x => x.2.tag = SETUP_TAG ∨ x.2.tag = REQ_TAG).map Prod.fst).length := by
    intro xs
    induction xs with
    | nil => rfl
    | cons x xs ih =>
      rw [List.length_map] at ih ⊢
      by_cases h0 : x.2.tag = 0
      · simp [h0] at ih ⊢
        omega
      · by_cases h1 : x.2.tag = 1 <;> simp [h0, h1] at ih ⊢ <;> omega
  rw [setups, requests, hsplit]
  apply List.Subperm.length_le
  rw [List.subperm_ext_iff]
  intro p hp
  obtain ⟨x, hx, rfl⟩ := List.mem_map.mp hp
  obtain ⟨hx, htag⟩ := List.mem_filter.mp hx
  obtain ⟨core, hcore⟩ := hclients x hx (of_decide_eq_true htag)
  have hle := (hreach.receivedFrom_prefix (.client core) (.replica 0)).length_le
  have hsent := client_sends hrun core
  have hinit : sends ((Net.initial (cluster R C)).trace (.client core)) = [] := rfl
  rw [hinit, List.length_nil, Nat.zero_add] at hsent
  have hto : (sentTo (.replica 0) (s.trace (.client core))).length ≤
      (sends (s.trace (.client core))).length := by
    rw [sentTo_eq_sends, List.length_map]
    exact List.length_filter_le _ _
  have hsub := ((List.filter_sublist (l := inputs (s.trace (.replica 0)))
    (p := fun x => x.2.tag = SETUP_TAG ∨ x.2.tag = REQ_TAG)).map Prod.fst).count_le (.client core)
  have hcount : ((inputs (s.trace (.replica 0))).map Prod.fst).count (.client core) =
      (receivedFrom (.client core) (s.trace (.replica 0))).length := by
    rw [receivedFrom_eq_inputs, List.length_map, List.count_eq_countP, List.countP_map,
      List.countP_eq_length_filter]
    rfl
  rw [hcore]
  omega

end Bound

/-- A run delivers a message for each stimulus of a client and what the set-up messages,
requests and responses account for, and no message less once nothing is in flight. -/
theorem messages_counted (cfg : Config) (hl : cfg.level = .node)
    (hfits : cfg.Fits) (ready ack : ClientTable)
    (C : WaitingClient cfg) (alg : Algorithm)
    (as : List (Action (cluster (initReplica cfg ready ack alg) C.toClientProc)))
    (s : Net (cluster (initReplica cfg ready ack alg) C.toClientProc))
    (hrun : (Net.initial _).run as = some s) :
    (delivered as).length ≤ (stimulated as).length + allowance alg s ∧
      (s.Quiescent → (delivered as).length = (stimulated as).length + allowance alg s) := by
  have hcounted := counted hl hfits.clients ready ack C alg (Net.Reachable.init.run hrun)
  constructor
  · exact (delivered_le hrun hcounted.outside).trans (Nat.add_le_add_left hcounted.le _)
  · intro hq
    rw [delivered_eq hrun hq hcounted.outside, hcounted.eq hq]

/-- Two requests in two phases take six messages each, with the requests and the responses. -/
theorem messages_counted_run :
    ∃ s : Net (cluster (initReplica .threeNodes unset unset .tpc)
        (anyWaitingClient .threeNodes).toClientProc),
      (delivered twoRequests).length = 16 ∧
      ((delivered twoRequests).length ≤ (stimulated twoRequests).length + allowance .tpc s ∧
        (s.Quiescent → (delivered twoRequests).length =
          (stimulated twoRequests).length + allowance .tpc s)) :=
  ⟨((Net.initial _).run twoRequests).get rfl, by decide,
    messages_counted .threeNodes rfl ⟨by decide, by decide⟩ unset unset _ .tpc twoRequests _ rfl⟩

/-- No run goes on without new requests: its length is bounded by what the clients send. -/
theorem run_length_le (cfg : Config) (hl : cfg.level = .node)
    (hfits : cfg.Fits) (ready ack : ClientTable)
    (C : WaitingClient cfg) (alg : Algorithm)
    (as : List (Action (cluster (initReplica cfg ready ack alg) C.toClientProc)))
    (s : Net (cluster (initReplica cfg ready ack alg) C.toClientProc))
    (hrun : (Net.initial _).run as = some s) :
    as.length ≤ (perRequest cfg.numReplicas alg + 3) * (stimulated as).length := by
  have hcounted := counted hl hfits.clients ready ack C alg (Net.Reachable.init.run hrun)
  have htaken := taken_le hrun hcounted.clients
  have hserved := hcounted.served
  have hlength := length_delivered_add_stimulated as
  have hdelivered := (delivered_le hrun hcounted.outside).trans
    (Nat.add_le_add_left hcounted.le _)
  obtain ⟨k, hk⟩ : ∃ k, perRequest cfg.numReplicas alg = k := ⟨_, rfl⟩
  rw [allowance, hk] at hdelivered
  rw [hk]
  have hmul := Nat.mul_le_mul_left k ((Nat.le_add_left _ _).trans htaken)
  have hsum : (k + 3) * (stimulated as).length = k * (stimulated as).length +
    3 * (stimulated as).length := Nat.add_mul _ _ _
  omega

theorem run_length_le_run :
    twoRequests.length ≤ (perRequest 3 .tpc + 3) * (stimulated twoRequests).length :=
  run_length_le .threeNodes rfl ⟨by decide, by decide⟩ unset unset (anyWaitingClient .threeNodes)
    .tpc twoRequests (((Net.initial _).run twoRequests).get rfl) rfl

end SmeltConsensus.Bench.MessageCount
