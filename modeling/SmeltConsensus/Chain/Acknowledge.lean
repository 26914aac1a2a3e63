import SmeltConsensus.Chain.Order
import SmeltConsensus.Foundation.FineGrain

/-!
When the tail of a chain answers, with every send and every execution as a step of
its own. All replicas pass a request on before they execute it, so an answered
request has gone through the whole chain, and each replica has executed it or is
about to.
-/

set_option autoImplicit false
set_option relaxedAutoImplicit false

namespace SmeltConsensus.Chain.Acknowledge

open SmeltConsensus.Foundation
open SmeltConsensus.Foundation.Network
open SmeltConsensus.Foundation.FineGrain
open SmeltConsensus.Message.Header
open SmeltConsensus.Cluster.Parties
open SmeltConsensus.Chain.Replica
open SmeltConsensus.Chain.Order

variable {cfg : Config} {C : ClientProc cfg}

/-- The end of a handler of replica `i` that passes a request on, or answers it, and then
executes it. -/
inductive Ending (cfg : Config) (i : Nat) : List Out → Prop
  /-- Nothing of a request is left to do. -/
  | other {os : List Out} (hexec : executed (os.map .out : List Ev) = [])
      (hresp : responses (os.map .out) = []) : Ending cfg i os
  | execute (c : Command) : Ending cfg i [.exec c]
  | passOn (m : SmltMsg) (c : Command) (hi : i + 1 < cfg.numReplicas) :
      Ending cfg i [.send (.replica (i + 1)) m, .exec c]
  | answer (core : Nat) (m : SmltMsg) (c : Command) (hi : i = cfg.numReplicas - 1)
      (htag : m.tag ≠ SETUP_TAG) : Ending cfg i [.send (.client core) m, .exec c]

private theorem ending_single {i : Nat} {o : Out} {os : List Out} (h : os <:+ [o])
    (ho : Ending cfg i [o]) : Ending cfg i os := by
  rcases List.suffix_cons_iff.mp h with rfl | h
  · exact ho
  · obtain rfl := List.suffix_nil.mp h
    exact .other rfl rfl

private theorem ending_pair {i : Nat} {o : Out} {c : Command} {os : List Out}
    (h : os <:+ [o, .exec c]) (ho : Ending cfg i [o, .exec c]) : Ending cfg i os := by
  rcases List.suffix_cons_iff.mp h with rfl | h
  · exact ho
  · exact ending_single h (.execute c)

/-- What the handlers of a node-level chain do, and what can be left of it. -/
private theorem ending_of_suffix (hl : cfg.level = .node) {i : Nat} (hi : i < cfg.numReplicas)
    {msg : SmltMsg} {os : List Out}
    (h : os <:+ messageHandlerChain cfg (initReplicaChain cfg i) msg) : Ending cfg i os := by
  have hn := cfg.two_le_numReplicas
  have hn' := cfg.numReplicas_lt
  have hright : (i + 1) % 256 = i + 1 := by omega
  unfold messageHandlerChain at h
  split at h
  · rename_i hs
    apply ending_single h
    apply Ending.other
    · rfl
    · simp [responses, hs]
  · split at h
    · by_cases h0 : i = 0
      · subst h0
        have heq : handleRequest cfg (initReplicaChain cfg 0) msg =
            [.send (.replica 1) (msg.withTag CHAIN_COMMIT), .exec msg.command] := by
          simp [handleRequest, initReplicaChain, hl]
        rw [heq] at h
        exact ending_pair h (.passOn _ _ (by omega))
      · have heq : handleRequest cfg (initReplicaChain cfg i) msg =
            [.print "Only leader should receive requests \n" []] := by
          simp [handleRequest, initReplicaChain, h0]
        rw [heq] at h
        exact ending_single h (.other rfl rfl)
    · split at h
      · by_cases h0 : i = 0
        · have heq : handleCommit cfg (initReplicaChain cfg i) msg =
              [.print "Replica %d: leader should not receive commit\n" [i]] := by
            simp [handleCommit, initReplicaChain, h0]
          rw [heq] at h
          exact ending_single h (.other rfl rfl)
        · by_cases hlast : i = cfg.numReplicas - 1
          · have heq : handleCommit cfg (initReplicaChain cfg i) msg =
                [.send (.client (cfg.clients.getD msg.clientId 0)) (msg.withTag RESP_TAG),
                  .exec msg.command] := by
              simp [handleCommit, initReplicaChain, h0, ← hlast, Config.clientAt]
            rw [heq] at h
            exact ending_pair h (.answer _ _ _ hlast (by simp))
          · have heq : handleCommit cfg (initReplicaChain cfg i) msg =
                [.send (.replica (i + 1)) msg, .exec msg.command] := by
              simp [handleCommit, initReplicaChain, h0, hlast, hright]
            rw [heq] at h
            exact ending_pair h (.passOn _ _ (by omega))
      · exact ending_single h (.other rfl rfl)

variable {s : Fine (cluster (chainReplica cfg) C)}

/-- A replica keeps the state that it was started with. -/
def AsStarted (cfg : Config) (C : ClientProc cfg) :
    (p : Party) → (cluster (chainReplica cfg) C).Local p → Prop
  | .replica i, l => l = initReplicaChain cfg i
  | .client _, _ => True

theorem pending_ending (hl : cfg.level = .node) (h : s.Reachable) {i : Nat}
    (hi : i < cfg.numReplicas) : Ending cfg i (s.pending (.replica i)) := by
  have hrest := h.pending_rest (I := AsStarted cfg C) ?_ ?_ ?_ (.replica i)
  · rcases hrest with hnone | ⟨l, src, m, hl', hos⟩ | ⟨l, x, r, -, hr, -⟩
    · rw [hnone]
      exact .other rfl rfl
    · obtain rfl : l = initReplicaChain cfg i := hl'
      exact ending_of_suffix hl hi hos
    · cases hr
  · rintro (i | core)
    · rfl
    · trivial
  · rintro (i | core) l src m hI
    · exact hI
    · trivial
  · rintro (i | core) l x r - hr
    · cases hr
    · trivial

/-- The responses that the tail has sent. -/
def answers (s : Fine (cluster (chainReplica cfg) C)) : List (Party × SmltMsg) :=
  responses (s.net.trace (.replica (cfg.numReplicas - 1)))

/-- The requests that the head has taken. -/
def taken (s : Fine (cluster (chainReplica cfg) C)) : List (Party × SmltMsg) :=
  requests (s.net.trace (.replica 0))

/-- Where the chain is with the request at position `k`, counted from 0, of command `c`. -/
structure PassedOn (s : Fine (cluster (chainReplica cfg) C)) (k : Nat) (c : Command) : Prop where
  /-- Every replica before the tail has sent it to the next one. -/
  sent : ∀ i, i + 1 < cfg.numReplicas → (requested (s.net.trace (.replica 0))).take (k + 1) <+:
    (sentTo (.replica (i + 1)) (s.net.trace (.replica i))).map SmltMsg.command
  /-- Every replica has executed everything before it. -/
  earlier : ∀ i, i < cfg.numReplicas →
    (requested (s.net.trace (.replica 0))).take k <+: executed (s.net.trace (.replica i))
  /-- Every replica has executed it or is about to. -/
  executes : ∀ i, i < cfg.numReplicas →
    (requested (s.net.trace (.replica 0))).take (k + 1) <+: executed (s.net.trace (.replica i)) ∨
      s.pending (.replica i) = [.exec c]

/-- A chain in which every send and every execution is a step. -/
structure Acknowledged (s : Fine (cluster (chainReplica cfg) C)) : Prop where
  /-- The tail answers the requests in the order in which the head took them, each to the
  client it came from. -/
  responded : answers s = ((taken s).take (answers s).length).map
    fun x => (x.1, x.2.withTag RESP_TAG)
  executed_order : ∀ i, i < cfg.numReplicas →
    executed (s.net.trace (.replica i)) <+: requested (s.net.trace (.replica 0))
  answered : ∀ k c, k < (answers s).length →
    (requested (s.net.trace (.replica 0)))[k]? = some c → PassedOn s k c

/-- A message is received whether or not its handler has returned. -/
theorem requests_flush (s : Fine (cluster (chainReplica cfg) C)) (p : Party) :
    requests (s.flush.trace p) = requests (s.net.trace p) := by
  rw [Fine.flush_trace, requests_append, requests_map_out, List.append_nil]

theorem requested_flush (s : Fine (cluster (chainReplica cfg) C)) (p : Party) :
    requested (s.flush.trace p) = requested (s.net.trace p) := by
  rw [requested, requests_flush, requested]

theorem executed_flush (s : Fine (cluster (chainReplica cfg) C)) (p : Party) :
    executed (s.flush.trace p) = executed (s.net.trace p) ++
      executed ((s.pending p).map .out : List Ev) := by
  rw [Fine.flush_trace, executed_append]

/-- The answers are among those of the tail's handlers, when they have returned. -/
theorem answers_flush (s : Fine (cluster (chainReplica cfg) C)) :
    responses (s.flush.trace (.replica (cfg.numReplicas - 1))) = answers s ++
      responses ((s.pending (.replica (cfg.numReplicas - 1))).map .out) := by
  rw [Fine.flush_trace, responses_append, answers]

section Answered

variable (hl : cfg.level = .node) (h : s.Reachable)
include hl h

/-- What a replica will have executed when its handler returns. -/
private theorem prefix_flush {i : Nat} (hi : i < cfg.numReplicas) :
    executed (s.flush.trace (.replica i)) <+: requested (s.net.trace (.replica 0)) := by
  have hhead := (histories hl h.flush).1.executed_eq
  rw [← requested_flush, requested, ← hhead]
  exact prefix_executed hl h.flush (Nat.zero_le i) hi

/-- Every replica will have executed what the tail will have answered. -/
private theorem answers_le {i : Nat} (hi : i < cfg.numReplicas) :
    (responses (s.flush.trace (.replica (cfg.numReplicas - 1)))).length ≤
      (executed (s.flush.trace (.replica i))).length := by
  have htail := congrArg List.length (tail_responses hl h.flush)
  have hle := (prefix_executed hl h.flush (Nat.le_sub_one_of_lt hi) (by omega)).length_le
  rw [List.length_map, List.length_take] at htail
  omega

/-- What a replica has received is what its left neighbour has sent, whether or not
handlers have returned. -/
private theorem passed_on {i : Nat} (hi : i + 1 < cfg.numReplicas) :
    (executed (s.flush.trace (.replica (i + 1)))).length ≤
      (sentTo (.replica (i + 1)) (s.net.trace (.replica i))).length := by
  have hfifo := congrArg List.length (h.fifo (.replica i) (.replica (i + 1)))
  rw [executed_received hl h.flush hi, Fine.receivedFrom_flush, List.length_map]
  rw [List.length_append] at hfifo
  omega

/-- A replica that passed a request on, or answered it, executes before it goes on. -/
private theorem executed_or_next {i : Nat} (hi : i < cfg.numReplicas) :
    (answers s).length ≤ (executed (s.net.trace (.replica i))).length ∨
      (answers s).length = (executed (s.net.trace (.replica i))).length + 1 ∧
        ∃ c, s.pending (.replica i) = [.exec c] := by
  have hle := answers_le hl h hi
  have hanswers := congrArg List.length (answers_flush s)
  have hexec := congrArg List.length (executed_flush s (.replica i))
  rw [List.length_append] at hanswers hexec
  have hend := pending_ending hl h hi
  generalize hos : s.pending (.replica i) = os at hend hexec ⊢
  cases hend with
  | other hnone _ =>
    left
    rw [hnone, List.length_nil] at hexec
    omega
  | execute c =>
    have hone : executed (([.exec c] : List Out).map .out : List Ev) = [c] := rfl
    rw [hone, List.length_singleton] at hexec
    rcases Nat.lt_or_ge (executed (s.net.trace (.replica i))).length (answers s).length
      with hlt | hge
    · right
      exact ⟨by omega, c, rfl⟩
    · exact .inl hge
  | passOn m c hnext =>
    -- the next replica has received what is answered, so it is sent
    left
    have hright := answers_le hl h hnext
    have hsent := passed_on hl h hnext
    have hflush := congrArg List.length (executed_sent hl h.flush hnext)
    rw [List.length_map, Fine.flush_trace, hos, sentTo_append, List.length_append] at hflush
    have hone : executed (([.send (.replica (i + 1)) m, .exec c] : List Out).map .out : List Ev) =
        [c] := rfl
    have hm : sentTo (.replica (i + 1)) (([.send (.replica (i + 1)) m, .exec c] : List Out).map
        .out : List Ev) = [m] := by simp
    rw [hone, List.length_singleton] at hexec
    rw [hm, List.length_singleton] at hflush
    rw [Fine.flush_trace, hos] at hexec
    omega
  | answer core m c hlast htag =>
    left
    subst hlast
    have hne : ¬ m.tag = 0 := htag
    have hone : executed (([.send (.client core) m, .exec c] : List Out).map .out : List Ev) =
        [c] := rfl
    have hm : responses (([.send (.client core) m, .exec c] : List Out).map .out) =
        [(.client core, m)] := by
      simp [responses, hne]
    rw [hone, List.length_singleton] at hexec
    rw [hos, hm, List.length_singleton] at hanswers
    omega

/-- Every replica before the tail has passed on what the tail has answered. -/
private theorem passedOn {k : Nat} {c : Command} (hk : k < (answers s).length)
    (hc : (requested (s.net.trace (.replica 0)))[k]? = some c) : PassedOn s k c := by
  have hexecuted : ∀ i, i < cfg.numReplicas →
      executed (s.net.trace (.replica i)) <+: requested (s.net.trace (.replica 0)) := by
    intro i hi
    have hpre := prefix_flush hl h hi
    rw [executed_flush] at hpre
    exact (List.prefix_append _ _).trans hpre
  constructor
  · intro i hi
    have hsent : (sentTo (.replica (i + 1)) (s.net.trace (.replica i))).map SmltMsg.command <+:
        requested (s.net.trace (.replica 0)) := by
      have hpre := prefix_flush hl h (Nat.lt_of_succ_lt hi)
      rw [executed_sent hl h.flush hi, Fine.flush_trace, sentTo_append, List.map_append] at hpre
      exact (List.prefix_append _ _).trans hpre
    have hle := answers_le hl h hi
    have hanswers := congrArg List.length (answers_flush s)
    have hpassed := passed_on hl h hi
    rw [List.length_append] at hanswers
    apply List.prefix_of_prefix_length_le (List.take_prefix _ _) hsent
    rw [List.length_take, List.length_map]
    omega
  · intro i hi
    apply List.prefix_of_prefix_length_le (List.take_prefix _ _) (hexecuted i hi)
    rw [List.length_take]
    rcases executed_or_next hl h hi with hle | ⟨heq, -⟩ <;> omega
  · intro i hi
    have hpre := hexecuted i hi
    rcases executed_or_next hl h hi with hle | ⟨heq, c', hpending⟩
    · left
      apply List.prefix_of_prefix_length_le (List.take_prefix _ _) hpre
      rw [List.length_take]
      omega
    · rcases Nat.lt_or_ge k (executed (s.net.trace (.replica i))).length with hlt | hge
      · left
        apply List.prefix_of_prefix_length_le (List.take_prefix _ _) hpre
        rw [List.length_take]
        omega
      · -- what is left to do is the execution of this request
        right
        have hflush := prefix_flush hl h hi
        have hone : executed (([.exec c'] : List Out).map .out : List Ev) = [c'] := rfl
        obtain rfl : k = (executed (s.net.trace (.replica i))).length := by omega
        rw [executed_flush, hpending, hone] at hflush
        obtain ⟨rest, hrest⟩ := hflush
        rw [← hrest, List.append_assoc, List.getElem?_append_right le_rfl, Nat.sub_self] at hc
        obtain rfl := Option.some.inj hc
        exact hpending

end Answered

/-- A node-level chain with small steps, for any clients and any interleaving. -/
theorem chain_acknowledged (cfg : Config) (hl : cfg.level = .node) (C : ClientProc cfg)
    (s : Fine (cluster (chainReplica cfg) C)) (h : s.Reachable) : Acknowledged s where
  responded := by
    have htail := tail_responses hl h.flush
    have hpre : answers s <+: responses (s.flush.trace (.replica (cfg.numReplicas - 1))) := by
      rw [answers_flush]
      exact List.prefix_append _ _
    have hlen := hpre.length_le
    rw [htail, List.length_map, List.length_take] at hlen
    rw [htail] at hpre
    refine (List.prefix_iff_eq_take.mp hpre).trans ?_
    rw [← List.map_take, List.take_take, requests_flush, taken]
    congr 2
    omega
  executed_order i hi := by
    have hpre := prefix_flush hl h hi
    rw [executed_flush] at hpre
    exact (List.prefix_append _ _).trans hpre
  answered k c hk hc := passedOn hl h hk hc

/-- Two replicas and a client. -/
private def pair : Config := .twoNodes

/-- Both replicas have sent and not executed. -/
private def bothSent : List (FineAction (cluster (chainReplica pair) (anyClient pair))) :=
  let zero : SmltMsg := ⟨0, 0, 0, 0, 0, 0, 0⟩
  [.stimulate (.client 10) (zero.stamp 0 1 0 ⟨7, 7, 7⟩), .perform (.client 10),
    .deliver (.client 10) (.replica 0), .perform (.replica 0),
    .deliver (.replica 0) (.replica 1), .perform (.replica 1)]

private def answeredState : Fine (cluster (chainReplica pair) (anyClient pair)) :=
  (Machine.run Fine.step (Fine.initial _) bothSent).get rfl

private theorem reachable_answeredState : answeredState.Reachable :=
  ⟨bothSent, (Option.some_get _).symm⟩

/-- The response is sent and no replica has executed the request. -/
theorem answered_before_execution : ¬ ∀ (cfg : Config), cfg.level = .node →
    ∀ (C : ClientProc cfg) (s : Fine (cluster (chainReplica cfg) C)), s.Reachable →
      ∀ x ∈ taken s, (x.1, x.2.withTag RESP_TAG) ∈ answers s → ∀ i, i < cfg.numReplicas →
        x.2.command ∈ executed (s.net.trace (.replica i)) := by
  intro h
  have hexec := h pair rfl _ answeredState reachable_answeredState
    (.client 10, SmltMsg.stamp ⟨0, 0, 0, 0, 0, 0, 0⟩ 0 1 0 ⟨7, 7, 7⟩) (by decide) (by decide) 1
    (by decide)
  revert hexec
  decide

theorem chain_acknowledged_pair : (answers answeredState).length = 1 ∧
    executed (answeredState.net.trace (.replica 0)) = [] ∧ Acknowledged answeredState :=
  ⟨by decide, by decide, chain_acknowledged pair rfl _ _ reachable_answeredState⟩

end SmeltConsensus.Chain.Acknowledge
