import SmeltConsensus.Cluster.Algorithms
import SmeltConsensus.TwoTier.Balance
import SmeltConsensus.TwoTier.PaxosBalance

/-!
The balance of requests and replies below a node, for every algorithm that is made
of messages. A chain answers twice: its head answers the core that started the
group, and its tail does not look at the level and answers the client, which is
the same core.
-/

set_option autoImplicit false
set_option relaxedAutoImplicit false

namespace SmeltConsensus.TwoTier.CoreTier

open SmeltConsensus.Foundation.Network
open SmeltConsensus.Message.Header
open SmeltConsensus.Cluster.Parties
open SmeltConsensus.Cluster.Algorithms
open SmeltConsensus.TwoTier.ComLayer
open SmeltConsensus.TwoTier.NodeCore
open SmeltConsensus.TwoTier.Balance
open SmeltConsensus.TwoTier.PaxosBalance

/-- The number of an algorithm. -/
def algorithmNumber : Algorithm → Nat
  | .onePaxos => ALG_1PAXOS
  | .tpc => ALG_TPC
  | .broad => ALG_BROAD
  | .chain => ALG_CHAIN
  | .raft => ALG_RAFT

/-- The layer of a node core after `com_layer_core_init`. -/
def coreLayer (alg : Algorithm) (currentCore : Nat) (cores : List Nat)
    (numCores cmdSize : Nat) : ComLayerT :=
  (comLayerCoreInit (algorithmNumber alg) currentCore cores numCores cmdSize).1

theorem coreLayer_reqCount (alg : Algorithm) (currentCore : Nat) (cores : List Nat)
    (numCores cmdSize : Nat) : (coreLayer alg currentCore cores numCores cmdSize).reqCount = 0 := by
  cases alg <;> rfl

section NotCalled

variable {cfg : Config} {hclients : cfg.clients = [cfg.startedFrom]} {com : ComLayerT}
  {R : ReplicaProc} {s : Net (cluster R (nodeCore cfg hclients com))}

/-- Before the first call nothing happens. -/
theorem idle_of_not_called (h : s.Reachable) (hnone : called s = []) : ∀ p, s.trace p = [] := by
  induction h with
  | init => exact fun _ => rfl
  | @step s s' a hr hs ih =>
    obtain ⟨src, dst, m, rest, -, hq, rfl⟩ | ⟨q, x, r, hx, rfl⟩ := Net.step_cases hs
    · -- a message that is delivered was sent before
      have hold : called s = [] := by
        rw [called] at hnone ⊢
        by_cases hdst : .client cfg.startedFrom = dst
        · subst hdst
          rw [Net.act_trace_self, Net.pop_trace, sentTo_append] at hnone
          exact (List.append_eq_nil_iff.mp hnone).1
        · rw [Net.act_trace_of_ne _ hdst, Net.pop_trace] at hnone
          exact hnone
      have hfifo := hr.fifo src dst
      rw [hq, ih hold src, sentTo_nil] at hfifo
      exact absurd (List.append_eq_nil_iff.mp hfifo.symm).2 (List.cons_ne_nil _ _)
    · -- the only stimulus is a call
      rcases q with i | core
      · cases hx
      · obtain ⟨c, hc, rfl⟩ := Option.map_eq_some_iff.mp hx
        have hcall : (if core = cfg.startedFrom ∧ NodeCoreT.waiting (s.loc (.client core)) = false then
            (request (NodeCoreT.com (s.loc (.client core))) x).map fun r =>
              ((⟨r.1, true⟩ : NodeCoreT), r.2) else none) = some c := hc
        split at hcall
        · rename_i hcore
          obtain rfl : core = cfg.startedFrom := hcore.1
          rw [called, Net.act_trace_self, sentTo_append, List.append_eq_nil_iff, List.map_cons,
            sentTo_send, if_pos rfl] at hnone
          exact absurd hnone.2 (List.cons_ne_nil _ _)
        · cases hcall

/-- Before the first call there is nothing to answer. -/
theorem balanced_of_not_called (hcount : com.reqCount = 0) (h : s.Reachable)
    (hnone : called s = []) : Balanced s := by
  have hidle := idle_of_not_called h hnone
  have hreplies : replies s = [] := by
    rw [replies, hidle]
    rfl
  have hwait : waiting s = false := by
    have hsent : (called s).length = _ + (waiting s).toNat := (calls hcount h).sent
    rw [hnone, List.length_nil] at hsent
    apply Bool.toNat_eq_zero.mp
    omega
  constructor
  · intro i _
    rw [hidle]
    rfl
  · rw [hreplies]
    exact Nat.zero_le _
  · intro _
    refine ⟨by rw [hreplies, hnone], fun p => ?_⟩
    have hfifo := h.fifo p (.client cfg.startedFrom)
    rw [hidle p, sentTo_nil] at hfifo
    exact (List.append_eq_nil_iff.mp hfifo.symm).2
  · intro hw
    rw [hwait] at hw
    cases hw

end NotCalled

/-- The calls of a run stay within what its algorithm can answer once: a chain can answer
none and 1Paxos as many as there are request ids. -/
def WithinBalance (alg : Algorithm) (calls : Nat) : Prop :=
  (alg = .chain → calls = 0) ∧ (alg = .onePaxos → calls ≤ 2 ^ 32)

/-- Every call of a core-level group of up to 64 replicas gets exactly one message, from the
first replica. -/
theorem core_tier_balanced (alg : Algorithm) (ready ack : ClientTable)
    (currentCore : Nat) (cores : List Nat) (numCores cmdSize : Nat)
    (h2 : 2 ≤ (coreLayer alg currentCore cores numCores cmdSize).numCores)
    (h64 : (coreLayer alg currentCore cores numCores cmdSize).numCores ≤ MAX_NUM_REPLICAS)
    (hcores : (coreLayer alg currentCore cores numCores cmdSize).numCores ≤
      (coreLayer alg currentCore cores numCores cmdSize).cores.length)
    (hcore : (coreLayer alg currentCore cores numCores cmdSize).currentCore < 256)
    (s : Net (cluster (initReplica (coreGroup _ h2 h64 hcores hcore) ready ack alg)
      (nodeCore (coreGroup _ h2 h64 hcores hcore) rfl
        (coreLayer alg currentCore cores numCores cmdSize))))
    (h : s.Reachable) (hcalls : WithinBalance alg (called s).length) : Balanced s := by
  have hcount := coreLayer_reqCount alg currentCore cores numCores cmdSize
  cases alg with
  | onePaxos => exact paxos_balanced hcount h (hcalls.2 rfl)
  | tpc => exact tpc_balanced hcount h
  | broad => exact broadcast_balanced hcount h
  | chain =>
    apply balanced_of_not_called hcount h
    exact List.eq_nil_of_length_eq_zero (hcalls.1 rfl)
  | raft => exact raft_balanced hcount h

section Runs

/-- Two replicas below the node core 9. -/
private def pairLayer (alg : Algorithm) : ComLayerT := coreLayer alg 9 [0, 1, 2] 3 24

private theorem pair_bounds (alg : Algorithm) :
    2 ≤ (pairLayer alg).numCores ∧ (pairLayer alg).numCores ≤ MAX_NUM_REPLICAS ∧
      (pairLayer alg).numCores ≤ (pairLayer alg).cores.length ∧
      (pairLayer alg).currentCore < 256 := by
  cases alg <;> decide

private def pairGroup (alg : Algorithm) : Config :=
  coreGroup (pairLayer alg) (pair_bounds alg).1 (pair_bounds alg).2.1 (pair_bounds alg).2.2.1
    (pair_bounds alg).2.2.2

private def garbage : ClientTable := Vector.replicate 64 5

private def PairSystem (alg : Algorithm) : System Party SmltMsg Command :=
  cluster (initReplica (pairGroup alg) garbage garbage alg)
    (nodeCore (pairGroup alg) rfl (pairLayer alg))

/-- The call and the answer of the acceptor. -/
private def paxosCall : List (Action (PairSystem .onePaxos)) :=
  [.stimulate (.client 9) (⟨0, 0, 0, 0, 7, 7, 7⟩ : SmltMsg), .deliver (.client 9) (.replica 0),
    .deliver (.replica 0) (.replica 1), .deliver (.replica 1) (.replica 0),
    .deliver (.replica 0) (.client 9)]

/-- One call of a pair that runs 1Paxos. -/
theorem core_tier_balanced_pair : ∃ s : Net (PairSystem .onePaxos),
    (called s).length = 1 ∧ waiting s = false ∧ Balanced s :=
  ⟨((Net.initial _).run paxosCall).get rfl, by decide, by decide,
    core_tier_balanced .onePaxos garbage garbage 9 [0, 1, 2] 3 24 (by decide) (by decide)
      (by decide) (by decide) _ (Net.reachable_of_run paxosCall rfl)
      ⟨(nomatch ·), fun _ => by decide⟩⟩

/-- The head of a chain answers and the call returns; then the tail takes the commit. -/
private def chainCall : List (Action (PairSystem .chain)) :=
  [.stimulate (.client 9) (⟨0, 0, 0, 0, 7, 7, 7⟩ : SmltMsg), .deliver (.client 9) (.replica 0),
    .deliver (.replica 0) (.client 9), .deliver (.replica 0) (.replica 1)]

/-- After one call the message of the tail stays in its channel. -/
theorem chain_answers_twice : ∃ s : Net (PairSystem .chain), s.Reachable ∧
    (called s).length = 1 ∧ waiting s = false ∧
      (s.inFlight (.replica 1) (.client 9)).length = 1 ∧ ¬ Balanced s := by
  refine ⟨((Net.initial _).run chainCall).get rfl, Net.reachable_of_run chainCall rfl,
    by decide, by decide, by decide, fun hbalanced => ?_⟩
  have hsilent := hbalanced.silent 1 Nat.one_ne_zero
  revert hsilent
  decide

end Runs

end SmeltConsensus.TwoTier.CoreTier
