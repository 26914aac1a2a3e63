import SmeltConsensus.OnePaxos.Backlog
import SmeltConsensus.TwoTier.Balance

/-!
1Paxos below a node. The leader answers what it executes, so there is one answer
for each request as long as the request ids, which have 32 bits, do not repeat;
its queue of pending requests never runs empty.
-/

set_option autoImplicit false
set_option relaxedAutoImplicit false

namespace SmeltConsensus.TwoTier.PaxosBalance

open SmeltConsensus.Foundation.Network
open SmeltConsensus.Foundation.LastSeen
open SmeltConsensus.Message.Header
open SmeltConsensus.Cluster.Parties
open SmeltConsensus.OnePaxos.EntryQueue
open SmeltConsensus.OnePaxos.Replica
open SmeltConsensus.OnePaxos.Execute
open SmeltConsensus.OnePaxos.Learn
open SmeltConsensus.OnePaxos.Backlog
open SmeltConsensus.TwoTier.ComLayer
open SmeltConsensus.TwoTier.NodeCore
open SmeltConsensus.TwoTier.Balance

variable {cfg : Config}

/-- A learn message at the leader: what it executes, it answers. -/
theorem learn_answered (hclients : cfg.clients = [cfg.startedFrom]) {l : OnepaxosReplicaT}
    {cs : List Command} {k m : Nat} (h : Proposing l k m) (hlt : m < k)
    (hsteady : Steady cfg 0 l cs) {msg : SmltMsg} (ht : msg.tag = ONE_LEARN)
    (hcid : msg.clientId < cfg.clients.length) (hindex : msg.data1 = m) :
    ∃ success : Bool, (messageHandlerLoop cfg false l msg).2 = if success then
      [.exec msg.command, .send (.client cfg.startedFrom) (msg.withTag RESP_TAG)] else [] := by
  obtain ⟨success, table, hexec⟩ := execute_frame (unvoted l) msg
  obtain ⟨l', -, hlevel, -, hout⟩ := h.learn cfg false hlt hsteady.id hsteady.leader hindex
  have hreply := reply_eq (.inr ⟨rfl, hclients⟩) (hlevel.trans hsteady.level) hcid
  rw [clientAt_eq hclients hcid, if_pos rfl] at hreply
  refine ⟨success, ?_⟩
  rw [messageHandlerLoop_learn false hsteady.id ht, hout, hexec, hreply]
  cases success <;> rfl

section Run

variable {hclients : cfg.clients = [cfg.startedFrom]} {com : ComLayerT}
  {s : Net (cluster (onepaxosReplica cfg false) (nodeCore cfg hclients com))}

/-- The leader has answered what it has executed. -/
private theorem answered_executed (h : s.Reachable) :
    (sentTo (.client cfg.startedFrom) (s.trace (.replica 0))).length =
      (executed (s.trace (.replica 0))).length := by
  have ha : Answering cfg false := .inr ⟨rfl, hclients⟩
  have hmax := length_le hclients
  refine h.party_induction (.replica 0) (fun _ (t : List Ev) =>
    (sentTo (.client cfg.startedFrom) t).length = (executed t).length) rfl ?_ ?_
  · intro s s' src msg hr hr' hI hp ht
    obtain ⟨hlead, -, -, -⟩ := parties ha hmax hr
    obtain ⟨-, -, -, hchan⟩ := parties ha hmax hr'
    have hprop : Proposing (s.loc (.replica 0)) _ _ := proposing hmax hr
    have hsent : msg ∈ sentTo (.replica 0) (s'.trace src) := by
      apply (hr'.receivedFrom_prefix src (.replica 0)).subset
      rw [ht, receivedFrom_step]
      exact List.mem_concat_self
    rcases src with (_ | _ | j) | core
    · have hp : polls cfg (s.loc (.replica 0)) (.replica 0) = true := hp
      simp [polls, hprop.alive, hlead.steady.id] at hp
    · have htag : msg.tag = ONE_LEARN := (hchan _ _ msg hsent).2.1
      have hmsg : msg.tag = 6 := htag
      have hle := learned_le_requests hmax hr'
      have hreq : requests (s'.trace (.replica 0)) = requests (s.trace (.replica 0)) := by
        rw [ht]
        simp [hmsg]
      rw [hreq, ht, receivedFrom_step, List.length_append, List.length_singleton] at hle
      obtain ⟨success, heq⟩ := learn_answered hclients hprop (by omega) hlead.steady htag
        (hchan _ _ msg hsent).2.2 (next_learn hmax hr' ht)
      have heq : ((onepaxosReplica cfg false).handle (s.loc (.replica 0)) msg).2 = _ := heq
      have ht : s'.trace (.replica 0) = s.trace (.replica 0) ++ .recv (.replica 1) msg ::
        ((onepaxosReplica cfg false).handle (s.loc (.replica 0)) msg).2.map .out := ht
      rw [ht, heq]
      cases success with
      | false => simpa using hI
      | true => simpa using hI
    · exact (hchan _ _ msg hsent).elim
    · have htag : msg.tag = REQ_TAG := request_of_client hr' hsent
      obtain ⟨l', -, heq⟩ := hprop.request false (learned_le_requests hmax hr) hlead.steady.id
        hlead.steady.leader hlead.steady.acceptor htag
      have heq : (onepaxosReplica cfg false).handle (s.loc (.replica 0)) msg = _ := heq
      have ht : s'.trace (.replica 0) = s.trace (.replica 0) ++ .recv (.client core) msg ::
        ((onepaxosReplica cfg false).handle (s.loc (.replica 0)) msg).2.map .out := ht
      rw [ht, heq]
      simpa using hI
  · intro s s' x r _ _ _ hx
    cases hx

/-- Within `2 ^ 32` requests the leader executes and answers what it learns. -/
private theorem paxos_replies (hcount : com.reqCount = 0) (h : s.Reachable)
    (hbound : (called s).length ≤ 2 ^ 32)
    (hown : OwnRequests cfg (s.trace (.replica 0))) :
    (replies s).length = (receivedFrom (.replica 1) (s.trace (.replica 0))).length := by
  have ha : Answering cfg false := .inr ⟨rfl, hclients⟩
  have hmax := length_le hclients
  obtain ⟨hlead, -, -, -⟩ := parties ha hmax h
  have hcalled := called_eq hcount h hown
  have hstamped : Stamped (called s) := (calls hcount h).stamped
  have hlen := congrArg List.length hcalled
  rw [List.length_append, List.length_map] at hlen
  -- the request ids are the numbers of the requests
  have hnumber : ∀ (k : Nat) (c : Command), (requested (s.trace (.replica 0)))[k]? = some c → c.requestId = k := by
    intro k c hk
    rw [requested, List.getElem?_map, Option.map_eq_some_iff] at hk
    obtain ⟨x, hx, rfl⟩ := hk
    have hlt := (List.getElem?_eq_some_iff.mp hx).1
    have hget : (called s)[k]? = some x.2 := by
      rw [hcalled, List.getElem?_append_left (by rwa [List.length_map]), List.getElem?_map, hx]
      rfl
    have hrid := (hstamped k x.2 hget).2.2
    rw [Nat.mod_eq_of_lt (by omega)] at hrid
    exact hrid
  obtain ⟨rest, hrest⟩ := learned_requested ha hmax h
  have hlearned : ∀ (k : Nat) (hk : k < ((receivedFrom (.replica 1)
      (s.trace (.replica 0))).map SmltMsg.command).length),
      (((receivedFrom (.replica 1) (s.trace (.replica 0))).map SmltMsg.command)[k]).requestId = k := by
    intro k hk
    apply hnumber
    rw [← hrest, List.getElem?_append_left hk]
    exact List.getElem?_eq_getElem hk
  have hall : executed (s.trace (.replica 0)) =
      (receivedFrom (.replica 1) (s.trace (.replica 0))).map SmltMsg.command := by
    rw [hlead.history.executed_eq, admitted]
    apply select_eq_self
    · intro c _ n hn
      cases hn
    · rw [List.pairwise_iff_getElem]
      intro i j hi hj hij _
      rw [hlearned i hi, hlearned j hj]
      exact hij
  rw [replies, answered_executed h, hall, List.length_map]

/-- 1Paxos below a node, for at most `2 ^ 32` calls. -/
theorem paxos_balanced (hcount : com.reqCount = 0) (h : s.Reachable)
    (hbound : (called s).length ≤ 2 ^ 32) : Balanced s := by
  have ha : Answering cfg false := .inr ⟨rfl, hclients⟩
  have hmax := length_le hclients
  obtain ⟨hlead, hacc, hlearn, -⟩ := parties ha hmax h
  have hown := hlead.history.ownRequests
  have hcalled := congrArg List.length (called_eq hcount h hown)
  rw [List.length_append, List.length_map] at hcalled
  have halive := (proposing hmax h).alive
  have hreplies := paxos_replies hcount h hbound hown
  have hle := (learned_requested ha hmax h).length_le
  rw [List.length_map, requested, List.length_map] at hle
  have h2 := cfg.two_le_numReplicas
  apply balanced_of hcount h hown
  · intro i hi
    rcases Nat.lt_or_ge i 2 with hlt | hge
    · obtain rfl : i = 1 := by omega
      exact hacc.history.silent _
    · rw [sentTo_eq_sends, (hlearn i hge).history.replies]
      rfl
  · rw [hreplies]
    exact hle
  · intro hlt
    rw [hreplies] at hlt
    have hproposed := congrArg List.length (hlead.proposals halive)
    have haccepted := congrArg List.length (hacc.history.learns 0 Nat.zero_ne_one (by omega))
    rw [List.length_map] at hproposed
    rw [List.length_mapIdx] at haccepted
    rcases Nat.lt_or_ge (receivedFrom (.replica 0) (s.trace (.replica 1))).length
        (sentTo (.replica 1) (s.trace (.replica 0))).length with hmore | hall
    · apply canDeliver (p := .replica 0) (q := .replica 1) h _ hmore
      show polls cfg (s.loc (.replica 1)) (.replica 0) = true
      simp [polls, hacc.alive, hacc.steady.id, hacc.steady.leader]
    · apply canDeliver (p := .replica 1) (q := .replica 0) h _ (by omega)
      show polls cfg (s.loc (.replica 0)) (.replica 1) = true
      simp [polls, halive, hlead.steady.id]
      omega
  · intro _
    left
    show polls cfg (s.loc (.replica 0)) (.client cfg.startedFrom) = true
    simp [polls, halive, hlead.steady.id, startedFrom_mem hclients]

end Run

end SmeltConsensus.TwoTier.PaxosBalance
