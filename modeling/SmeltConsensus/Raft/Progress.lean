import SmeltConsensus.Foundation.Machine
import SmeltConsensus.Raft.Follower

/-!
A follower whose leader commits in jumps. One message may make it execute any
number of entries, while it drops every entry two behind the one it executes.
-/

set_option autoImplicit false
set_option relaxedAutoImplicit false

namespace SmeltConsensus.Raft.Progress

open SmeltConsensus.Foundation.Machine
open SmeltConsensus.Foundation.LinkedHeap
open SmeltConsensus.Foundation.Network (Output)
open SmeltConsensus.Message.Header
open SmeltConsensus.Cluster.Parties
open SmeltConsensus.Raft.LogQueue
open SmeltConsensus.Raft.Replica
open SmeltConsensus.Raft.Log
open SmeltConsensus.Raft.Follower

/-- What the first leader may send next: the entry after the last one, or a RAFT_APPE. Either
has any commit index. -/
def FromLeader (l : RaftReplicaT) (msg : SmltMsg) : Prop :=
  Appends msg l.lastLogIndex ∨ msg.tag = RAFT_APPE

/-- One message, with all that was done so far. -/
def receive (cfg : Config) (s : Done) (msg : SmltMsg) : Option Done :=
  if s.1.crashed then none
  else
    let r := messageHandlerLoop cfg s.1 msg
    some (r.1, s.2 ++ r.2)

/-- A follower at start. -/
def start (cfg : Config) (id : Nat) : Done := (initReplicaRaft cfg id, [])

/-- The RAFT_APP messages among `ms`; the first of them carries entry 1. -/
def appended (ms : List SmltMsg) : List SmltMsg := ms.filter (·.tag = RAFT_APP)

/-- The payloads passed to `exec_fn`, in order. -/
def executedPayloads (s : Done) : List Payload := (s.2.filterMap execOf).map Command.payload

/-- The log accesses of one turn of the loop of `update_applied_entries`: the entry to execute
is found, and so is the one to remove, which has both neighbours. -/
structure TurnFinds (r : RaftReplicaT) : Prop where
  lookup : ∃ ele e, queueContains r.heap r.queue (r.lastApplied + 1) = some (some ele) ∧
    r.heap.val ele = some e ∧ e.index = r.lastApplied + 1
  removal : r.lastApplied + 1 > 2 → ∃ ele node,
    queueContains r.heap r.queue (r.lastApplied + 1 - 2) = some (some ele) ∧
      r.heap.deref (some ele) = some node ∧ node.prev.isSome ∧ node.next.isSome

/-- The log accesses of the handler of a message: the entry before the new one is found and no
entry is in its place, so that nothing is removed but in the turns of the loop. -/
structure HandlerFinds (cfg : Config) (l : RaftReplicaT) (msg : SmltMsg) : Prop where
  append : msg.tag = RAFT_APP →
    (∃ ele, queueContains l.heap l.queue msg.data2 = some (some ele)) ∧
      queueContains l.heap l.queue (msg.data2 + 1) = some none
  turns : ∃ r sent, messageHandlerRaft cfg { l with message := msg } .message =
      andThen (r, sent) (updateAppliedEntries cfg) ∧ r.crashed = false ∧
    ∀ j, j < r.commitIndex - r.lastApplied → TurnFinds (applyEntries cfg j r).1

/-- What the last message `msg` of `ms ++ [msg]` did. -/
structure Progressed (cfg : Config) (ms : List SmltMsg) (msg : SmltMsg) (s s' : Done) : Prop where
  alive : s'.1.crashed = false
  applied : s'.1.lastApplied = s'.1.commitIndex
  committed : s'.1.commitIndex ≤ s'.1.lastLogIndex
  lastApplied_mono : s.1.lastApplied ≤ s'.1.lastApplied
  commitIndex_mono : s.1.commitIndex ≤ s'.1.commitIndex
  lastLogIndex_mono : s.1.lastLogIndex ≤ s'.1.lastLogIndex
  lastLogIndex : s'.1.lastLogIndex = (appended (ms ++ [msg])).length
  executed : executedPayloads s' =
    ((appended (ms ++ [msg])).take s'.1.lastApplied).map SmltMsg.payload
  finds : HandlerFinds cfg s.1 msg

variable {cfg : Config}

section Turns

variable {l : RaftReplicaT} {i c d : Nat} {cs : List Command}

/-- A follower that has entry `c + 1` finds it, and what it drops is inside of the log. -/
theorem turnFinds (h : Following l i cs c d) (hc : c + 1 ≤ cs.length) : TurnFinds l := by
  constructor
  · obtain ⟨e, he, hindex⟩ := h.log.val_eq hc
    have hfound := h.log.contains (c + 1)
    rw [if_pos (mem_kept.mpr (by omega))] at hfound
    rw [h.lastApplied]
    exact ⟨c + 1, e, hfound, he, hindex⟩
  · intro hgt
    rw [h.lastApplied] at hgt ⊢
    have hsub : c + 1 - 2 = c - 1 := by omega
    have hfound := h.log.contains (c - 1)
    rw [if_pos (mem_kept.mpr (by omega))] at hfound
    -- the entry stands between the first one and entry `c`
    have hseg := h.log.linked.seg
    rw [(kept_advance (by omega) (by omega)).1, seg_append, seg_cons] at hseg
    obtain ⟨-, ⟨v, hv⟩, -⟩ := hseg
    obtain ⟨k, hk⟩ : ∃ k, cs.length + 1 - c = k + 1 := ⟨cs.length - c, by omega⟩
    rw [hsub]
    refine ⟨c - 1, _, hfound, Heap.deref_eq hv rfl, rfl, ?_⟩
    rw [hk, List.range'_succ]
    rfl

variable (cfg) in
/-- Every turn of the loop finds its entries. -/
theorem turns_find (h : Following l i cs c d) (hd : d ≤ cs.length) {j : Nat}
    (hj : j < l.commitIndex - l.lastApplied) : TurnFinds (applyEntries cfg j l).1 := by
  rw [h.commitIndex, h.lastApplied] at hj
  obtain ⟨l', happly, h'⟩ := applyEntries_follower cfg j h (by omega)
  rw [happly]
  exact turnFinds h' (by omega)

end Turns

section Messages

variable {l : RaftReplicaT} {i c : Nat} {cs : List Command} {msg : SmltMsg}

/-- The commit index after a RAFT_APPE message. -/
def emptyCommit (l : RaftReplicaT) (msg : SmltMsg) : Nat :=
  if msg.data1 ≥ l.commitIndex then min msg.data1 l.lastLogIndex else l.commitIndex

variable (cfg) in
/-- A RAFT_APPE message with an old commit index executes nothing, as does the loop then. -/
theorem handleEmptyAppend_eq (h : l.commitIndex = l.lastApplied) :
    handleEmptyAppend cfg { l with message := msg } .message =
      updateAppliedEntries cfg { l with
        message := msg
        commitIndex := emptyCommit l msg
        electionTimeout := false } := by
  unfold emptyCommit
  by_cases hdata : msg.data1 ≥ l.commitIndex
  · rw [if_pos hdata]
    exact if_pos hdata
  · rw [if_neg hdata]
    refine (if_neg hdata).trans (updateAppliedEntries_none ?_).symm
    exact h

variable (cfg) in
/-- The state in which a handler begins to execute entries. -/
theorem handler_enters (h : Following l i cs c c) (hc : c ≤ cs.length) (hm : FromLeader l msg) :
    ∃ r sent d, messageHandlerRaft cfg { l with message := msg } .message =
        andThen (r, sent) (updateAppliedEntries cfg) ∧
      Following r i (cs ++ (appended [msg]).map SmltMsg.command) c d ∧ c ≤ d ∧
      d ≤ (cs ++ (appended [msg]).map SmltMsg.command).length ∧ sent.filterMap execOf = [] := by
  rcases hm with hm | htag
  · rw [h.lastLogIndex] at hm
    obtain ⟨r, hr, hhandle⟩ := handleAppend_eq cfg h hc hm
    have happended : (appended [msg]).map SmltMsg.command = [msg.command] := by
      have htag : msg.tag = 3 := hm.tag
      simp [appended, htag]
    have hbounds : c ≤ commitAfter msg cs.length c ∧ commitAfter msg cs.length c ≤ cs.length + 1 := by
      rw [commitAfter]
      split_ifs <;> omega
    rw [happended, List.length_append, List.length_singleton]
    exact ⟨r, _, _, (messageHandlerRaft_append cfg hm.tag).trans hhandle, hr, hbounds.1, hbounds.2,
      rfl⟩
  · have happe : msg.tag = 5 := htag
    have happended : (appended [msg]).map SmltMsg.command = [] := by
      simp [appended, happe]
    have hhandle : messageHandlerRaft cfg { l with message := msg } .message =
        handleEmptyAppend cfg { l with message := msg } .message := by
      simp [messageHandlerRaft, RaftReplicaT.msg, happe]
    have hr : Following { l with
        message := msg
        commitIndex := emptyCommit l msg
        electionTimeout := false } i cs c (emptyCommit l msg) :=
      ⟨h.id, h.ne_zero, h.term, h.leader, h.candidate, h.alive, h.waits, h.lastLogIndex, rfl,
        h.lastApplied, h.log, h.commands⟩
    have hbounds : c ≤ emptyCommit l msg ∧ emptyCommit l msg ≤ cs.length := by
      rw [emptyCommit, h.commitIndex, h.lastLogIndex]
      split_ifs <;> omega
    rw [happended, List.append_nil, hhandle,
      handleEmptyAppend_eq cfg (h.commitIndex.trans h.lastApplied.symm)]
    refine ⟨_, [], emptyCommit l msg, ?_, hr, hbounds.1, hbounds.2, rfl⟩
    exact (andThen_eq hr.alive _ rfl []).symm

theorem appended_append (ms ns : List SmltMsg) :
    appended (ms ++ ns) = appended ms ++ appended ns := by
  rw [appended, List.filter_append, ← appended, ← appended]

variable (cfg) in
theorem handler_finds {r : RaftReplicaT} {sent : List Out} {d : Nat} {ds : List Command}
    (h : Following l i cs c c) (hc : c ≤ cs.length) (hm : FromLeader l msg)
    (hhandle : messageHandlerRaft cfg { l with message := msg } .message =
      andThen (r, sent) (updateAppliedEntries cfg))
    (hr : Following r i ds c d) (hd : d ≤ ds.length) : HandlerFinds cfg l msg := by
  refine ⟨fun htag => ?_, r, sent, hhandle, hr.alive, fun j hj => turns_find cfg hr hd hj⟩
  rcases hm with hm | happe
  · obtain ⟨hfound, hmissing⟩ := h.newest hc
    rw [hm.prevIndex, h.lastLogIndex]
    exact ⟨⟨_, hfound⟩, hmissing⟩
  · have h3 : msg.tag = 3 := htag
    have h5 : msg.tag = 5 := happe
    omega

/-- A follower that has handled the messages `ms`. -/
def Handled (i : Nat) (ms : List SmltMsg) (s : Done) : Prop :=
  ∃ c, c ≤ (appended ms).length ∧ Following s.1 i ((appended ms).map SmltMsg.command) c c ∧
    s.2.filterMap execOf = ((appended ms).take c).map SmltMsg.command

variable (cfg) in
theorem handled_start {i : Nat} (hi : i ≠ 0) : Handled i [] (start cfg i) :=
  ⟨0, le_rfl, following_init hi, rfl⟩

variable (cfg) in
/-- One message. -/
theorem receive_step {ms : List SmltMsg} {s : Done} (h : Handled i ms s)
    (hm : FromLeader s.1 msg) :
    ∃ s', receive cfg s msg = some s' ∧ Handled i (ms ++ [msg]) s' ∧
      Progressed cfg ms msg s s' := by
  obtain ⟨c, hc, hf, hexec⟩ := h
  rw [← List.length_map (f := SmltMsg.command)] at hc
  obtain ⟨r, sent, d, hhandle, hr, hcd, hd, hsent⟩ := handler_enters cfg hf hc hm
  rw [← List.map_append, ← appended_append] at hr hd
  obtain ⟨l', hupdate, hl'⟩ := updateAppliedEntries_follower cfg hr hcd hd
  have hloop := messageHandlerLoop_follower cfg hf.waits hl'.waits
    (hhandle.trans (andThen_eq hr.alive _ hupdate sent))
  have htake : (appended ms).take c = (appended (ms ++ [msg])).take c := by
    rw [List.length_map] at hc
    rw [appended_append, List.take_append_of_le_length hc]
  have hall : (s.2 ++ (messageHandlerLoop cfg s.1 msg).2).filterMap execOf =
      ((appended (ms ++ [msg])).take d).map SmltMsg.command := by
    have hsum : d = c + (d - c) := by omega
    have hexecs : ∀ cs : List Command, (cs.map Output.exec : List Out).filterMap execOf = cs := by
      intro cs
      rw [List.filterMap_map]
      exact List.filterMap_some
    rw [hloop, List.filterMap_append, List.filterMap_append, hsent, List.nil_append, hexecs,
      hexec, htake, List.map_take, List.map_take]
    conv_rhs => rw [hsum]
    rw [List.take_add]
  rw [List.length_map] at hd
  refine ⟨((messageHandlerLoop cfg s.1 msg).1, s.2 ++ (messageHandlerLoop cfg s.1 msg).2),
    ?_, ⟨d, hd, ?_, hall⟩, ?_⟩
  · rw [receive, hf.alive, if_neg Bool.false_ne_true]
  · rw [hloop]
    exact hl'
  · have hfinds := handler_finds cfg hf hc hm hhandle hr (by rwa [List.length_map])
    have hlen := hl'.lastLogIndex
    rw [List.length_map] at hlen
    constructor
    · rw [hloop]
      exact hl'.alive
    · rw [hloop]
      exact hl'.lastApplied.trans hl'.commitIndex.symm
    · rw [hloop, hl'.commitIndex, hlen]
      exact hd
    · rw [hloop, hl'.lastApplied, hf.lastApplied]
      exact hcd
    · rw [hloop, hl'.commitIndex, hf.commitIndex]
      exact hcd
    · rw [hloop, hlen, hf.lastLogIndex, List.length_map, appended_append, List.length_append]
      exact Nat.le_add_right _ _
    · rw [hloop, hlen]
    · rw [executedPayloads, hall, hloop, hl'.lastApplied, List.map_map]
      rfl
    · exact hfinds

end Messages

/-- After every message of every run. -/
theorem run_handled (id : Nat) (hid : id ≠ 0) (ms : List SmltMsg)
    (h : Guarded (receive cfg) (fun s msg => FromLeader s.1 msg) (start cfg id) ms) :
    ∃ s, run (receive cfg) (start cfg id) ms = some s ∧ Handled id ms s := by
  induction ms using List.reverseRecOn with
  | nil => exact ⟨_, rfl, handled_start cfg hid⟩
  | append_singleton ms msg ih =>
    obtain ⟨s, hrun, hs⟩ := ih h.of_append
    have hm : FromLeader s.1 msg := h ms msg s (List.prefix_refl _) hrun
    obtain ⟨s', hstep, hs', -⟩ := receive_step cfg hs hm
    refine ⟨s', ?_, hs'⟩
    rw [run_snoc, hrun]
    exact hstep

/-- In every run of a follower from its start, every message leaves everything that is committed
executed, once and in the order of the log, and all the lookups on the way succeed. -/
theorem follower_progress (cfg : Config) (id : Nat) (hid : id ≠ 0) (ms : List SmltMsg)
    (msg : SmltMsg)
    (h : Guarded (receive cfg) (fun s msg => FromLeader s.1 msg) (start cfg id) (ms ++ [msg])) :
    ∃ s s', run (receive cfg) (start cfg id) ms = some s ∧ receive cfg s msg = some s' ∧
      Progressed cfg ms msg s s' := by
  obtain ⟨s, hrun, hs⟩ := run_handled id hid ms h.of_append
  have hm : FromLeader s.1 msg := h ms msg s (List.prefix_refl _) hrun
  obtain ⟨s', hstep, -, hprogress⟩ := receive_step cfg hs hm
  exact ⟨s, s', hrun, hstep, hprogress⟩

section Jump

private def append (index : Nat) : SmltMsg :=
  SmltMsg.withTag ⟨0, 1, index, 0, index, index, index⟩ RAFT_APP

private def commitThree : SmltMsg := SmltMsg.withTag ⟨0, 3, 0, 0, 0, 0, 0⟩ RAFT_APPE

private theorem append_from {l : RaftReplicaT} {index : Nat} (h : l.lastLogIndex = index) :
    FromLeader l (append index) := by
  have hleader : getTag 1 % 2 ^ 8 = 0 := by decide
  exact .inl ⟨SmltMsg.tag_withTag _ _, rfl, hleader, h.symm⟩

/-- Three entries that one message commits. -/
theorem follower_progress_jump : ∃ s s',
    receive Config.twoNodes s commitThree = some s' ∧ s'.1.lastApplied = 3 ∧
      Progressed Config.twoNodes [append 0, append 1, append 2] commitThree s s' := by
  have hguard : Guarded (receive Config.twoNodes) (fun s msg => FromLeader s.1 msg)
      (start Config.twoNodes 1) [append 0, append 1, append 2, commitThree] :=
    .cons (append_from rfl) rfl <| .cons (append_from rfl) rfl <| .cons (append_from rfl) rfl <|
      .cons (.inr (SmltMsg.tag_withTag _ _)) rfl (guarded_nil _ _)
  obtain ⟨s, s', hrun, hstep, hprogress⟩ := follower_progress Config.twoNodes 1 (by decide)
    [append 0, append 1, append 2] commitThree hguard
  refine ⟨s, s', hstep, ?_, hprogress⟩
  obtain rfl := Option.some.inj hrun
  obtain rfl := Option.some.inj hstep
  rfl

end Jump

end SmeltConsensus.Raft.Progress
