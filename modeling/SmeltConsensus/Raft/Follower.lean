import SmeltConsensus.Raft.Log

/-! What a follower does with the next entry from the leader. -/

set_option autoImplicit false
set_option relaxedAutoImplicit false

namespace SmeltConsensus.Raft.Follower

open SmeltConsensus.Foundation.Network
open SmeltConsensus.Foundation.LinkedHeap
open SmeltConsensus.Message.Header
open SmeltConsensus.Cluster.Parties
open SmeltConsensus.Raft.LogQueue
open SmeltConsensus.Raft.Replica
open SmeltConsensus.Raft.Log

variable {cfg : Config}

section Applying

variable {r : RaftReplicaT} {c k : Nat}

variable (cfg) in
/-- The follower's branch of a turn whose entry is found. -/
theorem applyNext_eq (hid : r.id ≠ r.currentLeader) {ele : Nat} {e : LogEntry}
    (hfound : queueContains r.heap r.queue (r.lastApplied + 1) = some (some ele))
    (he : r.heap.val ele = some e) :
    applyNext cfg r = RaftReplicaT.withHeap { r with lastApplied := r.lastApplied + 1 }
      [.exec e.command] (removeExecuted { r with lastApplied := r.lastApplied + 1 }) := by
  rw [applyNext]
  dsimp only
  rw [hfound]
  dsimp only
  rw [he]
  dsimp only
  rw [if_neg hid]

variable (cfg) in
/-- A follower executes the entry after the last one applied. -/
theorem applyNext_follower (hid : r.id ≠ r.currentLeader) (hlog : LogAt r.heap r.queue c k)
    (hc : c + 1 ≤ k) (happlied : r.lastApplied = c) {e : LogEntry}
    (he : r.heap.val (c + 1) = some e) :
    ∃ heap, applyNext cfg r =
        ({ r with lastApplied := c + 1, heap := heap }, [.exec e.command]) ∧
      LogAt heap r.queue (c + 1) k ∧ heap.val = r.heap.val := by
  have hmem : c + 1 ∈ kept c k := mem_kept.mpr (by omega)
  have hfound := hlog.contains (c + 1)
  rw [if_pos hmem] at hfound
  obtain ⟨heap, hremove, hlog', hval⟩ :=
    hlog.remove hc { r with lastApplied := c + 1 } rfl rfl rfl
  refine ⟨heap, ?_, hlog', hval⟩
  rw [applyNext_eq cfg hid (happlied ▸ hfound) he, happlied, hremove]
  rfl

end Applying

/-- The acknowledgement of entry `index` by follower `i`, in the buffer of the request. -/
def replyMsg (i index : Nat) (msg : SmltMsg) : SmltMsg :=
  { msg.withTag RAFT_APPR with data1 := 1, data2 := index, data3 := i, data4 := 1 }

/-- A follower that has appended the commands `cs`, knows that `d` of them are committed
and has executed `c` of them. -/
structure Following (l : RaftReplicaT) (i : Nat) (cs : List Command) (c d : Nat) : Prop where
  id : l.id = i
  ne_zero : i ≠ 0
  term : l.currentTerm = 1
  leader : l.currentLeader = 0
  candidate : l.isCandidate = false
  alive : l.crashed = false
  waits : l.waits = []
  lastLogIndex : l.lastLogIndex = cs.length
  commitIndex : l.commitIndex = d
  lastApplied : l.lastApplied = c
  log : LogAt l.heap l.queue c cs.length
  commands : ∀ a, 1 ≤ a → a ≤ cs.length → (l.heap.val a).map LogEntry.command = cs[a - 1]?

theorem following_init {i : Nat} (h : i ≠ 0) : Following (initReplicaRaft cfg i) i [] 0 0 where
  id := rfl
  ne_zero := h
  term := rfl
  leader := rfl
  candidate := rfl
  alive := rfl
  waits := rfl
  lastLogIndex := rfl
  commitIndex := rfl
  lastApplied := rfl
  log := logAt_init
  commands a h1 h0 := by
    rw [List.length_nil] at h0
    omega

/-- The message is a RAFT_APP of the first leader that appends entry `index + 1`. -/
structure Appends (msg : SmltMsg) (index : Nat) : Prop where
  tag : msg.tag = RAFT_APP
  term : getRequestId msg.data1 = 1
  leader : getTag msg.data1 % 2 ^ 8 = 0
  prevIndex : msg.data2 = index

/-- The message appends entry `index + 1` and says that `index` entries are committed. -/
structure IsAppend (msg : SmltMsg) (index : Nat) : Prop where
  tag : msg.tag = RAFT_APP
  term : getRequestId msg.data1 = 1
  leader : getTag msg.data1 % 2 ^ 8 = 0
  prevIndex : msg.data2 = index
  commit : msg.data3 = index

theorem IsAppend.appends {msg : SmltMsg} {index : Nat} (h : IsAppend msg index) :
    Appends msg index := ⟨h.tag, h.term, h.leader, h.prevIndex⟩

section Appending

variable {l : RaftReplicaT} {i c d : Nat} {cs : List Command} {msg : SmltMsg}

/-- The commit index of a follower with `k` entries after a RAFT_APP message. -/
def commitAfter (msg : SmltMsg) (k d : Nat) : Nat :=
  if msg.data3 > d then min msg.data3 (k + 1) else d

theorem Following.ne_leader (h : Following l i cs c d) : l.id ≠ l.currentLeader := by
  rw [h.id, h.leader]
  exact h.ne_zero

/-- The newest entry is there and the one after it is not. -/
theorem Following.newest (h : Following l i cs c d) (hc : c ≤ cs.length) :
    queueContains l.heap l.queue cs.length = some (some cs.length) ∧
      queueContains l.heap l.queue (cs.length + 1) = some none := by
  have hprev : cs.length ∈ kept c cs.length := mem_kept.mpr (by omega)
  have hnext : cs.length + 1 ∉ kept c cs.length := fun hmem =>
    absurd (mem_kept.mp hmem) (by omega)
  have hfound := h.log.contains cs.length
  have hmissing := h.log.contains (cs.length + 1)
  rw [if_pos hprev] at hfound
  rw [if_neg hnext] at hmissing
  exact ⟨hfound, hmissing⟩

variable (cfg) in
/-- The checks of `handle_append` pass and the entry is appended. -/
theorem handleAppend_eq (h : Following l i cs c d) (hc : c ≤ cs.length)
    (hm : Appends msg cs.length) :
    ∃ r, Following r i (cs ++ [msg.command]) c (commitAfter msg cs.length d) ∧
      handleAppend cfg { l with message := msg } .message =
        andThen (r, [.send (.replica 0) (replyMsg i (cs.length + 1) msg)])
          (updateAppliedEntries cfg) := by
  obtain ⟨hfound, hmissing⟩ := h.newest hc
  obtain ⟨heap, queue, henqueue, hlog, hval⟩ := h.log.push (by omega)
    (e := ⟨0, cs.length + 1, 1, setTag msg.data0 RAFT_APPR, msg.payload⟩) rfl
  refine ⟨{ l with
    message := replyMsg i (cs.length + 1) msg
    electionTimeout := false
    heap := heap
    queue := queue
    lastLogIndex := cs.length + 1
    commitIndex := commitAfter msg cs.length d }, ?_, ?_⟩
  · refine ⟨h.id, h.ne_zero, h.term, h.leader, h.candidate, h.alive, h.waits, ?_, rfl,
      h.lastApplied, ?_, ?_⟩
    · rw [List.length_append, List.length_singleton]
    · rw [List.length_append, List.length_singleton]
      exact hlog
    · intro a h1 ha
      rw [List.length_append, List.length_singleton] at ha
      show (heap.val a).map LogEntry.command = _
      rw [hval]
      rcases Nat.lt_or_eq_of_le ha with hlt | rfl
      · rw [Function.update_of_ne (Nat.ne_of_lt hlt), h.commands a h1 (Nat.le_of_lt_succ hlt),
          List.getElem?_append_left (by omega)]
      · rw [Function.update_self, Nat.add_sub_cancel, List.getElem?_concat_length]
        simp [LogEntry.command, SmltMsg.command, SmltMsg.clientId, SmltMsg.requestId]
  · have hne : l.id ≠ 0 := h.id ▸ h.ne_zero
    have hterm : ∀ r : RaftReplicaT, r.currentTerm = l.currentTerm →
        r.isCandidate = l.isCandidate → updateState r 1 0 = r := fun r ht hc =>
      updateState_eq r (by rw [ht, h.term]) (hc.trans h.candidate) 0
    have hconflict : deleteConflict { l with message := msg, electionTimeout := false }
        (cs.length + 1) = some l.heap := by
      rw [deleteConflict, hmissing, Option.bind_some]
    have hold : ¬ 1 < l.currentTerm := by
      rw [h.term]
      decide
    unfold handleAppend
    simp only [RaftReplicaT.msg, hm.term, hm.leader, hm.prevIndex, hterm]
    rw [if_pos hne, if_neg hold, hfound]
    dsimp only
    rw [hconflict]
    dsimp only
    congr 1
    unfold appendEntry
    simp only [RaftReplicaT.msg, hm.prevIndex, henqueue, h.commitIndex, commitAfter,
      RaftReplicaT.setMsg, answer, h.term, h.id, replyMsg]

variable (cfg) in
/-- A follower that knows of a committed entry it has not executed executes it. -/
theorem applyNext_step (h : Following l i cs c d) (hc : c + 1 ≤ cs.length) :
    ∃ l', applyNext cfg l = (l', cs[c]?.toList.map .exec) ∧ Following l' i cs (c + 1) d := by
  obtain ⟨e, he, -⟩ := h.log.val_eq hc
  have hcmd := h.commands (c + 1) (Nat.le_add_left 1 c) hc
  rw [he, Option.map_some, Nat.add_sub_cancel] at hcmd
  obtain ⟨heap, hnext, hlog, hval⟩ :=
    applyNext_follower cfg h.ne_leader h.log hc h.lastApplied he
  refine ⟨{ l with lastApplied := c + 1, heap := heap }, ?_, h.id, h.ne_zero, h.term, h.leader,
    h.candidate, h.alive, h.waits, h.lastLogIndex, h.commitIndex, rfl, hlog, ?_⟩
  · rw [← hcmd]
    exact hnext
  · show ∀ a, 1 ≤ a → a ≤ cs.length → (heap.val a).map LogEntry.command = cs[a - 1]?
    rw [hval]
    exact h.commands

variable (cfg) in
/-- The loop of `update_applied_entries` executes the entries in order. -/
theorem applyEntries_follower (turns : Nat) (h : Following l i cs c d)
    (hle : c + turns ≤ cs.length) :
    ∃ l', applyEntries cfg turns l = (l', ((cs.drop c).take turns).map .exec) ∧
      Following l' i cs (c + turns) d := by
  induction turns generalizing l c with
  | zero => exact ⟨l, rfl, h⟩
  | succ turns ih =>
    obtain ⟨l₁, hnext, h₁⟩ := applyNext_step cfg h (by omega)
    obtain ⟨l', happly, h'⟩ := ih h₁ (by omega)
    have hlt : c < cs.length := by omega
    have hsum : c + 1 + turns = c + (turns + 1) := by omega
    refine ⟨l', ?_, hsum ▸ h'⟩
    rw [applyEntries, hnext, andThen_eq h₁.alive _ happly, List.drop_eq_getElem_cons hlt,
      List.take_succ_cons, List.getElem?_eq_getElem hlt]
    rfl

variable (cfg) in
/-- A follower executes everything it knows to be committed. -/
theorem updateAppliedEntries_follower (h : Following l i cs c d) (hcd : c ≤ d)
    (hd : d ≤ cs.length) :
    ∃ l', updateAppliedEntries cfg l = (l', ((cs.drop c).take (d - c)).map .exec) ∧
      Following l' i cs d d := by
  have hsum : c + (d - c) = d := by omega
  rw [updateAppliedEntries, h.commitIndex, h.lastApplied]
  obtain ⟨l', happly, h'⟩ := applyEntries_follower cfg (d - c) h (by omega)
  rw [hsum] at h'
  exact ⟨l', happly, h'⟩

variable (cfg) in
/-- A message that a follower handles while no handler is blocked. -/
theorem messageHandlerLoop_follower {l' : RaftReplicaT} {outs : List Out} (hl : l.waits = [])
    (hl' : l'.waits = [])
    (h : messageHandlerRaft cfg { l with message := msg } .message = (l', outs)) :
    messageHandlerLoop cfg l msg = (l', outs) := by
  have hwaits : { l' with waits := [] } = l' := by
    rw [← hl']
  rw [messageHandlerLoop_idle hl h, hl', settle, hwaits]

variable (cfg) in
theorem messageHandlerRaft_append (hm : msg.tag = RAFT_APP) :
    messageHandlerRaft cfg { l with message := msg } .message =
      handleAppend cfg { l with message := msg } .message := by
  have hmsg : msg.tag = 3 := hm
  simp [messageHandlerRaft, RaftReplicaT.msg, hmsg]

variable (cfg) in
/-- One message at a follower: it appends, answers, and executes the entry before. -/
theorem append_step (h : Following l i cs (cs.length - 1) (cs.length - 1))
    (hm : IsAppend msg cs.length) :
    ∃ l', messageHandlerLoop cfg l msg =
        (l', .send (.replica 0) (replyMsg i (cs.length + 1) msg) ::
          cs.getLast?.toList.map .exec) ∧
      Following l' i (cs ++ [msg.command]) cs.length cs.length := by
  obtain ⟨r, hr, hhandle⟩ := handleAppend_eq cfg h (Nat.sub_le _ _) hm.appends
  have hcommit : commitAfter msg cs.length (cs.length - 1) = cs.length := by
    rw [commitAfter, hm.commit]
    split_ifs <;> omega
  rw [hcommit] at hr
  obtain ⟨l', hupdate, hl'⟩ := updateAppliedEntries_follower cfg hr (Nat.sub_le _ _) (by simp)
  have hexec : ((cs ++ [msg.command]).drop (cs.length - 1)).take (cs.length - (cs.length - 1)) =
      cs.getLast?.toList := by
    rcases List.eq_nil_or_concat' cs with rfl | ⟨ds, d, rfl⟩
    · rfl
    · simp
  refine ⟨l', messageHandlerLoop_follower cfg h.waits hl'.waits ?_, hl'⟩
  rw [messageHandlerRaft_append cfg hm.tag, hhandle, andThen_eq hr.alive _ hupdate, hexec]
  rfl

end Appending

end SmeltConsensus.Raft.Follower
