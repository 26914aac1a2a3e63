import SmeltConsensus.Raft.Follower

/-!
A follower whose log is not at the entry before the new one.

The loop that deletes the entries from the new one on ends at the last entry,
which has no neighbour that `remove_entry` could link. So a RAFT_APP message can
only be taken at the end of the log.
-/

set_option autoImplicit false
set_option relaxedAutoImplicit false

namespace SmeltConsensus.Raft.Conflict

open SmeltConsensus.Foundation.Network
open SmeltConsensus.Foundation.LinkedHeap
open SmeltConsensus.Message.Header
open SmeltConsensus.Cluster.Parties
open SmeltConsensus.Raft.LogQueue
open SmeltConsensus.Raft.Replica
open SmeltConsensus.Raft.Log
open SmeltConsensus.Raft.Follower

section Deleting

variable {heap : LogHeap} {queue : LogQueueT} {xs ys : List Nat}

/-- The loop does not get past the last entry. -/
theorem removeFollowing_eq_none (fuel : Nat) {k : Nat} (h : Linked heap queue (xs ++ ys))
    (hxs : ∀ a ∈ xs, ∀ j, k ≤ j → indexAt heap a ≠ some j) (hys : ys ≠ [])
    (hindices : ys.map (indexAt heap) = (List.range' k ys.length).map some) :
    removeFollowing fuel heap queue k = none := by
  induction fuel generalizing heap ys k with
  | zero => rfl
  | succ fuel ih =>
    obtain ⟨y, zs, rfl⟩ := List.exists_cons_of_ne_nil hys
    rw [List.length_cons, List.range'_succ, List.map_cons, List.map_cons, List.cons.injEq] at hindices
    obtain ⟨hy, hzs⟩ := hindices
    have hfound := h.queueContains_append (fun b hb => hxs b hb k le_rfl) hy
    rw [removeFollowing]
    by_cases hend : xs = [] ∨ zs = []
    · rw [h.removeEntry_eq_none hend hfound, Option.bind_none]
    · obtain ⟨hxs', hzs'⟩ := not_or.mp hend
      obtain ⟨heap', hremove, hlinked, -, hval, -⟩ := h.removeEntry hxs' hzs' hfound
      have hindex : indexAt heap' = indexAt heap := by
        funext a
        rw [indexAt, hval, indexAt]
      rw [hremove, Option.bind_some]
      apply ih hlinked _ hzs'
      · rw [hindex]
        exact hzs
      · intro a ha j hj
        rw [hindex]
        exact hxs a ha j (by omega)

end Deleting

/-- Some entry among `as` has the index. -/
def Has (heap : LogHeap) (as : List Nat) (index : Nat) : Prop :=
  ∃ a ∈ as, indexAt heap a = some index

section Lookups

variable {heap : LogHeap} {queue : LogQueueT} {as : List Nat} {index : Nat}

/-- A lookup of an index that is there. -/
theorem Has.found (hhas : Has heap as index) (h : Linked heap queue as) :
    ∃ l a m e, as = l ++ a :: m ∧ queueContains heap queue index = some (some a) ∧
      heap.val a = some e := by
  obtain ⟨b, hb, hindex⟩ := hhas
  obtain ⟨a, hfind⟩ : ∃ a, as.find? (fun a => indexAt heap a == some index) = some a := by
    rw [← Option.isSome_iff_exists, List.find?_isSome]
    exact ⟨b, hb, beq_iff_eq.mpr hindex⟩
  obtain ⟨ha, l, m, rfl, hl⟩ := List.find?_eq_some_iff_append.mp hfind
  have hindex : indexAt heap a = some index := beq_iff_eq.mp ha
  obtain ⟨e, he, -⟩ := Option.map_eq_some_iff.mp hindex
  refine ⟨l, a, m, e, rfl, h.queueContains_append (fun b hb heq => ?_) hindex, he⟩
  have hne := hl b hb
  rw [heq] at hne
  simp at hne

/-- A lookup of an index that is not there. -/
theorem not_found (hhas : ¬ Has heap as index) (h : Linked heap queue as) :
    queueContains heap queue index = some none :=
  h.queueContains_eq_none fun b hb heq => hhas ⟨b, hb, heq⟩

theorem has_congr {heap' : LogHeap} (hval : heap'.val = heap.val) :
    Has heap' as index ↔ Has heap as index := by
  simp only [Has, indexAt, hval]

/-- The indices of a log are those from the first to the last. -/
theorem has_iff {first last : Nat} (h : HoldsFrom heap queue as first last) :
    Has heap as index ↔ first ≤ index ∧ index ≤ last := by
  have hmem : Has heap as index ↔ some index ∈ as.map (indexAt heap) := by
    rw [List.mem_map]
    rfl
  have hle := h.le
  rw [hmem, h.indices, List.mem_map]
  simp only [List.mem_range'_1, Option.some.injEq, exists_eq_right]
  omega

end Lookups

section Applying

variable {r : RaftReplicaT} {bs : List Nat}

/-- What a follower has to find to execute entry `j` and to drop none. -/
def Keeps (heap : LogHeap) (as : List Nat) (j : Nat) : Prop :=
  Has heap as j ∧ (j > 2 → ¬ Has heap as (j - 2))

theorem removeExecuted_keeps (h : Linked r.heap r.queue bs)
    (hold : r.lastApplied > 2 → ¬ Has r.heap bs (r.lastApplied - 2)) :
    removeExecuted r = some r.heap := by
  by_cases hgt : r.lastApplied > 2
  · rw [removeExecuted, if_pos hgt, removeEntry, not_found (hold hgt) h]
    rfl
  · rw [removeExecuted, if_neg hgt]

/-- A follower that drops an entry has one less, if it survives that. -/
theorem removeExecuted_drops (h : Linked r.heap r.queue bs) (hgt : r.lastApplied > 2)
    (hhas : Has r.heap bs (r.lastApplied - 2)) :
    removeExecuted r = none ∨ ∃ heap cs, removeExecuted r = some heap ∧
      Linked heap r.queue cs ∧ cs.Sublist bs ∧ cs.length < bs.length ∧
      heap.val = r.heap.val := by
  obtain ⟨l, a, m, e, rfl, hfound, -⟩ := hhas.found h
  rw [removeExecuted, if_pos hgt]
  by_cases hend : l = [] ∨ m = []
  · left
    rw [h.removeEntry_eq_none hend hfound, Option.bind_none]
  · right
    obtain ⟨hl, hm⟩ := not_or.mp hend
    obtain ⟨heap₁, hremove, hlinked₁, -, hval₁, hcell₁⟩ := h.removeEntry hl hm hfound
    obtain ⟨node, hnode, hlive⟩ := h.seg.live (List.mem_append_right l List.mem_cons_self)
    have hout : a ∉ l ++ m := (List.nodup_cons.mp (List.perm_middle.nodup_iff.mp h.nodup)).1
    obtain ⟨heap₂, hfree, hlinked₂, -, hval₂⟩ :=
      hlinked₁.free hout (hcell₁.trans hnode) hlive
    refine ⟨heap₂, l ++ m, ?_, hlinked₂, (List.Sublist.refl l).append (List.sublist_cons_self a m),
      ?_, hval₂.trans hval₁⟩
    · rw [hremove, Option.bind_some]
      exact hfree
    · rw [List.length_append, List.length_append, List.length_cons]
      omega

variable (cfg : Config)

theorem applyNext_keeps (hid : r.id ≠ r.currentLeader) (h : Linked r.heap r.queue bs)
    (hkeeps : Keeps r.heap bs (r.lastApplied + 1)) :
    ∃ outs, applyNext cfg r = ({ r with lastApplied := r.lastApplied + 1 }, outs) := by
  obtain ⟨-, a, -, e, -, hfound, he⟩ := hkeeps.1.found h
  have hremove := removeExecuted_keeps (r := { r with lastApplied := r.lastApplied + 1 }) h hkeeps.2
  refine ⟨[.exec e.command], ?_⟩
  rw [applyNext_eq cfg hid hfound he, hremove]
  rfl

/-- One turn of a follower, from any queue. -/
theorem applyNext_shrinks (hid : r.id ≠ r.currentLeader) (h : Linked r.heap r.queue bs) :
    (applyNext cfg r).1.crashed = true ∨ ∃ heap cs outs,
      applyNext cfg r = ({ r with lastApplied := r.lastApplied + 1, heap := heap }, outs) ∧
        Linked heap r.queue cs ∧ cs.Sublist bs ∧ heap.val = r.heap.val ∧
        (cs.length = bs.length → Keeps r.heap bs (r.lastApplied + 1)) := by
  by_cases hhas : Has r.heap bs (r.lastApplied + 1)
  · by_cases hold : r.lastApplied + 1 > 2 ∧ Has r.heap bs (r.lastApplied + 1 - 2)
    · obtain ⟨-, a, -, e, -, hfound, he⟩ := hhas.found h
      rw [applyNext_eq cfg hid hfound he]
      rcases removeExecuted_drops (r := { r with lastApplied := r.lastApplied + 1 }) h hold.1
        hold.2 with hnone | ⟨heap, cs, hsome, hlinked, hsub, hlt, hval⟩
      · left
        rw [hnone]
        rfl
      · right
        rw [hsome]
        exact ⟨heap, cs, _, rfl, hlinked, hsub, hval, fun hlen => absurd hlen (Nat.ne_of_lt hlt)⟩
    · right
      have hkeeps : Keeps r.heap bs (r.lastApplied + 1) := ⟨hhas, fun hgt hh => hold ⟨hgt, hh⟩⟩
      obtain ⟨outs, heq⟩ := applyNext_keeps cfg hid h hkeeps
      exact ⟨r.heap, bs, outs, heq, h, List.Sublist.refl _, rfl, fun _ => hkeeps⟩
  · left
    rw [applyNext]
    dsimp only
    rw [not_found hhas h]
    rfl

theorem applyEntries_keeps (turns : Nat) (hid : r.id ≠ r.currentLeader) (halive : r.crashed = false)
    (h : Linked r.heap r.queue bs)
    (hkeeps : ∀ j, r.lastApplied < j → j ≤ r.lastApplied + turns → Keeps r.heap bs j) :
    ∃ outs, applyEntries cfg turns r =
      ({ r with lastApplied := r.lastApplied + turns }, outs) := by
  induction turns generalizing r with
  | zero => exact ⟨[], rfl⟩
  | succ turns ih =>
    obtain ⟨outs, hnext⟩ := applyNext_keeps cfg hid h (hkeeps _ (by omega) (by omega))
    obtain ⟨outs', hrest⟩ := ih (r := { r with lastApplied := r.lastApplied + 1 }) hid halive h
      fun j hj hle => hkeeps j (Nat.lt_of_succ_lt hj) (by
        have hle' : j ≤ r.lastApplied + 1 + turns := hle
        omega)
    have halive₁ : RaftReplicaT.crashed { r with lastApplied := r.lastApplied + 1 } = false := halive
    have hsum : r.lastApplied + 1 + turns = r.lastApplied + (turns + 1) := by omega
    refine ⟨outs ++ outs', ?_⟩
    rw [applyEntries, hnext, andThen_eq halive₁ _ hrest]
    dsimp only
    rw [hsum]

/-- The loop of `update_applied_entries` of a follower, from any queue: nothing is dropped only
if every turn finds its entry and drops none. -/
theorem applyEntries_shrinks (turns : Nat) (hid : r.id ≠ r.currentLeader)
    (halive : r.crashed = false) (h : Linked r.heap r.queue bs) :
    (applyEntries cfg turns r).1.crashed = true ∨
      ∃ cs, Linked (applyEntries cfg turns r).1.heap (applyEntries cfg turns r).1.queue cs ∧
        cs.Sublist bs ∧ (cs.length = bs.length →
          ∀ j, r.lastApplied < j → j ≤ r.lastApplied + turns → Keeps r.heap bs j) := by
  induction turns generalizing r bs with
  | zero => exact .inr ⟨bs, h, List.Sublist.refl _, fun _ j hj hle => by omega⟩
  | succ turns ih =>
    rcases applyNext_shrinks cfg hid h with hcrash | ⟨heap, cs, outs, hnext, hlinked, hsub, hval, hfirst⟩
    · left
      rw [applyEntries, andThen, if_pos hcrash]
      exact hcrash
    · have hstep : (applyEntries cfg (turns + 1) r).1 =
          (applyEntries cfg turns { r with lastApplied := r.lastApplied + 1, heap := heap }).1 := by
        have halive₁ : RaftReplicaT.crashed
            { r with lastApplied := r.lastApplied + 1, heap := heap } = false := halive
        rw [applyEntries, hnext, andThen_eq halive₁ _ rfl]
      rw [hstep]
      rcases ih (r := { r with lastApplied := r.lastApplied + 1, heap := heap }) hid halive hlinked
        with hcrash | ⟨ds, hlinked', hsub', hrest⟩
      · exact .inl hcrash
      · refine .inr ⟨ds, hlinked', hsub'.trans hsub, fun hlen j hj hle => ?_⟩
        have hlen₁ := hsub'.length_le
        have hlen₂ := hsub.length_le
        obtain rfl := hsub.eq_of_length (by omega)
        rcases Nat.lt_or_eq_of_le (Nat.succ_le_of_lt hj) with hlt | heq
        · have hkeeps := hrest (by omega) j hlt (by
            show j ≤ r.lastApplied + 1 + turns
            omega)
          rw [Keeps, has_congr hval, has_congr hval] at hkeeps
          exact hkeeps
        · rw [← heq]
          exact hfirst rfl

end Applying

/-- A follower that holds the entries from `first` on gets a RAFT_APP message of its term from
its leader, and has the entry before the new one. -/
structure Arrives (l : RaftReplicaT) (as : List Nat) (first : Nat) (msg : SmltMsg) : Prop where
  follower : l.id ≠ l.currentLeader
  alive : l.crashed = false
  log : HoldsFrom l.heap l.queue as first l.lastLogIndex
  tag : msg.tag = RAFT_APP
  term : getRequestId msg.data1 = l.currentTerm
  leader : getTag msg.data1 % 2 ^ 8 = l.currentLeader
  first_le : first ≤ msg.data2
  le_last : msg.data2 ≤ l.lastLogIndex

/-- The addresses of the entries up to an index. -/
def upTo (heap : LogHeap) (as : List Nat) (index : Nat) : List Nat :=
  as.filter fun a => (heap.val a).any fun e => decide (e.index ≤ index)

/-- What `handle_append` did with the message. -/
structure Replaced (cfg : Config) (l : RaftReplicaT) (as : List Nat) (msg : SmltMsg) : Prop where
  alive : (handleAppend cfg { l with message := msg } .message).1.crashed = false
  /-- From the head on are the old entries up to the previous one, and then the new entry. -/
  log : ∃ a e,
    Heap.Visits Node.next (handleAppend cfg { l with message := msg } .message).1.heap
        (handleAppend cfg { l with message := msg } .message).1.queue.head
        (upTo l.heap as msg.data2 ++ [a]) ∧
      (handleAppend cfg { l with message := msg } .message).1.queue.tail = some a ∧
      (∀ b ∈ upTo l.heap as msg.data2,
        (handleAppend cfg { l with message := msg } .message).1.heap.val b = l.heap.val b) ∧
      (handleAppend cfg { l with message := msg } .message).1.heap.val a = some e ∧
      e.index = msg.data2 + 1 ∧ e.payload = msg.payload
  lastLogIndex :
    (handleAppend cfg { l with message := msg } .message).1.lastLogIndex = msg.data2 + 1
  reply : ∃ m, .send (.replica l.currentLeader) m ∈
      (handleAppend cfg { l with message := msg } .message).2 ∧
    m.tag = RAFT_APPR ∧ m.data2 = msg.data2 + 1 ∧ m.data4 = 1

/-- The new entry comes after the last one, and none of the entries that the message commits
makes the follower drop one. -/
def TakenAtEnd (l : RaftReplicaT) (first : Nat) (msg : SmltMsg) : Prop :=
  msg.data2 = l.lastLogIndex ∧
    ∀ j, l.lastApplied < j → j ≤ commitAfter msg msg.data2 l.commitIndex →
      first ≤ j ∧ j ≤ msg.data2 + 1 ∧ (j > 2 → j < first + 2)

section Handling

variable {l r : RaftReplicaT} {as : List Nat} {first : Nat} {msg : SmltMsg}

/-- The replica differs from `l` in nothing that `handle_append` looks at after its checks. -/
structure SameLog (r l : RaftReplicaT) (msg : SmltMsg) : Prop where
  id : r.id = l.id
  currentTerm : r.currentTerm = l.currentTerm
  currentLeader : r.currentLeader = l.currentLeader
  commitIndex : r.commitIndex = l.commitIndex
  lastApplied : r.lastApplied = l.lastApplied
  lastLogIndex : r.lastLogIndex = l.lastLogIndex
  heap : r.heap = l.heap
  queue : r.queue = l.queue
  message : r.message = msg
  crashed : r.crashed = l.crashed

theorem sameLog_updateState (l : RaftReplicaT) (msg : SmltMsg) :
    SameLog (updateState { l with message := msg, electionTimeout := false } l.currentTerm
      l.currentLeader) l msg := by
  unfold updateState
  split <;> constructor <;> rfl

variable (cfg : Config)

/-- The checks of `handle_append` pass. -/
theorem handleAppend_current (h : Arrives l as first msg) : ∃ r, SameLog r l msg ∧
    handleAppend cfg { l with message := msg } .message =
      (deleteConflict r (msg.data2 + 1)).elim (r.crash []) fun heap =>
        andThen (appendEntry { r with heap := heap } .message l.currentTerm l.currentLeader)
          (updateAppliedEntries cfg) := by
  have hsame := sameLog_updateState l msg
  unfold handleAppend
  simp only [RaftReplicaT.msg, h.term, h.leader]
  generalize updateState { l with message := msg, electionTimeout := false } l.currentTerm
    l.currentLeader = r at hsame ⊢
  obtain ⟨-, a, -, -, -, hfound, -⟩ := ((has_iff h.log).mpr ⟨h.first_le, h.le_last⟩).found
    h.log.linked
  rw [← hsame.heap, ← hsame.queue] at hfound
  have hid : r.id ≠ l.currentLeader := by
    rw [hsame.id]
    exact h.follower
  have hterm : ¬ l.currentTerm < r.currentTerm := by
    rw [hsame.currentTerm]
    exact Nat.lt_irrefl _
  refine ⟨r, hsame, ?_⟩
  rw [if_pos hid, if_neg hterm, hfound]
  dsimp only
  cases deleteConflict r (msg.data2 + 1) <;> rfl

/-- A log is cut before any of its entries. -/
theorem holdsFrom_split {heap : LogHeap} {queue : LogQueueT} {last k : Nat}
    (h : HoldsFrom heap queue as first last) (hk : first ≤ k) (hlast : k ≤ last) :
    ∃ xs ys, as = xs ++ ys ∧ (∀ a ∈ xs, ∀ j, k ≤ j → indexAt heap a ≠ some j) ∧ ys ≠ [] ∧
      ys.map (indexAt heap) = (List.range' k ys.length).map some := by
  have hstart : first + (k - first) = k := by omega
  have hlen : last + 1 - first = k - first + (last + 1 - k) := by omega
  have hindices := h.indices
  rw [hlen, ← List.range'_append_1, hstart, List.map_append, List.map_eq_append_iff] at hindices
  obtain ⟨xs, ys, rfl, hxs, hys⟩ := hindices
  have hcount : ys.length = last + 1 - k := by
    have hmap := congrArg List.length hys
    rwa [List.length_map, List.length_map, List.length_range'] at hmap
  refine ⟨xs, ys, rfl, fun a ha j hj hindex => ?_, ?_, ?_⟩
  · have hmem : some j ∈ xs.map (indexAt heap) := hindex ▸ List.mem_map_of_mem ha
    rw [hxs] at hmem
    simp only [List.mem_map, List.mem_range'_1, Option.some.injEq, exists_eq_right] at hmem
    omega
  · rw [← List.length_pos_iff]
    omega
  · rw [hys, hcount]

/-- With an entry in the place of the new one the deletion fails. -/
theorem deleteConflict_eq_none (h : Arrives l as first msg) (hsame : SameLog r l msg)
    (hlt : msg.data2 < l.lastLogIndex) : deleteConflict r (msg.data2 + 1) = none := by
  have hfirst := h.first_le
  have hnext : Has l.heap as (msg.data2 + 1) := (has_iff h.log).mpr ⟨by omega, hlt⟩
  obtain ⟨-, a, -, -, -, hfound, -⟩ := hnext.found h.log.linked
  obtain ⟨xs, ys, rfl, hxs, hys, hindices⟩ := holdsFrom_split (k := msg.data2 + 1) h.log
    (by omega) hlt
  rw [deleteConflict, hsame.heap, hsame.queue, hfound, Option.bind_some]
  exact removeFollowing_eq_none _ h.log.linked hxs hys hindices

/-- Behind the last entry there is nothing to delete. -/
theorem deleteConflict_eq_some (h : Arrives l as first msg) (hsame : SameLog r l msg)
    (heq : msg.data2 = l.lastLogIndex) : deleteConflict r (msg.data2 + 1) = some r.heap := by
  have hhas : ¬ Has l.heap as (msg.data2 + 1) := fun hh => by
    have hle := ((has_iff h.log).mp hh).2
    omega
  rw [deleteConflict, hsame.heap, hsame.queue, not_found hhas h.log.linked, Option.bind_some]

/-- The message is answered, and the new entry is the last one. -/
structure Appended (r l : RaftReplicaT) (as : List Nat) (first : Nat) (msg : SmltMsg) : Prop where
  follower : r.id ≠ r.currentLeader
  alive : r.crashed = false
  log : HoldsFrom r.heap r.queue (as ++ [l.heap.fresh]) first (msg.data2 + 1)
  new : ∃ e, r.heap.val = Function.update l.heap.val l.heap.fresh (some e) ∧
    e.index = msg.data2 + 1 ∧ e.payload = msg.payload
  fresh : l.heap.fresh ∉ as
  lastApplied : r.lastApplied = l.lastApplied
  commitIndex : r.commitIndex = commitAfter msg msg.data2 l.commitIndex
  lastLogIndex : r.lastLogIndex = msg.data2 + 1

/-- A message at the end of the log. -/
theorem handleAppend_end (h : Arrives l as first msg) (heq : msg.data2 = l.lastLogIndex) :
    ∃ r m, Appended r l as first msg ∧ m.tag = RAFT_APPR ∧ m.data2 = msg.data2 + 1 ∧ m.data4 = 1 ∧
      handleAppend cfg { l with message := msg } .message =
        andThen (r, [.send (.replica l.currentLeader) m]) (updateAppliedEntries cfg) := by
  obtain ⟨r, hsame, hhandle⟩ := handleAppend_current cfg h
  have hlog := h.log
  rw [← heq] at hlog
  obtain ⟨heap, queue, henqueue, hlog', hval, hfresh⟩ := hlog.push
    (e := ⟨0, msg.data2 + 1, l.currentTerm, setTag msg.data0 RAFT_APPR, msg.payload⟩) rfl
  obtain ⟨r', hr'⟩ : ∃ r', r' = { r with
      heap := heap
      queue := queue
      lastLogIndex := msg.data2 + 1
      commitIndex := commitAfter msg msg.data2 r.commitIndex
      message := answer r msg (msg.data2 + 1) 1 } := ⟨_, rfl⟩
  have happend : appendEntry { r with heap := r.heap } .message l.currentTerm l.currentLeader =
      (r', [.send (.replica l.currentLeader) (answer r msg (msg.data2 + 1) 1)]) := by
    rw [hr']
    unfold appendEntry
    simp only [RaftReplicaT.msg, hsame.message, hsame.heap, hsame.queue, henqueue, commitAfter,
      RaftReplicaT.setMsg, answer]
  have htag : (answer r msg (msg.data2 + 1) 1).tag = RAFT_APPR := SmltMsg.tag_withTag _ _
  rw [deleteConflict_eq_some h hsame heq, Option.elim_some, happend] at hhandle
  refine ⟨r', _, ?_, htag, rfl, rfl, hhandle⟩
  subst hr'
  refine ⟨?_, hsame.crashed.trans h.alive, hlog', ⟨_, hval, rfl, rfl⟩, hfresh,
    hsame.lastApplied, ?_, rfl⟩
  · show r.id ≠ r.currentLeader
    rw [hsame.id, hsame.currentLeader]
    exact h.follower
  · show commitAfter msg msg.data2 r.commitIndex = _
    rw [hsame.commitIndex]

variable {cfg}

theorem upTo_eq_self (h : Arrives l as first msg) (heq : msg.data2 = l.lastLogIndex) :
    upTo l.heap as msg.data2 = as := by
  refine List.filter_eq_self.mpr fun a ha => ?_
  have hmem : indexAt l.heap a ∈ as.map (indexAt l.heap) := List.mem_map_of_mem ha
  rw [h.log.indices] at hmem
  obtain ⟨j, hj, hindex⟩ := List.mem_map.mp hmem
  obtain ⟨e, he, rfl⟩ := Option.map_eq_some_iff.mp hindex.symm
  rw [List.mem_range'_1] at hj
  rw [he]
  exact decide_eq_true (by omega)

/-- The condition on the entries that the message commits, in terms of the log. -/
theorem keeps_iff (hr : Appended r l as first msg) (j : Nat) :
    Keeps r.heap (as ++ [l.heap.fresh]) j ↔
      first ≤ j ∧ j ≤ msg.data2 + 1 ∧ (j > 2 → j < first + 2) := by
  have hle := hr.log.le
  rw [Keeps, has_iff hr.log, has_iff hr.log]
  constructor
  · rintro ⟨⟨h1, h2⟩, h3⟩
    refine ⟨h1, h2, fun hgt => ?_⟩
    have hnot := h3 hgt
    omega
  · rintro ⟨h1, h2, h3⟩
    refine ⟨⟨h1, h2⟩, fun hgt hold => ?_⟩
    have hlt := h3 hgt
    omega

theorem takenAtEnd_of_replaced (h : Arrives l as first msg) (hdone : Replaced cfg l as msg) :
    TakenAtEnd l first msg := by
  rcases Nat.lt_or_eq_of_le h.le_last with hlt | heq
  · -- the handler does not return
    obtain ⟨r, hsame, hhandle⟩ := handleAppend_current cfg h
    have halive := hdone.alive
    rw [hhandle, deleteConflict_eq_none h hsame hlt] at halive
    cases halive
  · refine ⟨heq, ?_⟩
    obtain ⟨r, m, hr, -, -, -, hhandle⟩ := handleAppend_end cfg h heq
    have hfst : (handleAppend cfg { l with message := msg } .message).1 =
        (updateAppliedEntries cfg r).1 := by
      rw [hhandle, andThen, hr.alive, if_neg Bool.false_ne_true]
    have halive := hdone.alive
    obtain ⟨a, e, hvisits, -⟩ := hdone.log
    rw [hfst, updateAppliedEntries] at halive hvisits
    rcases applyEntries_shrinks cfg (r.commitIndex - r.lastApplied) hr.follower hr.alive
      hr.log.linked with hcrash | ⟨cs, hlinked, -, hkeeps⟩
    · rw [hcrash] at halive
      cases halive
    · have hcs : cs = upTo l.heap as msg.data2 ++ [a] := by
        have hcsvisits := hlinked.seg.visits_next
        rw [← hlinked.head] at hcsvisits
        exact hcsvisits.unique hvisits
      have hlen : cs.length = (as ++ [l.heap.fresh]).length := by
        rw [hcs, upTo_eq_self h heq, List.length_append, List.length_append, List.length_singleton,
          List.length_singleton]
      intro j hj hle
      rw [← keeps_iff hr j]
      rw [← hr.lastApplied] at hj
      rw [← hr.commitIndex] at hle
      exact hkeeps hlen j hj (by omega)

theorem replaced_of_takenAtEnd (h : Arrives l as first msg) (hend : TakenAtEnd l first msg) :
    Replaced cfg l as msg := by
  obtain ⟨heq, hcommits⟩ := hend
  obtain ⟨r, m, hr, htag, hindex, hsuccess, hhandle⟩ := handleAppend_end cfg h heq
  obtain ⟨outs, happly⟩ := applyEntries_keeps cfg (r.commitIndex - r.lastApplied) hr.follower
    hr.alive hr.log.linked fun j hj hle => by
      rw [hr.lastApplied] at hj hle
      rw [hr.commitIndex] at hle
      exact (keeps_iff hr j).mpr (hcommits j hj (by omega))
  rw [← updateAppliedEntries] at happly
  have hdone := hhandle.trans (andThen_eq hr.alive _ happly _)
  obtain ⟨e, hval, heindex, hpayload⟩ := hr.new
  constructor
  · rw [hdone]
    exact hr.alive
  · refine ⟨l.heap.fresh, e, ?_, ?_, ?_, ?_, heindex, hpayload⟩
    · rw [hdone, upTo_eq_self h heq]
      have hvisits := hr.log.linked.seg.visits_next
      rw [← hr.log.linked.head] at hvisits
      exact hvisits
    · rw [hdone]
      exact hr.log.linked.tail.trans List.getLast?_concat
    · intro b hb
      rw [upTo_eq_self h heq] at hb
      rw [hdone]
      show r.heap.val b = l.heap.val b
      rw [hval, Function.update_of_ne (ne_of_mem_of_not_mem hb hr.fresh)]
    · rw [hdone]
      show r.heap.val l.heap.fresh = some e
      rw [hval, Function.update_self]
  · rw [hdone]
    exact hr.lastLogIndex
  · rw [hdone]
    exact ⟨m, List.mem_cons_self, htag, hindex, hsuccess⟩

end Handling

/-- A follower with the entry before the new one takes the new one as it should exactly if it
comes at the end of the log, and commits nothing that makes the follower drop an entry. -/
theorem conflict_replaced_iff (cfg : Config) (l : RaftReplicaT) (as : List Nat) (first : Nat)
    (msg : SmltMsg) (h : Arrives l as first msg) :
    Replaced cfg l as msg ↔ TakenAtEnd l first msg :=
  ⟨takenAtEnd_of_replaced h, replaced_of_takenAtEnd h⟩

section FirstEntry

/-- The first entry, with nothing committed. -/
private def firstAppend : SmltMsg := SmltMsg.withTag ⟨0, 1, 0, 0, 7, 7, 7⟩ RAFT_APP

private theorem firstAppend_isAppend : IsAppend firstAppend 0 :=
  ⟨SmltMsg.tag_withTag _ _, rfl, by decide, rfl, rfl⟩

/-- An entry at the end of a log of `index` entries, all of which are committed. -/
private def laterAppend (index : Nat) : SmltMsg :=
  SmltMsg.withTag ⟨0, 1, index, index, 8, 8, 8⟩ RAFT_APP

private theorem laterAppend_isAppend (index : Nat) : IsAppend (laterAppend index) index :=
  ⟨SmltMsg.tag_withTag _ _, firstAppend_isAppend.term, firstAppend_isAppend.leader, rfl, rfl⟩

/-- A follower that gets its third entry and with it the commit of its second. -/
theorem replaced_third : ∃ l,
    Following l 1 [firstAppend.command, (laterAppend 1).command] 1 1 ∧
      Replaced Config.twoNodes l [0, 1, 2] (laterAppend 2) ∧
      .exec (laterAppend 1).command ∈
        (handleAppend Config.twoNodes { l with message := laterAppend 2 } .message).2 := by
  have hinit : Following (initReplicaRaft Config.twoNodes 1) 1 [] 0 0 := following_init (by decide)
  obtain ⟨l₁, -, h₁⟩ := append_step Config.twoNodes hinit firstAppend_isAppend
  obtain ⟨l₂, -, h₂⟩ := append_step Config.twoNodes h₁ (laterAppend_isAppend 1)
  have hlast : l₂.lastLogIndex = 2 := h₂.lastLogIndex
  have hlog : HoldsFrom l₂.heap l₂.queue [0, 1, 2] 0 l₂.lastLogIndex := by
    rw [hlast]
    exact h₂.log.holdsFrom (by decide)
  have harrives : Arrives l₂ [0, 1, 2] 0 (laterAppend 2) :=
    ⟨h₂.ne_leader, h₂.alive, hlog, (laterAppend_isAppend 2).tag,
      (laterAppend_isAppend 2).term.trans h₂.term.symm,
      (laterAppend_isAppend 2).leader.trans h₂.leader.symm, Nat.zero_le _, by rw [hlast]; exact le_rfl⟩
  refine ⟨l₂, h₂, ?_, ?_⟩
  · apply (conflict_replaced_iff Config.twoNodes _ _ _ _ harrives).mpr
    refine ⟨hlast.symm, fun j hgt hle => ?_⟩
    rw [h₂.lastApplied] at hgt
    rw [h₂.commitIndex] at hle
    have hcommit : commitAfter (laterAppend 2) (laterAppend 2).data2 1 = 2 := rfl
    change j ≤ commitAfter (laterAppend 2) (laterAppend 2).data2 1 at hle
    change 1 < j at hgt
    change 0 ≤ j ∧ j ≤ 3 ∧ _
    omega
  · obtain ⟨r, hr, hhandle⟩ := handleAppend_eq Config.twoNodes h₂ (by decide)
      (laterAppend_isAppend 2).appends
    obtain ⟨l₃, hupdate, -⟩ := updateAppliedEntries_follower Config.twoNodes hr (by decide) (by decide)
    rw [hhandle, andThen_eq hr.alive _ hupdate]
    exact List.mem_append_right _ List.mem_cons_self

/-- A follower that gets its first entry twice. -/
theorem not_replaced_twice : ∃ l outs,
    messageHandlerLoop Config.twoNodes (initReplicaRaft Config.twoNodes 1) firstAppend =
        (l, outs) ∧
      Arrives l [0, 1] 0 firstAppend ∧ ¬ Replaced Config.twoNodes l [0, 1] firstAppend := by
  have hinit : Following (initReplicaRaft Config.twoNodes 1) 1 [] 0 0 := following_init (by decide)
  obtain ⟨l, hstep, hl⟩ := append_step Config.twoNodes hinit firstAppend_isAppend
  have hlast : l.lastLogIndex = 1 := hl.lastLogIndex
  have hlog : HoldsFrom l.heap l.queue [0, 1] 0 l.lastLogIndex := by
    rw [hlast]
    exact hl.log.holdsFrom (Nat.zero_le 2)
  have harrives : Arrives l [0, 1] 0 firstAppend :=
    ⟨hl.ne_leader, hl.alive, hlog, firstAppend_isAppend.tag,
      firstAppend_isAppend.term.trans hl.term.symm,
      firstAppend_isAppend.leader.trans hl.leader.symm, le_rfl, Nat.zero_le _⟩
  refine ⟨l, _, hstep, harrives, fun hdone => ?_⟩
  have hend := (takenAtEnd_of_replaced harrives hdone).1
  rw [hlast] at hend
  cases hend

end FirstEntry

end SmeltConsensus.Raft.Conflict
