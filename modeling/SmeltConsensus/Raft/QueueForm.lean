import SmeltConsensus.Foundation.Machine
import SmeltConsensus.Raft.LogQueue

/-!
The log queue under any sequence of its operations.

`remove_entry` maintains neither the ends nor the size of the queue and takes both
neighbours for granted, and `cleanup_queue` reads the link of the entry that it has
just freed. So the queue stays in form exactly as long as it only grows.
-/

set_option autoImplicit false
set_option relaxedAutoImplicit false

namespace SmeltConsensus.Raft.QueueForm

open SmeltConsensus.Foundation.Machine
open SmeltConsensus.Foundation.LinkedHeap
open SmeltConsensus.Raft.LogQueue

/-- The queue, and the addresses of the entries that were enqueued and not removed. -/
structure State where
  heap : LogHeap
  queue : LogQueueT
  entries : List Nat

/-- An operation. The links of a fresh entry are what `malloc` left there, and the execution
counts at a clean-up are what the handlers have made of them. -/
inductive Op
  | enqueue (e : LogEntry) (next prev : Option Nat)
  | remove (index : Nat)
  | cleanup (numReplicas commitIndex : Nat) (execCount : Nat → Nat)

def init : State := ⟨.empty, logQueueInit, []⟩

/-- The heap in which the entries have other execution counts. -/
def withCounts (heap : LogHeap) (execCount : Nat → Nat) : LogHeap :=
  heap.mapVal fun a e => { e with execCount := execCount a }

/-- One operation, or none where it follows a null or a freed pointer. -/
def step (s : State) : Op → Option State
  | .enqueue e next prev =>
    let (heap, ele) := s.heap.malloc e next prev
    (LogQueue.enqueue heap s.queue ele).map fun
      | (heap, queue) => ⟨heap, queue, s.entries ++ [ele]⟩
  | .remove index =>
    (removeEntry s.heap s.queue index).map fun
      | (heap, none) => { s with heap := heap }
      | (heap, some ele) => { s with heap := heap, entries := s.entries.erase ele }
  | .cleanup numReplicas commitIndex execCount =>
    let heap := withCounts s.heap execCount
    (heap.sweepLive (cleanable numReplicas commitIndex) heap.fresh s.queue.head).map fun swept =>
      { s with
        heap := swept
        entries := s.entries.filter fun a =>
          !(heap.val a).any (cleanable numReplicas commitIndex) }

/-- A clean-up here does what `cleanup_queue` does. -/
theorem cleanupQueue_of_live {heap heap' : LogHeap} {queue : LogQueueT}
    {numReplicas commitIndex : Nat}
    (h : heap.sweepLive (cleanable numReplicas commitIndex) heap.fresh queue.head = some heap') :
    cleanupQueue numReplicas commitIndex heap queue = some heap' := Heap.sweep_of_live h

/-- The queue and its entries agree. -/
structure WellFormed (s : State) : Prop where
  forward : Heap.Visits Node.next s.heap s.queue.head s.entries
  backward : Heap.Visits Node.prev s.heap s.queue.tail s.entries.reverse
  size : s.queue.size = s.entries.length
  head_null : s.queue.head = none ↔ s.entries = []
  tail_null : s.queue.tail = none ↔ s.entries = []

/-- Every operation returns and leaves the queue well formed. -/
def StaysWellFormed (ops : List Op) : Prop :=
  ∀ done, done <+: ops → ∃ s, run step init done = some s ∧ WellFormed s

/-- The operation takes nothing out of the queue; and the first entry of all comes without a
link to another. -/
def Grows (s : State) : Op → Prop
  | .enqueue _ _ prev => s.entries = [] → prev = none
  | .remove index => ∀ a ∈ s.entries, ∀ e, s.heap.val a = some e → e.index ≠ index
  | .cleanup numReplicas commitIndex execCount => ∀ a ∈ s.entries, ∀ e, s.heap.val a = some e →
    ¬ (execCount a = numReplicas ∧ e.index < pred64 commitIndex)

/-- What holds as long as the queue only grows. -/
structure Formed (s : State) : Prop where
  linked : Linked s.heap s.queue s.entries
  size : s.queue.size = s.entries.length

theorem formed_init : Formed init :=
  ⟨⟨trivial, List.nodup_nil, rfl, rfl, fun _ ha => (nomatch ha)⟩, rfl⟩

theorem Formed.wellFormed {s : State} (h : Formed s) : WellFormed s where
  forward := by
    rw [h.linked.head]
    exact h.linked.seg.visits_next
  backward := by
    rw [h.linked.tail]
    exact h.linked.seg.visits_prev
  size := h.size
  head_null := by rw [h.linked.head, List.head?_eq_none_iff]
  tail_null := by rw [h.linked.tail, List.getLast?_eq_none_iff]

section Steps

variable {s : State}

/-- Enqueueing into an empty queue only writes the fresh entry and the ends. -/
theorem step_enqueue_nil (h : Formed s) (hnil : s.entries = []) (e : LogEntry)
    (next prev : Option Nat) :
    step s (.enqueue e next prev) = some
      ⟨(s.heap.malloc e next prev).1.set s.heap.fresh ⟨e, none, prev, false⟩,
        ⟨s.queue.size + 1, some s.heap.fresh, some s.heap.fresh⟩, [s.heap.fresh]⟩ := by
  have hhead : s.queue.head = none := by rw [h.linked.head, hnil, List.head?_nil]
  have hwrite : (s.heap.malloc e next prev).1.setNext (some s.heap.fresh) none =
      some ((s.heap.malloc e next prev).1.set s.heap.fresh ⟨e, none, prev, false⟩) :=
    Heap.write_eq (Heap.malloc_cells _ _ _ _) rfl _
  show ((((s.heap.malloc e next prev).1.setNext (some s.heap.fresh) none).bind _).map _) = _
  rw [hwrite, Option.bind_some, hhead, hnil]
  rfl

theorem enqueue_formed (h : Formed s) {e : LogEntry} {next prev : Option Nat}
    (hprev : s.entries = [] → prev = none) :
    ∃ s', step s (.enqueue e next prev) = some s' ∧ Formed s' := by
  rcases eq_or_ne s.entries [] with hnil | hne
  · refine ⟨_, step_enqueue_nil h hnil e next prev, ⟨⟨⟨e, ?_⟩, trivial⟩, List.nodup_singleton _,
      rfl, rfl, ?_⟩, ?_⟩
    · rw [Heap.set_cells_self, hprev hnil]
      rfl
    · intro a ha
      rw [List.mem_singleton.mp ha]
      exact Nat.lt_succ_self _
    · show s.queue.size + 1 = 1
      rw [h.size, hnil, List.length_nil]
  · obtain ⟨hlinked, hfresh⟩ := h.linked.malloc e next prev
    obtain ⟨heap, queue, heq, hlinked', -, -, hsize⟩ :=
      hlinked.enqueue_new hne (Heap.malloc_cells _ _ _ _) hfresh (Nat.lt_succ_self _)
    refine ⟨⟨heap, queue, s.entries ++ [s.heap.fresh]⟩, ?_, hlinked', ?_⟩
    · show (LogQueue.enqueue (s.heap.malloc e next prev).1 s.queue s.heap.fresh).map _ = _
      rw [heq]
      rfl
    · rw [hsize, h.size, List.length_append, List.length_singleton]

theorem remove_formed (h : Formed s) {index : Nat}
    (hindex : ∀ a ∈ s.entries, ∀ e, s.heap.val a = some e → e.index ≠ index) :
    ∃ s', step s (.remove index) = some s' ∧ Formed s' := by
  have hnone : queueContains s.heap s.queue index = some none := by
    rw [h.linked.queueContains, Option.some.injEq, List.find?_eq_none]
    intro a ha hany
    obtain ⟨e, he, heq⟩ := (Option.any_eq_true _ _).mp hany
    exact hindex a ha e he (beq_iff_eq.mp heq)
  refine ⟨s, ?_, h⟩
  rw [step, removeEntry, hnone]
  rfl

/-- An entry that is found is taken out of a queue that keeps its size, if it can be unlinked. -/
theorem remove_found (h : Formed s) {index a : Nat} {e : LogEntry} (ha : a ∈ s.entries)
    (he : s.heap.val a = some e) (hindex : e.index = index) {s' : State}
    (hstep : step s (.remove index) = some s') :
    s'.queue = s.queue ∧ s'.entries.length + 1 = s.entries.length := by
  obtain ⟨b, hb⟩ : ∃ b, s.entries.find? (fun a => (s.heap.val a).any fun e => e.index == index) =
      some b := by
    rw [← Option.isSome_iff_exists, List.find?_isSome]
    exact ⟨a, ha, (Option.any_eq_true _ _).mpr ⟨e, he, beq_iff_eq.mpr hindex⟩⟩
  have hmem := List.mem_of_find?_eq_some hb
  have hfound := h.linked.queueContains index
  rw [hb] at hfound
  obtain ⟨⟨heap, r⟩, hremove, rfl⟩ := Option.map_eq_some_iff.mp hstep
  rw [removeEntry, hfound, Option.bind_some] at hremove
  obtain ⟨heap', -, heq⟩ := Option.map_eq_some_iff.mp hremove
  obtain ⟨rfl, rfl⟩ := Prod.mk.inj heq
  refine ⟨rfl, ?_⟩
  have hpos := List.length_pos_of_mem hmem
  show (s.entries.erase b).length + 1 = s.entries.length
  rw [List.length_erase_of_mem hmem]
  omega

/-- The clean-up is to free the entry at an address. -/
theorem cleans_iff (heap : LogHeap) (execCount : Nat → Nat) (numReplicas commitIndex a : Nat) :
    ((withCounts heap execCount).val a).any (cleanable numReplicas commitIndex) = true ↔
      ∃ e, heap.val a = some e ∧ execCount a = numReplicas ∧ e.index < pred64 commitIndex := by
  rw [withCounts, Heap.val_mapVal, Option.any_map, Option.any_eq_true]
  simp [cleanable]

theorem sweepLive_withCounts (h : Formed s) (numReplicas commitIndex : Nat)
    (execCount : Nat → Nat) :
    (withCounts s.heap execCount).sweepLive (cleanable numReplicas commitIndex) s.heap.fresh
        s.queue.head =
      if s.entries.any fun a =>
        ((withCounts s.heap execCount).val a).any (cleanable numReplicas commitIndex)
      then none else some (withCounts s.heap execCount) := by
  rw [h.linked.head]
  exact (h.linked.seg.mapVal _).sweepLive _ h.linked.length_le

theorem cleanup_formed (h : Formed s) {numReplicas commitIndex : Nat} {execCount : Nat → Nat}
    (hkeep : Grows s (.cleanup numReplicas commitIndex execCount)) :
    ∃ s', step s (.cleanup numReplicas commitIndex execCount) = some s' ∧ Formed s' := by
  have hlive := sweepLive_withCounts h numReplicas commitIndex execCount
  have hnone : ∀ a ∈ s.entries, ¬ ((withCounts s.heap execCount).val a).any
      (cleanable numReplicas commitIndex) = true := by
    intro a ha hany
    obtain ⟨e, he, hgo⟩ := (cleans_iff _ _ _ _ _).mp hany
    exact hkeep a ha e he hgo
  have hany : ¬ (s.entries.any fun a =>
      ((withCounts s.heap execCount).val a).any (cleanable numReplicas commitIndex)) = true := by
    intro hany
    obtain ⟨a, ha, hgo⟩ := List.any_eq_true.mp hany
    exact hnone a ha hgo
  rw [if_neg hany] at hlive
  have hfilter : (s.entries.filter fun a => !((withCounts s.heap execCount).val a).any
      (cleanable numReplicas commitIndex)) = s.entries := by
    refine List.filter_eq_self.mpr fun a ha => ?_
    rw [Bool.of_not_eq_true (hnone a ha)]
    rfl
  have hseg : Seg (withCounts s.heap execCount) none s.entries none := h.linked.seg.mapVal _
  refine ⟨⟨withCounts s.heap execCount, s.queue, s.entries⟩, ?_,
    ⟨hseg, h.linked.nodup, h.linked.head, h.linked.tail, h.linked.lt_fresh⟩, h.size⟩
  show ((withCounts s.heap execCount).sweepLive _ s.heap.fresh _).map _ = _
  rw [hlive, Option.map_some, hfilter]

/-- A clean-up that frees an entry reads its link afterwards. -/
theorem cleanup_frees (h : Formed s) {numReplicas commitIndex : Nat} {execCount : Nat → Nat}
    {a : Nat} {e : LogEntry} (ha : a ∈ s.entries) (he : s.heap.val a = some e)
    (hgo : execCount a = numReplicas ∧ e.index < pred64 commitIndex) :
    step s (.cleanup numReplicas commitIndex execCount) = none := by
  have hlive := sweepLive_withCounts h numReplicas commitIndex execCount
  have hany : (s.entries.any fun a =>
      ((withCounts s.heap execCount).val a).any (cleanable numReplicas commitIndex)) = true :=
    List.any_eq_true.mpr ⟨a, ha, (cleans_iff _ _ _ _ _).mpr ⟨e, he, hgo⟩⟩
  rw [if_pos hany] at hlive
  show ((withCounts s.heap execCount).sweepLive _ s.heap.fresh _).map _ = _
  rw [hlive, Option.map_none]

/-- An operation that takes nothing out keeps the queue in form. -/
theorem step_formed (h : Formed s) {op : Op} (hop : Grows s op) :
    ∃ s', step s op = some s' ∧ Formed s' := by
  cases op with
  | enqueue e next prev => exact enqueue_formed h hop
  | remove index => exact remove_formed h hop
  | cleanup numReplicas commitIndex execCount => exact cleanup_formed h hop

/-- An operation that takes something out does not. -/
theorem grows_of_step (h : Formed s) {op : Op} {s' : State} (hstep : step s op = some s')
    (hwf : WellFormed s') : Grows s op := by
  cases op with
  | enqueue e next prev =>
    intro hnil
    rw [step_enqueue_nil h hnil] at hstep
    obtain rfl := Option.some.inj hstep
    obtain ⟨-, node, hnode, hend⟩ := hwf.backward
    have hcell := Heap.deref_eq (h := (s.heap.malloc e next prev).1.set s.heap.fresh
      ⟨e, none, prev, false⟩) (Heap.set_cells_self _ _ _) rfl
    obtain rfl := Option.some.inj (hcell.symm.trans hnode)
    exact hend
  | remove index =>
    intro a ha e he hindex
    obtain ⟨hqueue, hlen⟩ := remove_found h ha he hindex hstep
    have hsize := hwf.size
    rw [hqueue, h.size] at hsize
    omega
  | cleanup numReplicas commitIndex execCount =>
    intro a ha e he hgo
    rw [cleanup_frees h ha he hgo] at hstep
    cases hstep

end Steps

/-- As long as the queue only grows, it stays in form. -/
theorem run_formed {ops : List Op} (h : Guarded step Grows init ops) :
    ∃ s, run step init ops = some s ∧ Formed s := by
  induction ops using List.reverseRecOn with
  | nil => exact ⟨init, rfl, formed_init⟩
  | append_singleton ops op ih =>
    obtain ⟨s, hrun, hs⟩ := ih h.of_append
    have hop : Grows s op := h ops op s (List.prefix_refl _) hrun
    obtain ⟨s', hstep, hs'⟩ := step_formed hs hop
    refine ⟨s', ?_, hs'⟩
    rw [run_snoc, hrun]
    exact hstep

/-- Any sequence of operations keeps the queue well formed, and follows no null or freed
pointer, exactly if none of them takes an entry out. -/
theorem stays_wellFormed_iff (ops : List Op) :
    StaysWellFormed ops ↔ Guarded step Grows init ops := by
  constructor
  · intro h
    induction ops using List.reverseRecOn with
    | nil => exact guarded_nil _ _
    | append_singleton ops op ih =>
      have hops := ih fun done hp => h done (hp.trans (List.prefix_append _ _))
      obtain ⟨s, hrun, hs⟩ := run_formed hops
      obtain ⟨s', hrun', hwf⟩ := h (ops ++ [op]) (List.prefix_refl _)
      rw [run_snoc, hrun] at hrun'
      exact hops.snoc hrun (grows_of_step hs hrun' hwf)
  · rintro h done ⟨rest, rfl⟩
    obtain ⟨s, hrun, hs⟩ := run_formed h.of_append
    exact ⟨s, hrun, hs.wellFormed⟩

/-- The only entry cannot be removed again. -/
theorem not_stays_wellFormed :
    ¬ StaysWellFormed [.enqueue ⟨0, 0, 1, 0, ⟨0, 0, 0⟩⟩ none none, .remove 0] := by
  intro h
  obtain ⟨s, hrun, -⟩ := h _ (List.prefix_refl _)
  have hnone : run step init [.enqueue ⟨0, 0, 1, 0, ⟨0, 0, 0⟩⟩ none none, .remove 0] = none := rfl
  rw [hnone] at hrun
  cases hrun

end SmeltConsensus.Raft.QueueForm
