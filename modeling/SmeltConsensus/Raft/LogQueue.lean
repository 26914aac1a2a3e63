import SmeltConsensus.Foundation.LinkedHeap
import SmeltConsensus.Message.Header

/-! The log of a Raft replica, as a doubly linked queue of entries on a heap. -/

set_option autoImplicit false
set_option relaxedAutoImplicit false

namespace SmeltConsensus.Raft.LogQueue

open SmeltConsensus.Foundation.LinkedHeap
open SmeltConsensus.Message.Header

/-- `struct log_entry` without its links. -/
structure LogEntry where
  /-- A `uint8_t`. -/
  execCount : Nat
  index : Nat
  term : Nat
  header : Nat
  payload : Payload

/-- The command of the request that an entry stores. -/
def LogEntry.command (e : LogEntry) : Command :=
  ⟨getClientId e.header, getRequestId e.header, e.payload⟩

abbrev LogHeap := Heap LogEntry

/-- `struct log_queue`. -/
structure LogQueueT where
  size : Nat
  head : Option Nat
  tail : Option Nat
  deriving DecidableEq

def logQueueInit : LogQueueT := ⟨0, none, none⟩

/-- As all of the log operations, nothing where the code follows a null or a freed pointer. -/
def enqueue (heap : LogHeap) (queue : LogQueueT) (ele : Nat) : Option (LogHeap × LogQueueT) :=
  (heap.setNext (some ele) none).bind fun heap =>
    match queue.head with
    | none => some (heap, ⟨queue.size + 1, some ele, some ele⟩)
    | some head =>
      ((heap.setNext queue.tail (some ele)).bind fun heap =>
        heap.setPrev (some ele) queue.tail).map fun heap =>
          (heap, ⟨queue.size + 1, some head, some ele⟩)

def queueContains (heap : LogHeap) (queue : LogQueueT) (index : Nat) : Option (Option Nat) :=
  heap.search (fun e => e.index == index) heap.fresh queue.head

/-- The entry is unlinked; head, tail and size stay as they are. -/
def removeEntry (heap : LogHeap) (queue : LogQueueT) (index : Nat) :
    Option (LogHeap × Option Nat) :=
  (queueContains heap queue index).bind fun
    | none => some (heap, none)
    | some ele => (heap.unlink ele).map fun heap => (heap, some ele)

/-- `x - 1` on `uint64_t`. -/
def pred64 (x : Nat) : Nat := if x = 0 then 2 ^ 64 - 1 else x - 1

/-- The condition on which `cleanup_queue` frees an entry. -/
def cleanable (numReplicas commitIndex : Nat) (e : LogEntry) : Bool :=
  e.execCount == numReplicas && decide (e.index < pred64 commitIndex)

def cleanupQueue (numReplicas commitIndex : Nat) (heap : LogHeap) (queue : LogQueueT) :
    Option LogHeap :=
  heap.sweep (cleanable numReplicas commitIndex) heap.fresh queue.head

/-- The loop of `handle_append` that unlinks the entry at `index` and all that follow it. -/
def removeFollowing : Nat → LogHeap → LogQueueT → Nat → Option LogHeap
  | 0, _, _, _ => none
  | fuel + 1, heap, queue, index => (removeEntry heap queue index).bind fun
    | (heap, none) => some heap
    | (heap, some _) => removeFollowing fuel heap queue (index + 1)

/-- The queue visits the entries at the addresses `as`. -/
structure Linked (heap : LogHeap) (queue : LogQueueT) (as : List Nat) : Prop where
  seg : Seg heap none as none
  nodup : as.Nodup
  head : queue.head = as.head?
  tail : queue.tail = as.getLast?
  lt_fresh : ∀ a ∈ as, a < heap.fresh

/-- The index of the entry at an address. -/
def indexAt (heap : LogHeap) (a : Nat) : Option Nat := (heap.val a).map LogEntry.index

/-- The queue holds the entries with the indices from `first` to `last`, at the addresses `as`. -/
structure HoldsFrom (heap : LogHeap) (queue : LogQueueT) (as : List Nat) (first last : Nat) :
    Prop where
  linked : Linked heap queue as
  indices : as.map (indexAt heap) = (List.range' first (last + 1 - first)).map some
  le : first ≤ last

variable {heap : LogHeap} {queue : LogQueueT} {as bs : List Nat} {a index : Nat}

theorem any_index (heap : LogHeap) (a index : Nat) :
    ((heap.val a).any fun e => e.index == index) = (indexAt heap a == some index) := by
  rw [indexAt]
  cases heap.val a <;> rfl

theorem Linked.length_le (h : Linked heap queue as) : as.length ≤ heap.fresh := by
  have hsub : as ⊆ List.range heap.fresh := fun a ha => List.mem_range.mpr (h.lt_fresh a ha)
  have hle := h.nodup.length_le_of_subset hsub
  rwa [List.length_range] at hle

theorem Linked.setVal (h : Linked heap queue as) (ha : a ∈ as) (f : LogEntry → LogEntry) :
    ∃ heap', heap.setVal (some a) f = some heap' ∧ Linked heap' queue as ∧
      heap'.fresh = heap.fresh ∧
      heap'.val = Function.update heap.val a ((heap.val a).map f) := by
  obtain ⟨heap', heq, hs, hfresh, hval⟩ := h.seg.setVal ha h.nodup f
  refine ⟨heap', heq, ⟨hs, h.nodup, h.head, h.tail, ?_⟩, hfresh, hval⟩
  rw [hfresh]
  exact h.lt_fresh

/-- Allocation leaves a queue as it is, and the new address is not in it. -/
theorem Linked.malloc (h : Linked heap queue as) (e : LogEntry) (p q : Option Nat) :
    Linked (heap.malloc e p q).1 queue as ∧ heap.fresh ∉ as := by
  have hfresh : heap.fresh ∉ as := fun hm => Nat.lt_irrefl _ (h.lt_fresh _ hm)
  exact ⟨⟨h.seg.malloc hfresh e p q, h.nodup, h.head, h.tail, fun a ha =>
    Nat.lt_succ_of_lt (h.lt_fresh a ha)⟩, hfresh⟩

/-- An entry that is not in the queue is appended, whatever its links are. -/
theorem Linked.enqueue_new (h : Linked heap queue as) (has : as ≠ []) {e : LogEntry}
    {p q : Option Nat} (hnew : heap.cells a = some ⟨e, p, q, false⟩) (ha : a ∉ as)
    (hlt : a < heap.fresh) :
    ∃ heap' queue', LogQueue.enqueue heap queue a = some (heap', queue') ∧
      Linked heap' queue' (as ++ [a]) ∧ heap'.fresh = heap.fresh ∧ heap'.val = heap.val ∧
      queue'.size = queue.size + 1 := by
  obtain ⟨l, t, rfl⟩ := (List.eq_nil_or_concat' as).resolve_left has
  have hwrite : heap.setNext (some a) none = some (heap.set a ⟨e, none, q, false⟩) :=
    Heap.write_eq hnew rfl _
  have hnd : (l ++ [t] ++ [a]).Nodup := by
    rw [List.nodup_append]
    refine ⟨h.nodup, List.nodup_singleton _, fun b hb c hc => ?_⟩
    rw [List.mem_singleton.mp hc]
    exact ne_of_mem_of_not_mem hb ha
  obtain ⟨heap', heq, hs, hfresh, hval⟩ :=
    (h.seg.set ha ⟨e, none, q, false⟩).snoc (Heap.set_cells_self _ _ _) hnd
  obtain ⟨head, hhead⟩ : ∃ head, queue.head = some head := by
    rw [h.head, ← Option.isSome_iff_exists, List.isSome_head?]
    simp
  refine ⟨heap', ⟨queue.size + 1, some head, some a⟩, ?_, ?_, hfresh,
    hval.trans (Heap.val_set hnew _ rfl), rfl⟩
  · have htail : queue.tail = some t := by rw [h.tail, List.getLast?_concat]
    rw [LogQueue.enqueue, hwrite, Option.bind_some, hhead]
    dsimp only
    rw [htail, heq, Option.map_some]
  · refine ⟨hs, hnd, ?_, ?_, ?_⟩
    · rw [← hhead, h.head, List.head?_append_of_ne_nil _ has]
    · rw [List.getLast?_concat]
    · intro b hb
      rw [hfresh]
      rcases List.mem_append.mp hb with hb | hb
      · exact h.lt_fresh b hb
      · rw [List.mem_singleton.mp hb]
        exact hlt

/-- A freshly allocated entry is appended. -/
theorem Linked.enqueue (h : Linked heap queue as) (has : as ≠ []) (e : LogEntry) :
    ∃ heap' queue', LogQueue.enqueue (heap.alloc e).1 queue (heap.alloc e).2 =
        some (heap', queue') ∧
      Linked heap' queue' (as ++ [heap.fresh]) ∧ heap'.fresh = heap.fresh + 1 ∧
      heap'.val = Function.update heap.val heap.fresh (some e) := by
  obtain ⟨halloc, hfresh⟩ := h.malloc e none none
  obtain ⟨heap', queue', heq, hlinked, hfresh', hval, -⟩ :=
    halloc.enqueue_new has (Heap.malloc_cells _ _ _ _) hfresh (Nat.lt_succ_self _)
  exact ⟨heap', queue', heq, hlinked, hfresh', hval.trans (Heap.val_malloc heap e none none)⟩

theorem Linked.queueContains (h : Linked heap queue as) (index : Nat) :
    LogQueue.queueContains heap queue index =
      some (as.find? fun a => (heap.val a).any fun e => e.index == index) := by
  rw [LogQueue.queueContains, h.head]
  exact h.seg.search _ h.length_le

/-- A lookup finds the first visited entry with the index. -/
theorem Linked.queueContains_append (h : Linked heap queue (as ++ a :: bs))
    (has : ∀ b ∈ as, indexAt heap b ≠ some index) (ha : indexAt heap a = some index) :
    LogQueue.queueContains heap queue index = some (some a) := by
  rw [h.queueContains, Option.some.injEq, List.find?_eq_some_iff_append]
  refine ⟨?_, as, bs, rfl, fun b hb => ?_⟩
  · rw [any_index, ha]
    exact beq_self_eq_true _
  · rw [any_index, beq_false_of_ne (has b hb)]
    rfl

theorem Linked.queueContains_eq_none (h : Linked heap queue as)
    (has : ∀ b ∈ as, indexAt heap b ≠ some index) :
    LogQueue.queueContains heap queue index = some none := by
  rw [h.queueContains, Option.some.injEq, List.find?_eq_none]
  intro b hb hany
  rw [any_index] at hany
  exact has b hb (beq_iff_eq.mp hany)

/-- Removing an entry that has no entry before or none after it. -/
theorem Linked.removeEntry_eq_none (h : Linked heap queue (as ++ a :: bs))
    (hend : as = [] ∨ bs = []) (hfound : LogQueue.queueContains heap queue index = some (some a)) :
    LogQueue.removeEntry heap queue index = none := by
  rw [LogQueue.removeEntry, hfound, Option.bind_some]
  dsimp only
  rw [h.seg.unlink_eq_none hend, Option.map_none]

/-- Removing an entry that is neither the first nor the last. -/
theorem Linked.removeEntry (h : Linked heap queue (as ++ a :: bs)) (has : as ≠ [])
    (hbs : bs ≠ []) (hfound : LogQueue.queueContains heap queue index = some (some a)) :
    ∃ heap', LogQueue.removeEntry heap queue index = some (heap', some a) ∧
      Linked heap' queue (as ++ bs) ∧ heap'.fresh = heap.fresh ∧ heap'.val = heap.val ∧
      heap'.cells a = heap.cells a := by
  obtain ⟨heap', heq, hs, hfresh, hval, hcell⟩ := h.seg.unlink h.nodup has hbs
  have hsub : (as ++ bs).Sublist (as ++ a :: bs) :=
    (List.Sublist.refl as).append (List.sublist_cons_self a bs)
  refine ⟨heap', ?_, ⟨hs, hsub.nodup h.nodup, ?_, ?_, ?_⟩, hfresh, hval, hcell⟩
  · rw [LogQueue.removeEntry, hfound, Option.bind_some]
    dsimp only
    rw [heq, Option.map_some]
  · rw [h.head, List.head?_append_of_ne_nil _ has, List.head?_append_of_ne_nil _ has]
  · rw [h.tail, List.getLast?_append_of_ne_nil _ hbs, List.getLast?_append_of_ne_nil _ (by simp),
      List.getLast?_cons_of_ne_nil hbs]
  · intro b hb
    rw [hfresh]
    exact h.lt_fresh b (hsub.subset hb)

/-- An entry that is no longer in the queue can be freed once. -/
theorem Linked.free (h : Linked heap queue as) (ha : a ∉ as) {node : Node LogEntry}
    (hc : heap.cells a = some node) (hf : node.freed = false) :
    ∃ heap', heap.free (some a) = some heap' ∧ Linked heap' queue as ∧
      heap'.fresh = heap.fresh ∧ heap'.val = heap.val :=
  ⟨_, Heap.write_eq hc hf _, ⟨h.seg.set ha _, h.nodup, h.head, h.tail, h.lt_fresh⟩, rfl,
    Heap.val_set hc _ rfl⟩

/-- A clean-up that frees neither the first nor the last entry. -/
theorem Linked.cleanupQueue (h : Linked heap queue as) (numReplicas commitIndex : Nat)
    (hbs : as.filter (fun a => !(heap.val a).any (cleanable numReplicas commitIndex)) = bs)
    (hhead : bs.head? = as.head?) (hlast : bs.getLast? = as.getLast?) :
    ∃ heap', LogQueue.cleanupQueue numReplicas commitIndex heap queue = some heap' ∧
      Linked heap' queue bs ∧ heap'.fresh = heap.fresh ∧ heap'.val = heap.val := by
  obtain ⟨heap', heq, hs, hfresh, hval⟩ := @Seg.sweep _ _ [] as h.seg h.nodup
    (cleanable numReplicas commitIndex) _ h.length_le
  rw [List.nil_append, hbs] at hs
  have hsub : bs.Sublist as := hbs ▸ List.filter_sublist
  refine ⟨heap', ?_, ⟨hs, hsub.nodup h.nodup, h.head.trans hhead.symm, h.tail.trans hlast.symm,
    ?_⟩, hfresh, hval⟩
  · rw [LogQueue.cleanupQueue, h.head]
    exact heq
  · intro b hb
    rw [hfresh]
    exact h.lt_fresh b (hsub.subset hb)

/-- The next entry is appended to a log. -/
theorem HoldsFrom.push {first last : Nat} (h : HoldsFrom heap queue as first last) {e : LogEntry}
    (he : e.index = last + 1) :
    ∃ heap' queue', LogQueue.enqueue (heap.alloc e).1 queue (heap.alloc e).2 =
        some (heap', queue') ∧
      HoldsFrom heap' queue' (as ++ [heap.fresh]) first (last + 1) ∧
      heap'.val = Function.update heap.val heap.fresh (some e) ∧ heap.fresh ∉ as := by
  have hle := h.le
  have hne : as ≠ [] := by
    rintro rfl
    have hlen := congrArg List.length h.indices
    rw [List.map_nil, List.length_nil, List.length_map, List.length_range'] at hlen
    omega
  have hfresh := (h.linked.malloc e none none).2
  obtain ⟨heap', queue', heq, hlinked, -, hval⟩ := h.linked.enqueue hne e
  refine ⟨heap', queue', heq, ⟨hlinked, ?_, by omega⟩, hval, hfresh⟩
  have hold : as.map (indexAt heap') = as.map (indexAt heap) := by
    refine List.map_congr_left fun a ha => ?_
    rw [indexAt, hval, Function.update_of_ne (ne_of_mem_of_not_mem ha hfresh), indexAt]
  have hnew : indexAt heap' heap.fresh = some (last + 1) := by
    rw [indexAt, hval, Function.update_self, Option.map_some, he]
  have hlen : last + 1 + 1 - first = last + 1 - first + 1 := by omega
  have hlast : first + (last + 1 - first) = last + 1 := by omega
  rw [List.map_append, hold, h.indices, List.map_singleton, hnew, hlen, List.range'_concat,
    Nat.one_mul, hlast, List.map_append, List.map_singleton]

end SmeltConsensus.Raft.LogQueue
