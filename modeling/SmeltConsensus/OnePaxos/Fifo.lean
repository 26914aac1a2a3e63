import SmeltConsensus.Foundation.Machine
import SmeltConsensus.OnePaxos.EntryQueue

/-!
The queue of pending requests over any sequence of calls. `malloc` may return any
cell that is not in use, also one that was freed after an earlier dequeue.
-/

set_option autoImplicit false
set_option relaxedAutoImplicit false

namespace SmeltConsensus.OnePaxos.Fifo

open SmeltConsensus.Foundation.Machine (Guarded guarded_nil guarded_total run)
open SmeltConsensus.OnePaxos.EntryQueue

/-- A call, with what the caller does to the cell before or after it. -/
inductive Call
  /-- `entry_q_enqueue` of the cell `e` that `malloc` returned and the caller filled. -/
  | enqueue (e : Nat) (ele : Entry)
  /-- `entry_q_dequeue`; the caller frees what it returns, or keeps it. -/
  | dequeue (freed : Bool)

/-- The heap and the queue, and the histories of the cells that the calls took and returned. -/
structure State where
  heap : EntryHeap
  client : EntryQueueT
  enqueued : List Nat
  returned : List Nat

/-- The state after `entry_queue_init`. -/
def init (heap : EntryHeap) : State := ⟨heap, entryQueueInit, [], []⟩

/-- `malloc(sizeof(struct entry))` at `e`, with any contents. -/
def malloc (heap : EntryHeap) (e : Nat) (ele : Entry) : EntryHeap :=
  { heap with cells := Function.update heap.cells e (some ele) }

/-- `free`, of a cell or of null. -/
def release (heap : EntryHeap) : Option Nat → EntryHeap
  | none => heap
  | some e => heap.free e

def step (s : State) : Call → Option State
  | .enqueue e ele => (entryQEnqueue (malloc s.heap e ele) s.client e).map fun r =>
      { s with heap := r.1, client := r.2, enqueued := s.enqueued ++ [e] }
  | .dequeue freed => (entryQDequeue s.heap s.client).map fun r =>
      { s with
        heap := if freed then release s.heap r.2 else s.heap
        client := r.1
        returned := s.returned ++ r.2.toList }

/-- The cell of an enqueue is not in use. -/
def Fresh (s : State) : Call → Prop
  | .enqueue e _ => s.heap.cells e = none
  | .dequeue _ => True

/-- The linked queue is the list of the entries that have not been returned. -/
structure BehavesAsFifo (s : State) : Prop where
  in_order : s.returned <+: s.enqueued
  oldest : (entryQDequeue s.heap s.client).map Prod.snd = some s.enqueued[s.returned.length]?
  reach_iff : ∀ e, Reach s.heap s.client.head e ↔ e ∈ s.enqueued.drop s.returned.length
  size : s.client.size = {e | Reach s.heap s.client.head e}.ncard
  head_tail : s.client.head = none ↔ s.client.tail = none
  tail : ∀ e, s.client.tail = some e ↔
    Reach s.heap s.client.head e ∧ (s.heap.cells e).map Entry.next = some none
  empty_iff : entryQEmpty s.client = decide (s.client.size = 0)

/-- The cells `pending` are linked, and they are what was enqueued and not returned. -/
structure Kept (s : State) (pending : List Nat) : Prop where
  split : s.enqueued = s.returned ++ pending
  chained : Chained s.heap s.client pending

variable {s : State} {pending : List Nat}

theorem kept_init (heap : EntryHeap) : Kept (init heap) [] where
  split := rfl
  chained := ⟨rfl, rfl, rfl, .nil, fun k e he => by cases he⟩

/-- A cell that is not in use goes to the end. -/
theorem kept_enqueue (h : Kept s pending) {e : Nat} (hfree : s.heap.cells e = none) (ele : Entry) :
    ∃ s', step s (.enqueue e ele) = some s' ∧ Kept s' (pending ++ [e]) := by
  have hnew : e ∉ pending := by
    intro hmem
    obtain ⟨cell, hcell⟩ := h.chained.live hmem
    rw [hfree] at hcell
    cases hcell
  have hold : ∀ e' ∈ pending, (malloc s.heap e ele).cells e' = s.heap.cells e' := by
    intro e' he'
    have hne : e' ≠ e := fun heq => hnew (heq ▸ he')
    exact Function.update_of_ne hne _ _
  have hcell : (malloc s.heap e ele).cells e = some ele := Function.update_self _ _ _
  obtain ⟨heap', client', henq, hchain, -, -⟩ :=
    entryQEnqueue_chained (h.chained.congr hold) hcell hnew
  refine ⟨{ s with heap := heap', client := client', enqueued := s.enqueued ++ [e] }, ?_, ?_,
    hchain⟩
  · rw [step, henq, Option.map_some]
  · show s.enqueued ++ [e] = s.returned ++ (pending ++ [e])
    rw [h.split, List.append_assoc]

/-- The first cell is returned, and the rest does not depend on it. -/
theorem kept_dequeue {e : Nat} (h : Kept s (e :: pending)) (freed : Bool) :
    ∃ s', step s (.dequeue freed) = some s' ∧ Kept s' pending := by
  obtain ⟨client', hdeq, hchain⟩ := entryQDequeue_chained h.chained
  have hnot := (List.nodup_cons.mp h.chained.nodup).1
  have hold : ∀ e' ∈ pending,
      (if freed then release s.heap (some e) else s.heap).cells e' = s.heap.cells e' := by
    intro e' he'
    have hne : e' ≠ e := fun heq => hnot (heq ▸ he')
    cases freed with
    | false => rfl
    | true => exact Function.update_of_ne hne _ _
  refine ⟨{ s with
    heap := if freed then release s.heap (some e) else s.heap
    client := client'
    returned := s.returned ++ [e] }, ?_, ?_, hchain.congr hold⟩
  · rw [step, hdeq, Option.map_some]
    rfl
  · show s.enqueued = s.returned ++ [e] ++ pending
    rw [h.split, List.append_assoc, List.singleton_append]

/-- Nothing happens on an empty queue. -/
theorem kept_dequeue_nil (h : Kept s []) (freed : Bool) : step s (.dequeue freed) = some s := by
  have hhead : s.client.head = none := h.chained.head
  have hdeq : entryQDequeue s.heap s.client = some (s.client, none) := by
    rw [entryQDequeue, hhead]
  rw [step, hdeq, Option.map_some, Option.toList_none, List.append_nil, release, ite_self]

theorem kept_step (h : ∃ pending, Kept s pending) {c : Call} (hfresh : Fresh s c) :
    ∃ s', step s c = some s' ∧ ∃ pending, Kept s' pending := by
  obtain ⟨pending, h⟩ := h
  cases c with
  | enqueue e ele =>
    obtain ⟨s', hs', h'⟩ := kept_enqueue h hfresh ele
    exact ⟨s', hs', _, h'⟩
  | dequeue freed =>
    cases pending with
    | nil => exact ⟨s, kept_dequeue_nil h freed, [], h⟩
    | cons e pending =>
      obtain ⟨s', hs', h'⟩ := kept_dequeue h freed
      exact ⟨s', hs', pending, h'⟩

/-- What `entry_q_dequeue` returns is the head of the list. -/
theorem Kept.dequeue_eq (h : Kept s pending) :
    (entryQDequeue s.heap s.client).map Prod.snd = some pending.head? := by
  cases pending with
  | nil =>
    have hhead : s.client.head = none := h.chained.head
    rw [entryQDequeue, hhead]
    rfl
  | cons e pending =>
    obtain ⟨client', hdeq, -⟩ := entryQDequeue_chained h.chained
    rw [hdeq]
    rfl

theorem Kept.behavesAsFifo (h : Kept s pending) : BehavesAsFifo s := by
  have hpending : s.enqueued.drop s.returned.length = pending := by
    rw [h.split, List.drop_left]
  have hchain := h.chained
  refine ⟨⟨pending, h.split.symm⟩, ?_, ?_, hchain.size_eq_ncard, ?_, ?_, ?_⟩
  · rw [h.dequeue_eq, ← hpending, List.head?_drop]
  · intro e
    rw [hpending]
    exact hchain.reach_iff
  · rw [hchain.head, hchain.tail, List.head?_eq_none_iff, List.getLast?_eq_none_iff]
  · intro e
    rw [hchain.tail_eq_iff, hchain.reach_iff]
  · rw [entryQEmpty, hchain.head, hchain.size]
    cases pending <;> rfl

/-- Every sequence of calls comes to its end, and the queue behaves as a list. -/
theorem calls_behave_as_fifo (heap : EntryHeap) (calls : List Call)
    (hfresh : Guarded step Fresh (init heap) calls) :
    ∃ s, run step (init heap) calls = some s ∧ BehavesAsFifo s := by
  have hinit : ∃ pending, Kept (init heap) pending := ⟨[], kept_init heap⟩
  obtain ⟨s, hrun, pending, h⟩ := guarded_total (fun _ _ hkept hf => kept_step hkept hf) hinit hfresh
  exact ⟨s, hrun, h.behavesAsFifo⟩

/-- Cell 0 is freed and allocated again, and the queue runs empty. -/
theorem calls_behave_as_fifo_reused :
    ∃ s, run step (init .empty) [.dequeue false, .enqueue 0 ⟨.message, none⟩,
      .enqueue 1 ⟨.message, some 0⟩, .dequeue true, .enqueue 0 ⟨.null, some 1⟩, .dequeue true,
      .dequeue false, .dequeue true] = some s ∧ BehavesAsFifo s := by
  apply calls_behave_as_fifo
  exact .cons trivial rfl <| .cons rfl rfl <| .cons rfl rfl <| .cons trivial rfl <|
    .cons rfl rfl <| .cons trivial rfl <| .cons trivial rfl <| .cons trivial rfl <| guarded_nil _ _

end SmeltConsensus.OnePaxos.Fifo
