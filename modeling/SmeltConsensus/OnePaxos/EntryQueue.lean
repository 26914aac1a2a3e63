import Mathlib.Data.List.Nodup
import Mathlib.Data.Set.Card
import Mathlib.Logic.Function.Basic

/-! The queue of pending requests of a 1Paxos leader, as linked cells on a heap. -/

set_option autoImplicit false
set_option relaxedAutoImplicit false

namespace SmeltConsensus.OnePaxos.EntryQueue

/-- A `struct smlt_msg *`: every one that is stored is the buffer of the message loop. -/
inductive MsgPtr
  | null
  | message
  deriving DecidableEq

/-- `struct entry`; cells are named by numbers. -/
structure Entry where
  msg : MsgPtr
  next : Option Nat
  deriving DecidableEq

/-- The cells that are allocated and not freed, and the next fresh one. -/
structure EntryHeap where
  cells : Nat → Option Entry
  fresh : Nat

/-- `entry_queue_t`. -/
structure EntryQueueT where
  size : Nat
  head : Option Nat
  tail : Option Nat
  deriving DecidableEq

namespace EntryHeap

def empty : EntryHeap := ⟨fun _ => none, 0⟩

/-- `malloc(sizeof(struct entry))` with the message pointer set. -/
def alloc (heap : EntryHeap) (msg : MsgPtr) : EntryHeap × Nat :=
  (⟨Function.update heap.cells heap.fresh (some ⟨msg, none⟩), heap.fresh + 1⟩, heap.fresh)

def free (heap : EntryHeap) (ele : Nat) : EntryHeap :=
  { heap with cells := Function.update heap.cells ele none }

/-- `ele->next = next`, for an `ele` that is not null. -/
def setNext (heap : EntryHeap) (ele : Nat) (next : Option Nat) : Option EntryHeap :=
  (heap.cells ele).map fun e =>
    { heap with cells := Function.update heap.cells ele (some ⟨e.msg, next⟩) }

end EntryHeap

def entryQueueInit : EntryQueueT := ⟨0, none, none⟩

def entryQEmpty (client : EntryQueueT) : Bool := client.head.isNone

/-- Nothing is returned where the code follows a null or a freed pointer. -/
def entryQEnqueue (heap : EntryHeap) (client : EntryQueueT) (ele : Nat) :
    Option (EntryHeap × EntryQueueT) :=
  (heap.setNext ele none).bind fun heap =>
    match client.head with
    | none => some (heap, ⟨client.size + 1, some ele, some ele⟩)
    | some head => client.tail.bind fun tail =>
      (heap.setNext tail (some ele)).map fun heap =>
        (heap, ⟨client.size + 1, some head, some ele⟩)

def entryQDequeue (heap : EntryHeap) (client : EntryQueueT) : Option (EntryQueueT × Option Nat) :=
  match client.head with
  | none => some (client, none)
  | some ele => (heap.cells ele).map fun e =>
    match e.next with
    | none => (⟨client.size - 1, none, none⟩, some ele)
    | some head => (⟨client.size - 1, some head, client.tail⟩, some ele)

/-- The queue is the chain of the cells `es`, whatever messages they point to. -/
structure Chained (heap : EntryHeap) (client : EntryQueueT) (es : List Nat) : Prop where
  size : client.size = es.length
  head : client.head = es.head?
  tail : client.tail = es.getLast?
  nodup : es.Nodup
  linked : ∀ k e, es[k]? = some e → (heap.cells e).map Entry.next = some es[k + 1]?

/-- The queue holds the cells `es`, linked in this order. -/
structure Queued (heap : EntryHeap) (client : EntryQueueT) (es : List Nat) : Prop where
  size : client.size = es.length
  head : client.head = es.head?
  tail : client.tail = es.getLast?
  nodup : es.Nodup
  fresh : ∀ e ∈ es, e < heap.fresh
  linked : ∀ k e, es[k]? = some e → heap.cells e = some ⟨.message, es[k + 1]?⟩

/-- The nodes that are reachable from a pointer. -/
inductive Reach (heap : EntryHeap) (head : Option Nat) : Nat → Prop
  | head {e} : head = some e → Reach heap head e
  | next {e e'} {cell : Entry} : Reach heap head e → heap.cells e = some cell →
      cell.next = some e' → Reach heap head e'

theorem entryQueueInit_queued : Queued .empty entryQueueInit [] where
  size := rfl
  head := rfl
  tail := rfl
  nodup := .nil
  fresh e h := absurd h List.not_mem_nil
  linked k e h := by cases h

variable {heap : EntryHeap} {client : EntryQueueT} {es : List Nat}

section Chain

variable {heap' : EntryHeap}

/-- A queue depends on its own cells only. -/
theorem Chained.congr (h : Chained heap client es) (hcells : ∀ e ∈ es, heap'.cells e = heap.cells e) :
    Chained heap' client es where
  size := h.size
  head := h.head
  tail := h.tail
  nodup := h.nodup
  linked k e he := by
    rw [hcells e (List.mem_of_getElem? he)]
    exact h.linked k e he

theorem Chained.live (h : Chained heap client es) {e : Nat} (he : e ∈ es) :
    ∃ cell, heap.cells e = some cell := by
  obtain ⟨k, hk⟩ := List.mem_iff_getElem?.mp he
  obtain ⟨cell, hcell, -⟩ := Option.map_eq_some_iff.mp (h.linked k e hk)
  exact ⟨cell, hcell⟩

theorem Chained.reach_iff (h : Chained heap client es) {e : Nat} :
    Reach heap client.head e ↔ e ∈ es := by
  constructor
  · intro hreach
    induction hreach with
    | head hhead =>
      rw [h.head] at hhead
      exact List.mem_of_mem_head? hhead
    | next _ hcell hnext ih =>
      obtain ⟨k, hk⟩ := List.mem_iff_getElem?.mp ih
      have hlinked := h.linked k _ hk
      rw [hcell, Option.map_some, hnext] at hlinked
      exact List.mem_of_getElem? (Option.some.inj hlinked).symm
  · intro hmem
    obtain ⟨k, hk⟩ := List.mem_iff_getElem?.mp hmem
    induction k generalizing e with
    | zero =>
      apply Reach.head
      rw [h.head, List.head?_eq_getElem?]
      exact hk
    | succ k ih =>
      have hlt : k < es.length := Nat.lt_of_succ_lt (List.getElem?_eq_some_iff.mp hk).1
      have hprev := List.getElem?_eq_getElem hlt
      have hlinked := h.linked k _ hprev
      rw [hk] at hlinked
      obtain ⟨cell, hcell, hnext⟩ := Option.map_eq_some_iff.mp hlinked
      exact (ih (List.mem_of_getElem? hprev) hprev).next hcell hnext

/-- The size is the number of nodes that are reachable from the head. -/
theorem Chained.size_eq_ncard (h : Chained heap client es) :
    client.size = {e | Reach heap client.head e}.ncard := by
  have hset : {e | Reach heap client.head e} = (es.toFinset : Set Nat) := by
    ext e
    rw [List.coe_toFinset]
    exact h.reach_iff
  rw [hset, Set.ncard_coe_finset, List.toFinset_card_of_nodup h.nodup, h.size]

/-- The tail is the one cell without a successor. -/
theorem Chained.tail_eq_iff (h : Chained heap client es) (e : Nat) :
    client.tail = some e ↔ e ∈ es ∧ (heap.cells e).map Entry.next = some none := by
  rw [h.tail, List.getLast?_eq_getElem?]
  constructor
  · intro he
    have hlt := (List.getElem?_eq_some_iff.mp he).1
    refine ⟨List.mem_of_getElem? he, ?_⟩
    rw [h.linked _ e he, List.getElem?_eq_none (by omega)]
  · rintro ⟨hmem, hnext⟩
    obtain ⟨k, hk⟩ := List.mem_iff_getElem?.mp hmem
    have hlt := (List.getElem?_eq_some_iff.mp hk).1
    rw [h.linked k e hk] at hnext
    have hge := List.getElem?_eq_none_iff.mp (Option.some.inj hnext)
    have hlast : k = es.length - 1 := by omega
    rw [← hlast]
    exact hk

theorem setNext_eq {ele : Nat} {cell : Entry} (hlive : heap.cells ele = some cell)
    (next : Option Nat) : heap.setNext ele next =
      some { heap with cells := Function.update heap.cells ele (some ⟨cell.msg, next⟩) } := by
  rw [EntryHeap.setNext, hlive, Option.map_some]

/-- The links after `ele` has been written behind `last`. -/
theorem Chained.linked_concat {init : List Nat} {last ele : Nat}
    (h : Chained heap client (init ++ [last])) (hnew : ele ∉ init ++ [last]) (m m' : MsgPtr)
    (k e : Nat) (he : (init ++ [last] ++ [ele])[k]? = some e) :
    (Function.update (Function.update heap.cells ele (some ⟨m, none⟩)) last
        (some ⟨m', some ele⟩) e).map Entry.next =
      some (init ++ [last] ++ [ele])[k + 1]? := by
  have hne : last ≠ ele := by
    rintro rfl
    exact hnew List.mem_concat_self
  have hlen : (init ++ [last]).length = init.length + 1 := List.length_append
  rcases Nat.lt_trichotomy k init.length with hk | rfl | hk
  · -- a cell before the last one keeps its link
    have hold : (init ++ [last])[k]? = some e := by
      rwa [List.getElem?_append_left (by omega)] at he
    have hmem : e ∈ init := by
      rw [List.getElem?_append_left hk] at hold
      exact List.mem_of_getElem? hold
    have hlast : e ≠ last := by
      rintro rfl
      exact (List.nodup_append.mp h.nodup).2.2 e hmem e (List.mem_singleton_self e) rfl
    have hele : e ≠ ele := by
      rintro rfl
      exact hnew (List.mem_append_left _ hmem)
    have hnext : (init ++ [last] ++ [ele])[k + 1]? = (init ++ [last])[k + 1]? :=
      List.getElem?_append_left (by omega)
    rw [Function.update_of_ne hlast, Function.update_of_ne hele, h.linked k e hold, hnext]
  · rw [List.getElem?_append_left (by omega), List.getElem?_concat_length] at he
    obtain rfl := Option.some.inj he
    rw [Function.update_self, ← hlen, List.getElem?_concat_length]
    rfl
  · have hend : k = init.length + 1 := by
      have hlt := (List.getElem?_eq_some_iff.mp he).1
      rw [List.length_append, hlen, List.length_singleton] at hlt
      omega
    rw [hend, ← hlen, List.getElem?_concat_length] at he
    obtain rfl := Option.some.inj he
    have hlength : (init ++ [last] ++ [ele]).length = k + 1 := by
      rw [List.length_append, hlen, List.length_singleton, hend]
    have hnext : (init ++ [last] ++ [ele])[k + 1]? = none :=
      List.getElem?_eq_none (Nat.le_of_eq hlength)
    rw [Function.update_of_ne hne.symm, Function.update_self, hnext]
    rfl

/-- An allocated cell outside of the queue goes to its end, and no message pointer changes. -/
theorem entryQEnqueue_chained (h : Chained heap client es) {ele : Nat} {cell : Entry}
    (hlive : heap.cells ele = some cell) (hnew : ele ∉ es) :
    ∃ heap' client', entryQEnqueue heap client ele = some (heap', client') ∧
      Chained heap' client' (es ++ [ele]) ∧ heap'.fresh = heap.fresh ∧
      ∀ e, (heap'.cells e).map Entry.msg = (heap.cells e).map Entry.msg := by
  have hmsg (cells : Nat → Option Entry) {e : Nat} {c : Entry} (hc : cells e = some c)
      (next : Option Nat) (e' : Nat) :
      (Function.update cells e (some ⟨c.msg, next⟩) e').map Entry.msg =
        (cells e').map Entry.msg := by
    by_cases he : e' = e
    · rw [he, Function.update_self, hc]
      rfl
    · rw [Function.update_of_ne he]
  rw [entryQEnqueue, setNext_eq hlive, Option.bind_some]
  rcases List.eq_nil_or_concat' es with rfl | ⟨init, last, rfl⟩
  · have hhead : client.head = none := h.head
    rw [hhead]
    refine ⟨_, _, rfl, ⟨?_, rfl, rfl, List.nodup_singleton _, ?_⟩, rfl, hmsg _ hlive none⟩
    · show client.size + 1 = 1
      rw [h.size, List.length_nil]
    · rintro (_ | k) e he
      · obtain rfl := Option.some.inj he
        show (Function.update heap.cells ele _ ele).map Entry.next = _
        rw [Function.update_self]
        rfl
      · cases he
  · obtain ⟨head, hhead⟩ : ∃ head, client.head = some head := by
      rw [h.head]
      cases init with
      | nil => exact ⟨last, rfl⟩
      | cons e init => exact ⟨e, rfl⟩
    have htail : client.tail = some last := by
      rw [h.tail, List.getLast?_concat]
    have hne : last ≠ ele := by
      rintro rfl
      exact hnew List.mem_concat_self
    obtain ⟨lastCell, hlast, -⟩ :=
      Option.map_eq_some_iff.mp (h.linked init.length last List.getElem?_concat_length)
    have hcell : Function.update heap.cells ele (some ⟨cell.msg, none⟩) last = some lastCell := by
      rw [Function.update_of_ne hne, hlast]
    rw [hhead, htail]
    dsimp only
    rw [Option.bind_some, setNext_eq hcell]
    refine ⟨_, _, rfl, ⟨?_, ?_, ?_, ?_, h.linked_concat hnew _ _⟩, rfl, fun e => ?_⟩
    · have hlen : (init ++ [last] ++ [ele]).length = (init ++ [last]).length + 1 :=
        List.length_append
      rw [hlen, ← h.size]
    · show some head = _
      rw [← hhead, h.head]
      cases init <;> rfl
    · show some ele = _
      rw [List.getLast?_concat]
    · rw [← List.concat_eq_append]
      exact h.nodup.concat hnew
    · exact (hmsg _ hcell (some ele) e).trans (hmsg _ hlive none e)

/-- The head of the queue is taken off. -/
theorem entryQDequeue_chained {e : Nat} (h : Chained heap client (e :: es)) :
    ∃ client', entryQDequeue heap client = some (client', some e) ∧ Chained heap client' es := by
  have hhead : client.head = some e := h.head
  obtain ⟨cell, hcell, hnext⟩ : ∃ cell, heap.cells e = some cell ∧ cell.next = es.head? := by
    have hlinked := h.linked 0 e rfl
    rw [List.getElem?_cons_succ, ← List.head?_eq_getElem?] at hlinked
    exact Option.map_eq_some_iff.mp hlinked
  have hsize : client.size - 1 = es.length := by
    rw [h.size, List.length_cons, Nat.add_sub_cancel]
  have hnodup := (List.nodup_cons.mp h.nodup).2
  have hlinked : ∀ k e', es[k]? = some e' →
      (heap.cells e').map Entry.next = some es[k + 1]? := by
    intro k e' he'
    rw [h.linked (k + 1) e' he', List.getElem?_cons_succ]
  rw [entryQDequeue, hhead]
  dsimp only
  rw [hcell, Option.map_some, hnext]
  cases es with
  | nil => exact ⟨⟨client.size - 1, none, none⟩, rfl, hsize, rfl, rfl, hnodup, hlinked⟩
  | cons e' es =>
    refine ⟨⟨client.size - 1, some e', client.tail⟩, rfl, hsize, rfl, ?_, hnodup, hlinked⟩
    rw [h.tail, List.getLast?_cons_cons]

end Chain

theorem Queued.chained (h : Queued heap client es) : Chained heap client es where
  size := h.size
  head := h.head
  tail := h.tail
  nodup := h.nodup
  linked k e he := by
    rw [h.linked k e he]
    rfl

/-- A chain of live cells that all point to the message of the loop. -/
theorem Chained.queued (h : Chained heap client es) (hfresh : ∀ e ∈ es, e < heap.fresh)
    (hmsg : ∀ e ∈ es, (heap.cells e).map Entry.msg = some .message) : Queued heap client es where
  size := h.size
  head := h.head
  tail := h.tail
  nodup := h.nodup
  fresh := hfresh
  linked k e he := by
    obtain ⟨⟨m, next⟩, hcell, hm⟩ :=
      Option.map_eq_some_iff.mp (hmsg e (List.mem_of_getElem? he))
    obtain rfl : m = .message := hm
    have hlinked := h.linked k e he
    rw [hcell, Option.map_some] at hlinked
    rw [hcell, ← Option.some.inj hlinked]

theorem Queued.msg_eq (h : Queued heap client es) {e : Nat} (he : e ∈ es) :
    (heap.cells e).map Entry.msg = some .message := by
  obtain ⟨k, hk⟩ := List.mem_iff_getElem?.mp he
  rw [h.linked k e hk]
  rfl

theorem Queued.reach_iff (h : Queued heap client es) {e : Nat} :
    Reach heap client.head e ↔ e ∈ es := h.chained.reach_iff

/-- The size is the number of nodes that are reachable from the head. -/
theorem Queued.size_eq_ncard (h : Queued heap client es) :
    client.size = {e | Reach heap client.head e}.ncard := h.chained.size_eq_ncard

/-- The cells are distinct and were all allocated. -/
theorem Queued.length_le_fresh (h : Queued heap client es) : es.length ≤ heap.fresh := by
  have hsub : es ⊆ List.range heap.fresh := fun e he => List.mem_range.mpr (h.fresh e he)
  have hle := (h.nodup.subperm hsub).length_le
  rwa [List.length_range] at hle

/-- A new cell goes to the end of the queue. -/
theorem entryQEnqueue_queued (h : Queued heap client es) :
    ∃ heap' client', entryQEnqueue (heap.alloc .message).1 client (heap.alloc .message).2 =
      some (heap', client') ∧ Queued heap' client' (es ++ [heap.fresh]) := by
  have hnew : heap.fresh ∉ es := fun hmem => Nat.lt_irrefl _ (h.fresh _ hmem)
  have hold : ∀ e ∈ es, (heap.alloc .message).1.cells e = heap.cells e := by
    intro e he
    have hne : e ≠ heap.fresh := fun heq => hnew (heq ▸ he)
    exact Function.update_of_ne hne _ _
  have hcell : (heap.alloc .message).1.cells heap.fresh = some ⟨.message, none⟩ :=
    Function.update_self _ _ _
  obtain ⟨heap', client', henq, hchain, hfresh, hmsg⟩ :=
    entryQEnqueue_chained (h.chained.congr hold) hcell hnew
  refine ⟨heap', client', henq, hchain.queued ?_ ?_⟩
  · intro e he
    rw [hfresh]
    rcases List.mem_append.mp he with he | he
    · exact Nat.lt_succ_of_lt (h.fresh e he)
    · obtain rfl := List.mem_singleton.mp he
      exact Nat.lt_succ_self _
  · intro e he
    rw [hmsg]
    rcases List.mem_append.mp he with he | he
    · rw [hold e he]
      exact h.msg_eq he
    · obtain rfl := List.mem_singleton.mp he
      rw [hcell]
      rfl

/-- The head of the queue is taken off and can be freed. -/
theorem entryQDequeue_queued {e : Nat} (h : Queued heap client (e :: es)) :
    ∃ client', entryQDequeue heap client = some (client', some e) ∧
      Queued (heap.free e) client' es := by
  obtain ⟨client', hdeq, hchain⟩ := entryQDequeue_chained h.chained
  have hnot := (List.nodup_cons.mp h.nodup).1
  have hold : ∀ e' ∈ es, (heap.free e).cells e' = heap.cells e' := by
    intro e' he'
    have hne : e' ≠ e := fun heq => hnot (heq ▸ he')
    exact Function.update_of_ne hne _ _
  refine ⟨client', hdeq, (hchain.congr hold).queued ?_ ?_⟩
  · exact fun e' he' => h.fresh e' (List.mem_cons_of_mem _ he')
  · intro e' he'
    rw [hold e' he']
    exact h.msg_eq (List.mem_cons_of_mem _ he')

end SmeltConsensus.OnePaxos.EntryQueue
