import SmeltConsensus.Raft.Replica

/-!
The log of a replica in a run without failures: entry `a` is at address `a`, and
between a commit index `c` and a last index `k` the queue holds the first entry
and the entries from `c - 1` on. The rule for the leader's commit index.
-/

set_option autoImplicit false
set_option relaxedAutoImplicit false

namespace SmeltConsensus.Raft.Log

open SmeltConsensus.Foundation.LinkedHeap
open SmeltConsensus.Message.Header
open SmeltConsensus.Cluster.Parties
open SmeltConsensus.Raft.LogQueue
open SmeltConsensus.Raft.Replica

/-- The indices in a log whose entries up to `k` were appended and up to `c` committed. -/
def kept (c k : Nat) : List Nat :=
  0 :: List.range' (max 1 (c - 1)) (k + 1 - max 1 (c - 1))

theorem mem_kept {c k a : Nat} : a ∈ kept c k ↔ a = 0 ∨ max 1 (c - 1) ≤ a ∧ a ≤ k := by
  rw [kept, List.mem_cons, List.mem_range'_1]
  omega

theorem kept_ne_nil (c k : Nat) : kept c k ≠ [] := List.cons_ne_nil _ _

/-- The newest index is appended. -/
theorem kept_push {c k : Nat} (h : c ≤ k + 2) : kept c (k + 1) = kept c k ++ [k + 1] := by
  have hlen : k + 1 + 1 - max 1 (c - 1) = k + 1 - max 1 (c - 1) + 1 := by omega
  have hlast : max 1 (c - 1) + (k + 1 - max 1 (c - 1)) = k + 1 := by omega
  rw [kept, hlen, List.range'_concat, Nat.one_mul, hlast]
  rfl

/-- The next commit drops index `c - 1`. -/
theorem kept_advance {c k : Nat} (h2 : 2 ≤ c) (h : c ≤ k) :
    kept c k = [0] ++ (c - 1) :: List.range' c (k + 1 - c) ∧
      kept (c + 1) k = [0] ++ List.range' c (k + 1 - c) := by
  have hmax : max 1 (c - 1) = c - 1 := by omega
  have hmax' : max 1 (c + 1 - 1) = c := by omega
  have hlen : k + 1 - (c - 1) = k + 1 - c + 1 := by omega
  have hsucc : c - 1 + 1 = c := by omega
  constructor
  · rw [kept, hmax, hlen, List.range'_succ, hsucc]
    rfl
  · rw [kept, hmax']
    rfl

/-- The first two commits drop nothing. -/
theorem kept_advance_small {c k : Nat} (h : c < 2) : kept (c + 1) k = kept c k := by
  have hmax : max 1 (c + 1 - 1) = max 1 (c - 1) := by omega
  rw [kept, kept, hmax]

/-- With all entries committed, the two newest are kept. -/
theorem kept_self (k : Nat) : kept k k = 0 :: (List.range' 1 k).drop (k - 2) := by
  have hstart : max 1 (k - 1) = 1 + (k - 2) := by omega
  have hlen : k + 1 - (1 + (k - 2)) = k - (k - 2) := by omega
  rw [kept, hstart, hlen, List.drop_range', Nat.mul_one]

/-- The entry that was appended at an index, whether it is still in the queue or not. -/
def appended (heap : LogHeap) (index : Nat) : Option LogEntry :=
  ((List.range heap.fresh).find? fun a => (heap.val a).any fun e => e.index == index).bind heap.val

/-- A log with commit index `c` and last index `k`. -/
structure LogAt (heap : LogHeap) (queue : LogQueueT) (c k : Nat) : Prop where
  linked : Linked heap queue (kept c k)
  fresh : heap.fresh = k + 1
  index : ∀ a, a ≤ k → (heap.val a).map LogEntry.index = some a

namespace LogAt

variable {heap : LogHeap} {queue : LogQueueT} {c k : Nat}

theorem val_eq (h : LogAt heap queue c k) {a : Nat} (ha : a ≤ k) :
    ∃ e, heap.val a = some e ∧ e.index = a :=
  Option.map_eq_some_iff.mp (h.index a ha)

private theorem find_index {as : List Nat} {j : Nat}
    (h : ∀ a ∈ as, (heap.val a).map LogEntry.index = some a) :
    (as.find? fun a => (heap.val a).any fun e => e.index == j) =
      if j ∈ as then some j else none := by
  induction as with
  | nil => rfl
  | cons a as ih =>
    obtain ⟨e, he, hidx⟩ := Option.map_eq_some_iff.mp (h a List.mem_cons_self)
    have hany : (heap.val a).any (fun e => e.index == j) = (a == j) := by
      rw [he, ← hidx]
      rfl
    rw [List.find?_cons, hany, ih fun b hb => h b (List.mem_cons_of_mem _ hb)]
    by_cases haj : a = j
    · subst haj
      simp
    · have hja : j ≠ a := Ne.symm haj
      have hbeq : (a == j) = false := beq_false_of_ne haj
      simp [hbeq, hja]

theorem appended_eq (h : LogAt heap queue c k) (j : Nat) :
    appended heap j = if j ≤ k then heap.val j else none := by
  rw [appended, h.fresh, find_index]
  · simp only [List.mem_range, Nat.lt_succ_iff]
    split_ifs <;> rfl
  · intro a ha
    exact h.index a (Nat.le_of_lt_succ (List.mem_range.mp ha))

/-- A lookup succeeds exactly for the indices kept. -/
theorem contains (h : LogAt heap queue c k) (j : Nat) :
    queueContains heap queue j = some (if j ∈ kept c k then some j else none) := by
  rw [h.linked.queueContains, find_index]
  intro a ha
  have hlt := h.linked.lt_fresh a ha
  rw [h.fresh] at hlt
  exact h.index a (Nat.le_of_lt_succ hlt)

/-- The entries that can be reached from the head. -/
theorem indices (h : LogAt heap queue c k) {fuel : Nat} (hf : heap.fresh ≤ fuel) :
    (heap.values fuel queue.head).map LogEntry.index = kept c k := by
  rw [h.linked.head, h.linked.seg.values (h.linked.length_le.trans hf), List.map_filterMap]
  have hindex : ∀ a ∈ kept c k, (heap.val a).map LogEntry.index = some a := fun a ha => by
    have hlt := h.linked.lt_fresh a ha
    rw [h.fresh] at hlt
    exact h.index a (Nat.le_of_lt_succ hlt)
  rw [List.filterMap_congr hindex, List.filterMap_some]

/-- Before the third commit no entry is missing. -/
theorem holdsFrom (h : LogAt heap queue c k) (hc : c ≤ 2) :
    HoldsFrom heap queue (kept c k) 0 k where
  linked := h.linked
  le := Nat.zero_le k
  indices := by
    have hkept : kept c k = List.range' 0 (k + 1) := by
      have hstart : max 1 (c - 1) = 1 := by omega
      rw [kept, hstart, Nat.add_sub_cancel, List.range'_succ]
    rw [hkept]
    refine List.map_congr_left fun a ha => h.index a ?_
    rw [List.mem_range'_1] at ha
    omega

theorem push (h : LogAt heap queue c k) (hc : c ≤ k + 2) {e : LogEntry} (he : e.index = k + 1) :
    ∃ heap' queue', enqueue (heap.alloc e).1 queue (heap.alloc e).2 = some (heap', queue') ∧
      LogAt heap' queue' c (k + 1) ∧ heap'.val = Function.update heap.val (k + 1) (some e) := by
  obtain ⟨heap', queue', heq, hlinked, hfresh, hval⟩ := h.linked.enqueue (kept_ne_nil c k) e
  rw [h.fresh] at hlinked hfresh hval
  rw [← kept_push hc] at hlinked
  refine ⟨heap', queue', heq, ⟨hlinked, hfresh, ?_⟩, hval⟩
  intro a ha
  rw [hval]
  rcases Nat.lt_or_eq_of_le ha with hlt | rfl
  · rw [Function.update_of_ne (Nat.ne_of_lt hlt)]
    exact h.index a (Nat.le_of_lt_succ hlt)
  · rw [Function.update_self, Option.map_some, he]

theorem setVal (h : LogAt heap queue c k) {a : Nat} (ha : a ∈ kept c k)
    {f : LogEntry → LogEntry} (hf : ∀ e, (f e).index = e.index) :
    ∃ heap', heap.setVal (some a) f = some heap' ∧ LogAt heap' queue c k ∧
      heap'.val = Function.update heap.val a ((heap.val a).map f) := by
  obtain ⟨heap', heq, hlinked, hfresh, hval⟩ := h.linked.setVal ha f
  refine ⟨heap', heq, ⟨hlinked, hfresh.trans h.fresh, ?_⟩, hval⟩
  intro b hb
  rw [hval]
  by_cases hba : b = a
  · subst hba
    obtain ⟨e, he, hidx⟩ := h.val_eq hb
    rw [Function.update_self, he, Option.map_some, Option.map_some, hf, hidx]
  · rw [Function.update_of_ne hba]
    exact h.index b hb

private theorem of_linked (h : LogAt heap queue c k) {heap' : LogHeap} {c' : Nat}
    (hlinked : Linked heap' queue (kept c' k)) (hfresh : heap'.fresh = heap.fresh)
    (hval : heap'.val = heap.val) : LogAt heap' queue c' k :=
  ⟨hlinked, hfresh.trans h.fresh, fun a ha => by rw [hval]; exact h.index a ha⟩

/-- A follower that has executed entry `c + 1` removes entry `c - 1`. -/
theorem remove (h : LogAt heap queue c k) (hc : c + 1 ≤ k) (replica : RaftReplicaT)
    (hheap : replica.heap = heap) (hqueue : replica.queue = queue)
    (happlied : replica.lastApplied = c + 1) :
    ∃ heap', removeExecuted replica = some heap' ∧ LogAt heap' queue (c + 1) k ∧
      heap'.val = heap.val := by
  unfold removeExecuted
  rw [hheap, hqueue, happlied]
  by_cases h2 : 2 ≤ c
  · have hgt : c + 1 > 2 := by omega
    obtain ⟨hkept, hkept'⟩ := kept_advance h2 (Nat.le_of_succ_le hc)
    have hmem : c - 1 ∈ kept c k := mem_kept.mpr (by omega)
    have hfound := h.contains (c - 1)
    rw [if_pos hmem] at hfound
    have hlinked := h.linked
    rw [hkept] at hlinked
    have hne : List.range' c (k + 1 - c) ≠ [] := by
      rw [Ne, List.range'_eq_nil_iff]
      omega
    obtain ⟨heap₁, heq, hlinked₁, hfresh₁, hval₁, hcell₁⟩ :=
      hlinked.removeEntry (List.cons_ne_nil _ _) hne hfound
    obtain ⟨node, hnode, hlive⟩ := h.linked.seg.live hmem
    have hout : c - 1 ∉ [0] ++ List.range' c (k + 1 - c) := by
      rw [← hkept', mem_kept]
      omega
    obtain ⟨heap₂, heq₂, hlinked₂, hfresh₂, hval₂⟩ :=
      hlinked₁.free hout (hcell₁.trans hnode) hlive
    rw [← hkept'] at hlinked₂
    refine ⟨heap₂, ?_, h.of_linked hlinked₂ (hfresh₂.trans hfresh₁) (hval₂.trans hval₁),
      hval₂.trans hval₁⟩
    have hsub : c + 1 - 2 = c - 1 := by omega
    rw [if_pos hgt, hsub, heq, Option.bind_some]
    exact heq₂
  · have hle : ¬ c + 1 > 2 := by omega
    rw [if_neg hle]
    have hlinked := h.linked
    rw [← kept_advance_small (by omega)] at hlinked
    exact ⟨heap, rfl, h.of_linked hlinked rfl rfl, rfl⟩

/-- A leader that has executed entry `c + 1` frees entry `c - 1`, which every replica has. -/
theorem clean (h : LogAt heap queue c k) (hc : c + 1 ≤ k) {n : Nat}
    (hfirst : ∀ e, heap.val 0 = some e → e.execCount ≠ n)
    (hold : ∀ e, 1 ≤ c - 1 → heap.val (c - 1) = some e → e.execCount = n) :
    ∃ heap', cleanupQueue n (c + 1) heap queue = some heap' ∧ LogAt heap' queue (c + 1) k ∧
      heap'.val = heap.val := by
  have hpred : pred64 (c + 1) = c := rfl
  have hstay : ∀ a, a ≤ k → a = 0 ∨ c ≤ a → (heap.val a).any (cleanable n (c + 1)) = false := by
    intro a ha hcase
    obtain ⟨e, he, hidx⟩ := h.val_eq ha
    rw [he, Option.any_some, cleanable, hpred, hidx]
    rcases hcase with rfl | hle
    · have hne := hfirst e he
      simp [hne]
    · simp [hle]
  by_cases h2 : 2 ≤ c
  · obtain ⟨hkept, hkept'⟩ := kept_advance h2 (Nat.le_of_succ_le hc)
    have hgo : (heap.val (c - 1)).any (cleanable n (c + 1)) = true := by
      obtain ⟨e, he, hidx⟩ := h.val_eq (a := c - 1) (by omega)
      have hcount := hold e (by omega) he
      have hlt : c - 1 < c := by omega
      rw [he, Option.any_some, cleanable, hpred, hidx, hcount]
      simp [hlt]
    have hfilter : (kept c k).filter (fun a => !(heap.val a).any (cleanable n (c + 1))) =
        kept (c + 1) k := by
      have hrest : (List.range' c (k + 1 - c)).filter
          (fun a => !(heap.val a).any (cleanable n (c + 1))) = List.range' c (k + 1 - c) := by
        refine List.filter_eq_self.mpr fun a ha => ?_
        rw [List.mem_range'_1] at ha
        rw [hstay a (by omega) (Or.inr ha.1)]
        rfl
      have hzero := hstay 0 (Nat.zero_le k) (Or.inl rfl)
      rw [hkept, hkept', List.singleton_append, List.filter_cons_of_pos (by rw [hzero]; rfl),
        List.filter_cons_of_neg (by rw [hgo]; decide), hrest]
      rfl
    have hlast : (kept (c + 1) k).getLast? = (kept c k).getLast? := by
      have hne : List.range' c (k + 1 - c) ≠ [] := by
        rw [Ne, List.range'_eq_nil_iff]
        omega
      rw [hkept, hkept', List.append_cons, List.getLast?_append_of_ne_nil _ hne,
        List.getLast?_append_of_ne_nil _ hne]
    obtain ⟨heap', heq, hlinked, hfresh, hval⟩ :=
      h.linked.cleanupQueue n (c + 1) hfilter rfl hlast
    exact ⟨heap', heq, h.of_linked hlinked hfresh hval, hval⟩
  · have hfilter : (kept c k).filter (fun a => !(heap.val a).any (cleanable n (c + 1))) =
        kept (c + 1) k := by
      rw [kept_advance_small (by omega)]
      refine List.filter_eq_self.mpr fun a ha => ?_
      rw [mem_kept] at ha
      rw [hstay a (by omega) (by omega)]
      rfl
    have hlinked := h.linked
    obtain ⟨heap', heq, hlinked, hfresh, hval⟩ :=
      h.linked.cleanupQueue n (c + 1) hfilter rfl (by rw [kept_advance_small (by omega)])
    exact ⟨heap', heq, h.of_linked hlinked hfresh hval, hval⟩

end LogAt

/-- The log after `init_replica_raft`. -/
theorem logAt_init : LogAt initLog.1 initLog.2 0 0 where
  linked := ⟨⟨⟨firstEntry, rfl⟩, trivial⟩, by decide, rfl, rfl, by decide⟩
  fresh := rfl
  index a ha := by
    obtain rfl : a = 0 := Nat.le_zero.mp ha
    rfl

end SmeltConsensus.Raft.Log
