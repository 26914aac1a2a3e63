import SmeltConsensus.Foundation.Ring

/-!
The shared-memory queue: one writer, `R` readers, and a ring of slots in which
equal positions mean that nothing is left to read.
-/

set_option autoImplicit false
set_option relaxedAutoImplicit false

namespace SmeltConsensus.SharedQueue.Queue

open SmeltConsensus.Foundation.Ring

variable {α : Type} {R : Nat}

/-- The shared part of `shm_queue_t`; a slot is `slot_size` bytes from `shm + pos * slot_size` on. -/
structure ShmQueueT (α : Type) (R : Nat) where
  numSlots : Nat
  shm : Nat → α
  writePos : Nat
  readersPos : Fin R → Nat

/-- `check_readers_end`: every reader is back at slot 0. -/
def checkReadersEnd (q : ShmQueueT α R) : Bool :=
  (List.finRange R).all fun i => q.readersPos i == 0

/-- The `memcpy` into the slot at `write_pos` and the advance of `write_pos` after it. -/
def ShmQueueT.put (q : ShmQueueT α R) (cmd : α) : ShmQueueT α R :=
  { q with
    shm := Function.update q.shm q.writePos cmd
    writePos := next q.numSlots q.writePos }

/-- The advance of `readers_pos[i]`. -/
def ShmQueueT.advance (q : ShmQueueT α R) (i : Fin R) : ShmQueueT α R :=
  { q with readersPos := Function.update q.readersPos i (next q.numSlots (q.readersPos i)) }

/-- `shm_write`, or none while it spins on the readers. -/
def shmWrite (q : ShmQueueT α R) (cmd : α) : Option (ShmQueueT α R) :=
  if q.writePos = 0 ∧ checkReadersEnd q = false then
    none
  else
    some (q.put cmd)

/-- `shm_read` by reader `i`: the slot it may use, or none for the null pointer. -/
def shmRead (q : ShmQueueT α R) (i : Fin R) : Option Nat × ShmQueueT α R :=
  if q.readersPos i = q.writePos then
    (none, q)
  else
    (some (q.readersPos i), q.advance i)

theorem checkReadersEnd_eq_true {q : ShmQueueT α R} :
    checkReadersEnd q = true ↔ ∀ i, q.readersPos i = 0 := by
  simp [checkReadersEnd]

/-- The queue, the `cmd` each reader holds between its read and its execute, and what was done. -/
structure State (α : Type) (R : Nat) where
  queue : ShmQueueT α R
  cmd : Fin R → Option Nat
  written : List α
  executed : Fin R → List α

/-- One step of the writer or of the loop in `poll_and_execute` of a reader. -/
inductive Step (α : Type) (R : Nat)
  | write (c : α)
  | read (i : Fin R)
  | execute (i : Fin R)

def step (s : State α R) : Step α R → Option (State α R)
  | .write c =>
    (shmWrite s.queue c).map fun q => { s with queue := q, written := s.written ++ [c] }
  | .read i =>
    if s.cmd i = none then
      some { s with
        queue := (shmRead s.queue i).2
        cmd := Function.update s.cmd i (shmRead s.queue i).1 }
    else
      none
  | .execute i =>
    (s.cmd i).map fun p =>
      { s with
        cmd := Function.update s.cmd i none
        executed := Function.update s.executed i (s.executed i ++ [s.queue.shm p]) }

def run (s : State α R) (as : List (Step α R)) : Option (State α R) := as.foldlM step s

/-- All positions at 0, and nothing written. -/
def init (numSlots : Nat) (shm : Nat → α) : State α R where
  queue := ⟨numSlots, shm, 0, fun _ => 0⟩
  cmd _ := none
  written := []
  executed _ := []

theorem run_snoc (s : State α R) (as : List (Step α R)) (a : Step α R) :
    run s (as ++ [a]) = (run s as).bind fun s' => step s' a := by
  rw [run, List.foldlM_append]
  simp only [List.foldlM_cons, List.foldlM_nil, bind_pure]
  rfl

theorem run_cons (s : State α R) (a : Step α R) (as : List (Step α R)) :
    run s (a :: as) = (step s a).bind fun s' => run s' as := by
  rw [run, List.foldlM_cons]
  rfl

theorem shmWrite_eq {q q' : ShmQueueT α R} {c : α} (h : shmWrite q c = some q') :
    (q.writePos = 0 → ∀ i, q.readersPos i = 0) ∧ q' = q.put c := by
  unfold shmWrite at h
  split at h
  · cases h
  · rename_i hwait
    refine ⟨fun h0 => ?_, (Option.some.inj h).symm⟩
    rw [← checkReadersEnd_eq_true]
    exact Bool.of_not_eq_false fun hf => hwait ⟨h0, hf⟩

/-- Everything a step can do. -/
theorem step_cases {s s' : State α R} {a : Step α R} (h : step s a = some s') :
    (∃ c, a = .write c ∧ (s.queue.writePos = 0 → ∀ i, s.queue.readersPos i = 0) ∧
      s' = { s with queue := s.queue.put c, written := s.written ++ [c] }) ∨
    (∃ i, a = .read i ∧ s.cmd i = none ∧ s.queue.readersPos i = s.queue.writePos ∧ s' = s) ∨
    (∃ i, a = .read i ∧ s.cmd i = none ∧ s.queue.readersPos i ≠ s.queue.writePos ∧
      s' = { s with
        queue := s.queue.advance i
        cmd := Function.update s.cmd i (some (s.queue.readersPos i)) }) ∨
    (∃ i p, a = .execute i ∧ s.cmd i = some p ∧
      s' = { s with
        cmd := Function.update s.cmd i none
        executed := Function.update s.executed i (s.executed i ++ [s.queue.shm p]) }) := by
  cases a with
  | write c =>
    left
    obtain ⟨q, hq, rfl⟩ := Option.map_eq_some_iff.mp h
    obtain ⟨hwait, rfl⟩ := shmWrite_eq hq
    exact ⟨c, rfl, hwait, rfl⟩
  | read i =>
    right
    by_cases hnone : s.cmd i = none
    · simp only [step, if_pos hnone, Option.some.injEq] at h
      by_cases hempty : s.queue.readersPos i = s.queue.writePos
      · left
        rw [shmRead, if_pos hempty, ← hnone, Function.update_eq_self] at h
        exact ⟨i, rfl, hnone, hempty, h.symm⟩
      · right
        left
        rw [shmRead, if_neg hempty] at h
        exact ⟨i, rfl, hnone, hempty, h.symm⟩
    · simp only [step, if_neg hnone, reduceCtorEq] at h
  | execute i =>
    right
    right
    right
    obtain ⟨p, hp, rfl⟩ := Option.map_eq_some_iff.mp h
    exact ⟨i, p, rfl, hp, rfl⟩

end SmeltConsensus.SharedQueue.Queue
