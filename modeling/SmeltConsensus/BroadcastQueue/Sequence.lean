import Mathlib.Algebra.Group.Nat.Defs
import Mathlib.Logic.Function.Basic
import SmeltConsensus.BroadcastQueue.Shm

/-!
The broadcast queue of `shm_queue4.c`: one writer, `R` readers, and slots whose
first word is the sequence number of the message in them. A reader publishes its
position at every sixteenth message only, and the writer looks at the published
positions only when its sequence number reaches the limit it computed last.

A step is a `shm_send_raw` that does not look at the readers, one load of a published
position in `get_next_sync`, what follows its loop, or a `shm_receive_non_blocking`.
The positions are volatile, and the loop loads one that is below its minimum twice.
-/

set_option autoImplicit false
set_option relaxedAutoImplicit false

namespace SmeltConsensus.BroadcastQueue.Sequence

open SmeltConsensus.BroadcastQueue.Shm (slots)

variable {α : Type} {R : Nat}

/-- The fields of `struct shm_queue` that this variant uses. -/
structure ShmQueue where
  numSlots : Nat
  lPos : Nat
  nextSync : Nat
  nextSeq : Nat

def shmInitContext (numReaders : Nat) : ShmQueue :=
  { numSlots := slots numReaders, lPos := 0, nextSync := slots numReaders - 1, nextSeq := 1 }

/-- A slot: word 0 and the message in the words 1 to 7. -/
structure Slot (α : Type) where
  seq : Nat
  msg : α

/-- The shared memory: `readers_pos[i].p[0]` and the slots from `data` on. -/
structure Shm (α : Type) (R : Nat) where
  readersPos : Fin R → Nat
  data : Nat → Slot α

/-- The message of a send in `get_next_sync`, with the variables of its loop. Between the
comparison with a position and the assignment of it, `below` is set. -/
structure Scan (α : Type) where
  msg : α
  i : Nat
  min : Nat
  below : Bool

/-- The writer, its readers and the shared memory, with the messages sent and received. -/
structure State (α : Type) (R : Nat) where
  writer : ShmQueue
  scan : Option (Scan α)
  shm : Shm α R
  readers : Fin R → ShmQueue
  sent : List α
  received : Fin R → List α

/-- Zeroed memory and a new context for everyone. -/
def init (R : Nat) (zero : α) : State α R where
  writer := shmInitContext R
  scan := none
  shm := ⟨fun _ => 0, fun _ => ⟨0, zero⟩⟩
  readers _ := shmInitContext R
  sent := []
  received _ := []

/-- The `min` that `get_next_sync` starts with. -/
def scanStart (msg : α) : Scan α := ⟨msg, 0, 0xFFFFFFFF, false⟩

/-- One load in the loop of `get_next_sync`: of the comparison, or of the assignment. -/
def Scan.load (scan : Scan α) (pos : Nat) : Scan α :=
  if scan.below then { scan with i := scan.i + 1, min := pos, below := false }
  else if scan.min > pos then { scan with below := true }
  else { scan with i := scan.i + 1 }

/-- The minimum after a position that does not change between the two loads. -/
def lower (min pos : Nat) : Nat := if min > pos then pos else min

/-- What `get_next_sync` computes where no position changes meanwhile. -/
def getNextSync (shm : Shm α R) (numSlots : Nat) : Nat :=
  ((List.finRange R).map shm.readersPos).foldl lower 0xFFFFFFFF + (numSlots - 1)

/-- The first test of `shm_send_raw`. -/
def ShmQueue.wrap (q : ShmQueue) : ShmQueue :=
  if q.lPos = q.numSlots then { q with lPos := 0 } else q

/-- The rest of `shm_send_raw` from the slot's address on. -/
def State.put (s : State α R) (msg : α) : State α R :=
  { s with
    writer := { s.writer with nextSeq := s.writer.nextSeq + 1, lPos := s.writer.lPos + 1 }
    shm := { s.shm with
      data := Function.update s.shm.data s.writer.lPos ⟨s.writer.nextSeq, msg⟩ }
    sent := s.sent ++ [msg] }

/-- `shm_receive_non_blocking` of reader `id`: the message if it returns true. -/
def shmReceiveNonBlocking (shm : Shm α R) (id : Fin R) (q : ShmQueue) :
    Option α × Shm α R × ShmQueue :=
  if q.nextSeq = (shm.data q.lPos).seq then
    let lPos := q.lPos + 1
    let nextSeq := q.nextSeq + 1
    (some (shm.data q.lPos).msg,
      if nextSeq &&& 0xF = 0 then
        { shm with readersPos := Function.update shm.readersPos id (nextSeq - 1) }
      else shm,
      { q with lPos := if lPos = q.numSlots then 0 else lPos, nextSeq := nextSeq })
  else (none, shm, q)

inductive Step (α : Type) (R : Nat)
  | send (msg : α)
  | poll
  | sync
  | receive (i : Fin R)

def step (s : State α R) : Step α R → Option (State α R)
  | .send msg =>
    match s.scan with
    | none =>
      let t := { s with writer := s.writer.wrap }
      if t.writer.nextSeq = t.writer.nextSync then some { t with scan := some (scanStart msg) }
      else some (t.put msg)
    | some _ => none
  | .poll =>
    match s.scan with
    | none => none
    | some scan =>
      if h : scan.i < R then
        some { s with scan := some (scan.load (s.shm.readersPos ⟨scan.i, h⟩)) }
      else none
  | .sync =>
    match s.scan with
    | none => none
    | some scan =>
      if scan.i < R then none
      else
        let nextSync := scan.min + (s.writer.numSlots - 1)
        if s.writer.nextSeq = nextSync then some { s with scan := some (scanStart scan.msg) }
        else
          some ({ s with
            writer := { s.writer with nextSync := nextSync }
            scan := none }.put scan.msg)
  | .receive i =>
    let r := shmReceiveNonBlocking s.shm i (s.readers i)
    some { s with
      shm := r.2.1
      readers := Function.update s.readers i r.2.2
      received := Function.update s.received i (s.received i ++ r.1.toList) }

theorem wrap_eq (q : ShmQueue) : q.wrap.nextSeq = q.nextSeq ∧ q.wrap.nextSync = q.nextSync ∧
    q.wrap.numSlots = q.numSlots ∧ q.wrap.lPos = if q.lPos = q.numSlots then 0 else q.lPos := by
  unfold ShmQueue.wrap
  split
  · exact ⟨rfl, rfl, rfl, rfl⟩
  · exact ⟨rfl, rfl, rfl, rfl⟩

theorem lower_le (min pos : Nat) : lower min pos ≤ min ∧ lower min pos ≤ pos := by
  unfold lower
  split <;> omega

theorem le_lower {min pos b : Nat} (hmin : b ≤ min) (hpos : b ≤ pos) : b ≤ lower min pos := by
  unfold lower
  split
  · exact hpos
  · exact hmin

/-- Everything a step can do. -/
theorem step_cases {s s' : State α R} {a : Step α R} (h : step s a = some s') :
    (∃ msg, a = .send msg ∧ s.scan = none ∧ s.writer.nextSeq ≠ s.writer.nextSync ∧
      s' = { s with writer := s.writer.wrap }.put msg) ∨
    (∃ msg, a = .send msg ∧ s.scan = none ∧ s.writer.nextSeq = s.writer.nextSync ∧
      s' = { s with writer := s.writer.wrap, scan := some (scanStart msg) }) ∨
    (∃ scan, ∃ hi : scan.i < R, a = .poll ∧ s.scan = some scan ∧
      s' = { s with scan := some (scan.load (s.shm.readersPos ⟨scan.i, hi⟩)) }) ∨
    (∃ scan, a = .sync ∧ s.scan = some scan ∧ R ≤ scan.i ∧
      s.writer.nextSeq = scan.min + (s.writer.numSlots - 1) ∧
      s' = { s with scan := some (scanStart scan.msg) }) ∨
    (∃ scan, a = .sync ∧ s.scan = some scan ∧ R ≤ scan.i ∧
      s.writer.nextSeq ≠ scan.min + (s.writer.numSlots - 1) ∧
      s' = { s with
        writer := { s.writer with nextSync := scan.min + (s.writer.numSlots - 1) }
        scan := none }.put scan.msg) ∨
    (∃ i, a = .receive i ∧ s' = { s with
      shm := (shmReceiveNonBlocking s.shm i (s.readers i)).2.1
      readers := Function.update s.readers i (shmReceiveNonBlocking s.shm i (s.readers i)).2.2
      received := Function.update s.received i
        (s.received i ++ (shmReceiveNonBlocking s.shm i (s.readers i)).1.toList) }) := by
  obtain ⟨hseq, hsync, -, -⟩ := wrap_eq s.writer
  cases a with
  | send msg =>
    cases hscan : s.scan with
    | none =>
      simp only [step, hscan, hseq, hsync] at h
      split at h
      · rename_i heq
        exact .inr (.inl ⟨msg, rfl, rfl, heq, (Option.some.inj h).symm⟩)
      · rename_i hne
        exact .inl ⟨msg, rfl, rfl, hne, (Option.some.inj h).symm⟩
    | some scan => simp only [step, hscan, reduceCtorEq] at h
  | poll =>
    cases hscan : s.scan with
    | none => simp only [step, hscan, reduceCtorEq] at h
    | some scan =>
      simp only [step, hscan] at h
      split at h
      · rename_i hi
        exact .inr (.inr (.inl ⟨scan, hi, rfl, rfl, (Option.some.inj h).symm⟩))
      · cases h
  | sync =>
    cases hscan : s.scan with
    | none => simp only [step, hscan, reduceCtorEq] at h
    | some scan =>
      simp only [step, hscan] at h
      split at h
      · cases h
      · rename_i hi
        split at h
        · rename_i heq
          exact .inr (.inr (.inr (.inl ⟨scan, rfl, rfl, Nat.le_of_not_lt hi, heq,
            (Option.some.inj h).symm⟩)))
        · rename_i hne
          exact .inr (.inr (.inr (.inr (.inl ⟨scan, rfl, rfl, Nat.le_of_not_lt hi, hne,
            (Option.some.inj h).symm⟩))))
  | receive i => exact .inr (.inr (.inr (.inr (.inr ⟨i, rfl, (Option.some.inj h).symm⟩))))

end SmeltConsensus.BroadcastQueue.Sequence
