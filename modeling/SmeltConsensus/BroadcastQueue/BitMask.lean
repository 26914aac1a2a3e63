import Mathlib.Logic.Function.Basic
import SmeltConsensus.BroadcastQueue.Shm

/-!
The broadcast queue of `shm_queue3.c`: word 0 of a slot has one bit for each reader
that has yet to take the message in it. The writer waits until the word is 0, and
each reader clears its own bit with a compare-and-swap.

A step is one access to shared memory: the test of a header, the payload of a slot, the
store of a header, one of the two loads before a compare-and-swap, or that itself.
-/

set_option autoImplicit false
set_option relaxedAutoImplicit false

namespace SmeltConsensus.BroadcastQueue.BitMask

open SmeltConsensus.BroadcastQueue.Shm (SHMQ_SIZE)

variable {α : Type} {R : Nat}

/-- The fields of `struct shm_queue` that this variant uses. -/
structure ShmQueue where
  id : Nat
  numSlots : Nat
  lPos : Nat
  rMask : BitVec 64
  wMask : BitVec 64

def shmInitContext (numReaders id : Nat) : ShmQueue where
  id := id
  numSlots := SHMQ_SIZE
  lPos := 0
  rMask := 1 <<< id
  wMask := (List.range (numReaders - 1)).foldl (fun mask _ => mask ||| (mask <<< 1)) 1

/-- The advance of `l_pos`. -/
def ShmQueue.advance (q : ShmQueue) : ShmQueue :=
  { q with lPos := if q.lPos + 1 = q.numSlots then 0 else q.lPos + 1 }

def bitIsSet (id : Nat) (start : BitVec 64) : Bool :=
  let mask : BitVec 64 := 1 <<< id
  if start &&& mask = 0 then false else true

/-- Where the writer is in `shm_send_raw`: outside, before the test of the header, before the
payload, before the header store to `slot_start`. -/
inductive WriterPc (α : Type)
  | idle
  | test (msg : α)
  | payload (msg : α)
  | header (slotStart : Nat)

/-- Where a reader is in `shm_receive_non_blocking`: before its test, before the payload, before
the load of `old`, before the load for `new_v`, before the compare-and-swap. -/
inductive ReaderPc
  | idle
  | payload
  | loadOld
  | loadNew (old : BitVec 64)
  | cas (old newV : BitVec 64)

/-- The slots' headers and messages, the parties, and the messages written and read. -/
structure State (α : Type) (R : Nat) where
  header : Nat → BitVec 64
  data : Nat → α
  writer : ShmQueue
  writerPc : WriterPc α
  readers : Fin R → ShmQueue
  readerPc : Fin R → ReaderPc
  sent : List α
  received : Fin R → List α

/-- Zeroed memory and a new context for everyone. -/
def init (R : Nat) (zero : α) : State α R where
  header _ := 0
  data _ := zero
  writer := shmInitContext R 0
  writerPc := .idle
  readers i := shmInitContext R i
  readerPc _ := .idle
  sent := []
  received _ := []

/-- The next step inside of `shm_send_raw`, or none while the slot is not free. -/
def writerStep (s : State α R) : Option (State α R) :=
  match s.writerPc with
  | .idle => none
  | .test msg =>
    if s.header s.writer.lPos = 0 then some { s with writerPc := .payload msg } else none
  | .payload msg =>
    some { s with
      data := Function.update s.data s.writer.lPos msg
      writer := s.writer.advance
      writerPc := .header s.writer.lPos
      sent := s.sent ++ [msg] }
  | .header slotStart =>
    some { s with
      header := Function.update s.header slotStart s.writer.wMask
      writerPc := .idle }

/-- The next step of a reader, or none where `shm_receive_non_blocking` returns false. -/
def readerStep (s : State α R) (i : Fin R) : Option (State α R) :=
  let q := s.readers i
  match s.readerPc i with
  | .idle =>
    if bitIsSet q.id (s.header q.lPos) then
      some { s with readerPc := Function.update s.readerPc i .payload }
    else none
  | .payload =>
    some { s with
      readerPc := Function.update s.readerPc i .loadOld
      received := Function.update s.received i (s.received i ++ [s.data q.lPos]) }
  | .loadOld =>
    some { s with readerPc := Function.update s.readerPc i (.loadNew (s.header q.lPos)) }
  | .loadNew old =>
    some { s with
      readerPc := Function.update s.readerPc i (.cas old (s.header q.lPos ^^^ q.rMask)) }
  | .cas old newV =>
    if s.header q.lPos = old then
      some { s with
        header := Function.update s.header q.lPos newV
        readers := Function.update s.readers i q.advance
        readerPc := Function.update s.readerPc i .idle }
    else some { s with readerPc := Function.update s.readerPc i .loadOld }

inductive Step (α : Type) (R : Nat)
  | send (msg : α)
  | writer
  | reader (i : Fin R)

def step (s : State α R) : Step α R → Option (State α R)
  | .send msg =>
    match s.writerPc with
    | .idle => some { s with writerPc := .test msg }
    | .test _ => none
    | .payload _ => none
    | .header _ => none
  | .writer => writerStep s
  | .reader i => readerStep s i

section Cases

variable {α : Type} {R : Nat} {s s' : State α R}

/-- Everything a step inside of `shm_send_raw` can do. -/
theorem writerStep_cases (h : writerStep s = some s') :
    (∃ msg, s.writerPc = .test msg ∧ s.header s.writer.lPos = 0 ∧
      s' = { s with writerPc := .payload msg }) ∨
    (∃ msg, s.writerPc = .payload msg ∧ s' = { s with
      data := Function.update s.data s.writer.lPos msg
      writer := s.writer.advance
      writerPc := .header s.writer.lPos
      sent := s.sent ++ [msg] }) ∨
    (∃ slotStart, s.writerPc = .header slotStart ∧ s' = { s with
      header := Function.update s.header slotStart s.writer.wMask
      writerPc := .idle }) := by
  unfold writerStep at h
  cases hpc : s.writerPc with
  | idle => simp only [hpc, reduceCtorEq] at h
  | test msg =>
    simp only [hpc] at h
    split at h
    · rename_i hzero
      exact .inl ⟨msg, rfl, hzero, (Option.some.inj h).symm⟩
    · cases h
  | payload msg =>
    simp only [hpc] at h
    exact .inr (.inl ⟨msg, rfl, (Option.some.inj h).symm⟩)
  | header slotStart =>
    simp only [hpc] at h
    exact .inr (.inr ⟨slotStart, rfl, (Option.some.inj h).symm⟩)

/-- Everything a step of a reader can do; the first case is the only one that changes a header. -/
theorem readerStep_cases {i : Fin R} (h : readerStep s i = some s') :
    (∃ old newV, s.readerPc i = .cas old newV ∧ s.header (s.readers i).lPos = old ∧
      s' = { s with
        header := Function.update s.header (s.readers i).lPos newV
        readers := Function.update s.readers i (s.readers i).advance
        readerPc := Function.update s.readerPc i .idle }) ∨
    (s.readerPc i = .idle ∧ bitIsSet (s.readers i).id (s.header (s.readers i).lPos) = true ∧
      s' = { s with readerPc := Function.update s.readerPc i .payload }) ∨
    (s.readerPc i = .payload ∧ s' = { s with
      readerPc := Function.update s.readerPc i .loadOld
      received := Function.update s.received i
        (s.received i ++ [s.data (s.readers i).lPos]) }) ∨
    (s.readerPc i = .loadOld ∧ s' = { s with
      readerPc := Function.update s.readerPc i (.loadNew (s.header (s.readers i).lPos)) }) ∨
    (∃ old, s.readerPc i = .loadNew old ∧ s' = { s with
      readerPc := Function.update s.readerPc i
        (.cas old (s.header (s.readers i).lPos ^^^ (s.readers i).rMask)) }) ∨
    (∃ old newV, s.readerPc i = .cas old newV ∧
      s' = { s with readerPc := Function.update s.readerPc i .loadOld }) := by
  unfold readerStep at h
  cases hpc : s.readerPc i with
  | idle =>
    simp only [hpc] at h
    split at h
    · rename_i hset
      exact .inr (.inl ⟨rfl, hset, (Option.some.inj h).symm⟩)
    · cases h
  | payload =>
    simp only [hpc] at h
    exact .inr (.inr (.inl ⟨rfl, (Option.some.inj h).symm⟩))
  | loadOld =>
    simp only [hpc] at h
    exact .inr (.inr (.inr (.inl ⟨rfl, (Option.some.inj h).symm⟩)))
  | loadNew old =>
    simp only [hpc] at h
    exact .inr (.inr (.inr (.inr (.inl ⟨old, rfl, (Option.some.inj h).symm⟩))))
  | cas old newV =>
    simp only [hpc] at h
    split at h
    · rename_i hsame
      exact .inl ⟨old, newV, rfl, hsame, (Option.some.inj h).symm⟩
    · exact .inr (.inr (.inr (.inr (.inr ⟨old, newV, rfl, (Option.some.inj h).symm⟩))))

theorem send_cases {msg : α} (h : step s (.send msg) = some s') :
    s.writerPc = .idle ∧ s' = { s with writerPc := .test msg } := by
  unfold step at h
  cases hpc : s.writerPc with
  | idle =>
    simp only [hpc] at h
    exact ⟨rfl, (Option.some.inj h).symm⟩
  | test msg' => simp only [hpc, reduceCtorEq] at h
  | payload msg' => simp only [hpc, reduceCtorEq] at h
  | header slotStart => simp only [hpc, reduceCtorEq] at h

end Cases

end SmeltConsensus.BroadcastQueue.BitMask
