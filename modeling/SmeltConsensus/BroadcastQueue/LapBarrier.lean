import Mathlib.Logic.Function.Basic
import SmeltConsensus.BroadcastQueue.Shm

/-!
The broadcast queue of `shm_queue.c`: one lap through the slots at a time. A reader
stores `END` at the end of the lap and waits; the writer waits for all of them, goes back
to the first slot and then releases each reader with `RESET`.

A step is one access to shared memory or the choice of the branch that follows it.
-/

set_option autoImplicit false
set_option relaxedAutoImplicit false

namespace SmeltConsensus.BroadcastQueue.LapBarrier

open SmeltConsensus.BroadcastQueue.Shm (slots)

variable {α : Type} {R : Nat}

def END : Nat := 1

def RESET : Nat := 9

/-- The shared memory; a slot has the seven words of a message. -/
structure Shm (α : Type) (R : Nat) where
  writePos : Nat
  readersPos : Fin R → Nat
  data : Nat → α

def checkReaderP (shm : Shm α R) (id : Fin R) : Bool :=
  if shm.readersPos id = 9 then false else true

/-- Where the writer is in `shm_send_raw`: outside, before the test for the end of the lap,
before the check of reader `i` (or before it goes back to the first slot, if there is no reader
`i`), before the reset of reader `i`, before the slot write, before the update of its position. -/
inductive WriterPc (α : Type)
  | idle
  | test (msg : α)
  | check (msg : α) (i : Nat)
  | release (msg : α) (i : Nat)
  | slot (msg : α)
  | move

/-- Where a reader is in `shm_receive_non_blocking`: outside, before the check of its status,
before the test of the position, before the slot read. -/
inductive ReaderPc
  | idle
  | wait
  | test
  | read
  deriving DecidableEq

/-- The memory, the parties and the messages written and read. -/
structure State (α : Type) (R : Nat) where
  shm : Shm α R
  writer : WriterPc α
  lPos : Fin R → Nat
  readers : Fin R → ReaderPc
  sent : List α
  received : Fin R → List α

/-- Zeroed memory. -/
def init (R : Nat) (zero : α) : State α R where
  shm := ⟨0, fun _ => 0, fun _ => zero⟩
  writer := .idle
  lPos _ := 0
  readers _ := .idle
  sent := []
  received _ := []

/-- The next step inside of `shm_send_raw`. -/
def writerStep (s : State α R) : Option (State α R) :=
  match s.writer with
  | .idle => none
  | .test msg =>
    some { s with writer := if s.shm.writePos = slots R then .check msg 0 else .slot msg }
  | .check msg i =>
    if h : i < R then
      -- `check_readers_end` starts again at the first reader
      if s.shm.readersPos ⟨i, h⟩ = END then some { s with writer := .check msg (i + 1) }
      else some { s with writer := .check msg 0 }
    else some { s with shm := { s.shm with writePos := 0 }, writer := .release msg 0 }
  | .release msg i =>
    if h : i < R then
      some { s with
        shm := { s.shm with readersPos := Function.update s.shm.readersPos ⟨i, h⟩ RESET }
        writer := .release msg (i + 1) }
    else some { s with writer := .slot msg }
  | .slot msg =>
    some { s with
      shm := { s.shm with data := Function.update s.shm.data s.shm.writePos msg }
      writer := .move
      sent := s.sent ++ [msg] }
  | .move => some { s with shm := { s.shm with writePos := s.shm.writePos + 1 }, writer := .idle }

/-- A step of reader `i` to `pc`. -/
def State.moveReader (s : State α R) (i : Fin R) (pc : ReaderPc) : State α R :=
  { s with readers := Function.update s.readers i pc }

/-- The next step of a reader, or none while it spins on its status. -/
def readerStep (s : State α R) (i : Fin R) : Option (State α R) :=
  match s.readers i with
  | .idle =>
    if s.lPos i = slots R then
      some { s with
        shm := { s.shm with readersPos := Function.update s.shm.readersPos i END }
        lPos := Function.update s.lPos i 0
        readers := Function.update s.readers i .wait }
    else some (s.moveReader i .test)
  | .wait => if checkReaderP s.shm i then none else some (s.moveReader i .test)
  | .test =>
    if s.lPos i = s.shm.writePos then some (s.moveReader i .idle) else some (s.moveReader i .read)
  | .read =>
    some { s with
      lPos := Function.update s.lPos i (s.lPos i + 1)
      readers := Function.update s.readers i .idle
      received := Function.update s.received i (s.received i ++ [s.shm.data (s.lPos i)]) }

inductive Step (α : Type) (R : Nat)
  | send (msg : α)
  | writer
  | reader (i : Fin R)

def step (s : State α R) : Step α R → Option (State α R)
  | .send msg =>
    match s.writer with
    | .idle => some { s with writer := .test msg }
    | _ => none
  | .writer => writerStep s
  | .reader i => readerStep s i

end SmeltConsensus.BroadcastQueue.LapBarrier
