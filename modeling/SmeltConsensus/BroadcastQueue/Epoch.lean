import Mathlib.Logic.Function.Basic
import SmeltConsensus.BroadcastQueue.Shm

/-!
The broadcast queue of `shm_queue2.c`: positions of the writer and of every reader
in shared memory, each with an epoch bit that changes at the end of a lap. A party
changes its epoch first and its position in a store of its own after that.

A step is one check of the other side, one access to a slot or one store to a position.
-/

set_option autoImplicit false
set_option relaxedAutoImplicit false

namespace SmeltConsensus.BroadcastQueue.Epoch

open SmeltConsensus.BroadcastQueue.Shm (slots)

variable {α : Type} {R : Nat}

/-- The words `p[0]` and `p[1]` of a `pos_pointer`. -/
structure PosPointer where
  pos : Nat
  epoch : Nat
  deriving DecidableEq

/-- The shared memory; a slot has the seven words of a message. -/
structure Shm (α : Type) (R : Nat) where
  writePos : PosPointer
  readersPos : Fin R → PosPointer
  data : Nat → α

def canWrite (shm : Shm α R) (id : Fin R) : Bool :=
  ((shm.readersPos id).pos ≤ shm.writePos.pos ∧
    (shm.readersPos id).epoch = shm.writePos.epoch) ∨
  ((shm.readersPos id).pos > shm.writePos.pos ∧
    (shm.readersPos id).epoch ≠ shm.writePos.epoch)

def canRead (shm : Shm α R) (id : Fin R) : Bool :=
  (shm.writePos.pos > (shm.readersPos id).pos ∧
    shm.writePos.epoch = (shm.readersPos id).epoch) ∨
  (shm.writePos.pos ≤ (shm.readersPos id).pos ∧
    shm.writePos.epoch ≠ (shm.readersPos id).epoch)

/-- The epoch after the one in `p[1]`. -/
def flipEpoch (epoch : Nat) : Nat := if epoch = 1 then 0 else 1

/-- Where the writer is in `shm_send_raw`: outside, before the check of reader `i` (or before
the slot write, if there is no reader `i`), before it moves on, before it resets its position. -/
inductive WriterPc (α : Type)
  | idle
  | check (msg : α) (i : Nat)
  | move
  | reset

/-- Where a reader is in `shm_receive_non_blocking`: before its check, before the slot read,
before the increment, before the flip of its epoch, before it resets its position. -/
inductive ReaderPc
  | idle
  | read
  | increment
  | flip
  | reset
  deriving DecidableEq

/-- The memory, the parties and the messages written and read. -/
structure State (α : Type) (R : Nat) where
  shm : Shm α R
  writer : WriterPc α
  readers : Fin R → ReaderPc
  sent : List α
  received : Fin R → List α

/-- Zeroed memory. -/
def init (R : Nat) (zero : α) : State α R where
  shm := ⟨⟨0, 0⟩, fun _ => ⟨0, 0⟩, fun _ => zero⟩
  writer := .idle
  readers _ := .idle
  sent := []
  received _ := []

/-- A store to the words of the writer's position. -/
def State.storeWriter (s : State α R) (p : PosPointer) (pc : WriterPc α) : State α R :=
  { s with shm := { s.shm with writePos := p }, writer := pc }

/-- A store to the words of a reader's position. -/
def State.storeReader (s : State α R) (i : Fin R) (p : PosPointer) (pc : ReaderPc) : State α R :=
  { s with
    shm := { s.shm with readersPos := Function.update s.shm.readersPos i p }
    readers := Function.update s.readers i pc }

/-- The next step inside of `shm_send_raw`, or none while it spins on a reader. -/
def writerStep (s : State α R) : Option (State α R) :=
  match s.writer with
  | .idle => none
  | .check msg i =>
    if h : i < R then
      if canWrite s.shm ⟨i, h⟩ then some { s with writer := .check msg (i + 1) } else none
    else
      some { s with
        shm := { s.shm with data := Function.update s.shm.data s.shm.writePos.pos msg }
        writer := .move
        sent := s.sent ++ [msg] }
  | .move =>
    let pos := s.shm.writePos.pos + 1
    if pos = slots R then
      some (s.storeWriter { s.shm.writePos with epoch := flipEpoch s.shm.writePos.epoch } .reset)
    else some (s.storeWriter { s.shm.writePos with pos := pos } .idle)
  | .reset => some (s.storeWriter { s.shm.writePos with pos := 0 } .idle)

/-- The next step of a reader, or none where `shm_receive_non_blocking` returns false. -/
def readerStep (s : State α R) (i : Fin R) : Option (State α R) :=
  let p := s.shm.readersPos i
  match s.readers i with
  | .idle =>
    if canRead s.shm i then some { s with readers := Function.update s.readers i .read } else none
  | .read =>
    some { s with
      readers := Function.update s.readers i .increment
      received := Function.update s.received i (s.received i ++ [s.shm.data p.pos]) }
  | .increment =>
    some (s.storeReader i { p with pos := p.pos + 1 }
      (if p.pos + 1 = slots R then .flip else .idle))
  | .flip => some (s.storeReader i { p with epoch := flipEpoch p.epoch } .reset)
  | .reset => some (s.storeReader i { p with pos := 0 } .idle)

inductive Step (α : Type) (R : Nat)
  | send (msg : α)
  | writer
  | reader (i : Fin R)

def step (s : State α R) : Step α R → Option (State α R)
  | .send msg =>
    match s.writer with
    | .idle => some { s with writer := .check msg 0 }
    | .check _ _ => none
    | .move => none
    | .reset => none
  | .writer => writerStep s
  | .reader i => readerStep s i

end SmeltConsensus.BroadcastQueue.Epoch
