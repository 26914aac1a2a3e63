import Mathlib.Data.Nat.Basic

/-!
The size of the shared memory of the broadcast queues. Four implementations share
`shm.h`: each has one writer and `R` readers, and every message goes to all of them.
-/

set_option autoImplicit false
set_option relaxedAutoImplicit false

namespace SmeltConsensus.BroadcastQueue.Shm

/-- The number of cache lines of a queue. -/
def SHMQ_SIZE : Nat := 64

/-- The `num_slots` of the queues that keep the positions in front of their slots. -/
def slots (numReaders : Nat) : Nat := SHMQ_SIZE - (numReaders + 2)

theorem slots_eq (R : Nat) : slots R = 64 - (R + 2) := rfl

end SmeltConsensus.BroadcastQueue.Shm
