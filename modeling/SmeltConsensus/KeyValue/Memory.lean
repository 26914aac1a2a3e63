import Mathlib.Logic.Function.Basic
import SmeltConsensus.Message.Header

/-! The key-value memory of a replica, and what its execution function does to it. -/

set_option autoImplicit false
set_option relaxedAutoImplicit false

namespace SmeltConsensus.KeyValue.Memory

open SmeltConsensus.Message.Header

def KVS_MEM_SIZE : Nat := 16384

/-- `max_key`: two words of eight bytes for each key. -/
def maxKey : Nat := KVS_MEM_SIZE / (8 * 2)

/-- The words from `kvs_memory[id]` on. -/
abbrev KvsMemory := Nat → Nat

/-- `exec_fn` of replica `id`, with what it prints. -/
def execFn (id : Nat) (kvs : KvsMemory) (payload : Payload) : KvsMemory × Option (String × List Nat) :=
  if payload.word0 > maxKey then
    (kvs, some ("Replica %d: Key too large %ld \n", [id, payload.word0]))
  else
    (Function.update (Function.update kvs (2 * payload.word0) payload.word1)
      (2 * payload.word0 + 1) payload.word2, none)

/-- The memory after the commands `cs` were executed. -/
def memoryAfter (id : Nat) (kvs : KvsMemory) (cs : List Command) : KvsMemory :=
  cs.foldl (fun m c => (execFn id m c.payload).1) kvs

/-- `kvs_get` on the memory that `client->local_mem` points to. -/
def kvsGet (localMem : KvsMemory) (key : Nat) : Nat × Nat :=
  (localMem (key * 2), localMem (key * 2 + 1))

theorem kvsGet_execFn_self (id : Nat) (kvs : KvsMemory) {payload : Payload}
    (h : payload.word0 ≤ maxKey) :
    kvsGet (execFn id kvs payload).1 payload.word0 = (payload.word1, payload.word2) := by
  have hle : ¬ payload.word0 > maxKey := Nat.not_lt.mpr h
  have hne : payload.word0 * 2 ≠ 2 * payload.word0 + 1 := by omega
  have hself : payload.word0 * 2 = 2 * payload.word0 := Nat.mul_comm _ _
  rw [execFn, if_neg hle, kvsGet]
  dsimp only
  rw [Function.update_of_ne hne, hself, Function.update_self, Function.update_self]

/-- A command for another key leaves a key alone. -/
theorem kvsGet_execFn_of_ne (id : Nat) (kvs : KvsMemory) {payload : Payload} {key : Nat}
    (h : payload.word0 ≠ key) : kvsGet (execFn id kvs payload).1 key = kvsGet kvs key := by
  unfold execFn
  split
  · rfl
  · have h0 : key * 2 ≠ 2 * payload.word0 := by omega
    have h1 : key * 2 ≠ 2 * payload.word0 + 1 := by omega
    have h2 : key * 2 + 1 ≠ 2 * payload.word0 := by omega
    have h3 : key * 2 + 1 ≠ 2 * payload.word0 + 1 := by omega
    rw [kvsGet]
    dsimp only
    rw [Function.update_of_ne h1, Function.update_of_ne h0, Function.update_of_ne h3,
      Function.update_of_ne h2, kvsGet]

theorem kvsGet_memoryAfter_of_ne (id : Nat) (kvs : KvsMemory) {cs : List Command} {key : Nat}
    (h : ∀ c ∈ cs, c.payload.word0 ≠ key) :
    kvsGet (memoryAfter id kvs cs) key = kvsGet kvs key := by
  induction cs generalizing kvs with
  | nil => rfl
  | cons c cs ih =>
    rw [memoryAfter, List.foldl_cons, ← memoryAfter, ih _ fun d hd => h d (List.mem_cons_of_mem _ hd)]
    exact kvsGet_execFn_of_ne id kvs (h c List.mem_cons_self)

/-- A key has the value of the last command for it. -/
theorem kvsGet_memoryAfter_last (id : Nat) (kvs : KvsMemory) {pre post : List Command} {c : Command}
    (hkey : c.payload.word0 ≤ maxKey) (h : ∀ d ∈ post, d.payload.word0 ≠ c.payload.word0) :
    kvsGet (memoryAfter id kvs (pre ++ c :: post)) c.payload.word0 =
      (c.payload.word1, c.payload.word2) := by
  have hsplit : memoryAfter id kvs (pre ++ c :: post) =
      memoryAfter id (execFn id (memoryAfter id kvs pre) c.payload).1 post := by
    rw [memoryAfter, List.foldl_append, List.foldl_cons]
    rfl
  rw [hsplit, kvsGet_memoryAfter_of_ne id _ h, kvsGet_execFn_self id _ hkey]

end SmeltConsensus.KeyValue.Memory
