import SmeltConsensus.Foundation.Machine
import SmeltConsensus.TwoTier.OnePaxos

/-!
The shared-memory queue below a node, down to the words of the shared page.
The writer and the readers compute its layout for themselves, from a command
size and a number of readers that reach them on different ways.

Sizes and offsets are in bytes, addresses in words of 8 bytes.
-/

set_option autoImplicit false
set_option relaxedAutoImplicit false

namespace SmeltConsensus.TwoTier.SharedMemory

open SmeltConsensus.Foundation.Machine
open SmeltConsensus.Message.Header
open SmeltConsensus.TwoTier.ComLayer
open SmeltConsensus.TwoTier.OnePaxos

def SHM_SIZE : Nat := 4096

/-- `sizeof(struct pos_pointer)`. -/
def posPointerSize : Nat := 64

/-- The words of the shared page. -/
abbrev Memory := Nat → Nat

/-- A thread's `shm_queue_t`; `shm` is an offset from the start of the page. -/
structure ShmQueueT where
  shmId : Nat
  numReaders : Nat
  slotSize : Nat
  numSlots : Nat
  shm : Nat

/-- `setup_memory`; nothing is below 0 for up to 62 readers. -/
def setupMemory (q : ShmQueueT) : ShmQueueT :=
  { q with
    numSlots := ((SHM_SIZE - (q.numReaders + 1) * posPointerSize) / q.slotSize - 1) % 2 ^ 16
    shm := (q.numReaders + 1) * posPointerSize }

def initShmWriter (numReaders slotSize : Nat) : ShmQueueT :=
  setupMemory
    { shmId := 0
      numReaders := numReaders
      slotSize := slotSize
      numSlots := ((SHM_SIZE - (numReaders + 2) * posPointerSize) / slotSize - 1) % 2 ^ 16
      shm := 0 }

def initShmReader (id numReaders slotSize : Nat) : ShmQueueT :=
  setupMemory
    { shmId := id
      numReaders := numReaders
      slotSize := slotSize
      numSlots := 0
      shm := 0 }

/-- The address of `write_pos[0].pos`. -/
def writePos : Nat := 0

/-- The address of `readers_pos[i].pos`. -/
def readersPos (i : Nat) : Nat := (i + 1) * posPointerSize / 8

/-- The address of the slot at position `pos`. -/
def ShmQueueT.slot (q : ShmQueueT) (pos : Nat) : Nat := (q.shm + pos * q.slotSize) / 8

/-- `memcpy` of the words `ws` to the address `dst`. -/
def memcpy (mem : Memory) (dst : Nat) (ws : List Nat) : Memory :=
  fun a => if dst ≤ a ∧ a < dst + ws.length then ws.getD (a - dst) 0 else mem a

/-- The three words that `exec_fn` finds at an address. -/
def payloadAt (mem : Memory) (a : Nat) : Payload := ⟨mem a, mem (a + 1), mem (a + 2)⟩

def checkReadersEnd (q : ShmQueueT) (mem : Memory) : Bool :=
  (List.range q.numReaders).all fun i => mem (readersPos i) == 0

/-- `shm_write`, or none while it spins on the readers. -/
def shmWrite (q : ShmQueueT) (mem : Memory) (cmd : Payload) : Option Memory :=
  if mem writePos = 0 ∧ checkReadersEnd q mem = false then none
  else
    let mem := memcpy mem (q.slot (mem writePos)) (copied q.slotSize cmd)
    some (Function.update mem writePos ((mem writePos + 1) % q.numSlots))

/-- `shm_read`: the address of the slot it returns and the memory, or none for null. -/
def shmRead (q : ShmQueueT) (mem : Memory) : Option (Nat × Memory) :=
  let pos := mem (readersPos q.shmId)
  if pos = mem writePos then none
  else some (q.slot pos,
    Function.update mem (readersPos q.shmId) ((pos + 1) % q.numSlots))

theorem shmRead_eq_some {q : ShmQueueT} {mem mem' : Memory} {a : Nat}
    (h : shmRead q mem = some (a, mem')) :
    mem (readersPos q.shmId) ≠ mem writePos ∧ a = q.slot (mem (readersPos q.shmId)) ∧
      mem' = Function.update mem (readersPos q.shmId)
        ((mem (readersPos q.shmId) + 1) % q.numSlots) := by
  by_cases hpos : mem (readersPos q.shmId) = mem writePos
  · rw [shmRead, if_pos hpos] at h
    cases h
  · rw [shmRead, if_neg hpos] at h
    obtain ⟨rfl, rfl⟩ := Prod.mk.inj (Option.some.inj h)
    exact ⟨hpos, rfl, rfl⟩

theorem shmRead_eq_none {q : ShmQueueT} {mem : Memory} (h : shmRead q mem = none) :
    mem (readersPos q.shmId) = mem writePos := by
  by_contra hne
  rw [shmRead, if_neg hne] at h
  cases h

/-- The algorithms at node level that start a group below. -/
inductive Upper
  | onepaxos
  | tpc
  | broad
  | chain
  deriving DecidableEq

/-- The command size that `init_replica` passes to `com_layer_core_init`. -/
def cmdSize : Upper → Nat
  | .onepaxos => getCmdSize
  | .tpc => 3 * 8
  | .broad => 24
  | .chain => 24

variable (upper : Upper) (currentCore : Nat) (cores : List Nat) (nodeSize : Nat)

/-- The communication layer of a node with a queue below it. -/
def comLayer : ComLayerT := (comLayerCoreInit ALG_SHM currentCore cores nodeSize (cmdSize upper)).1

/-- The queue of the node itself, as `com_layer_core_init` sets it up. -/
def writer : ShmQueueT := initShmWriter (nodeSize - 1) (cmdSize upper)

/-- `init_replica` at core level for `ALG_SHM`. -/
def initReplicaShm (args : ConsArgsT) : ShmQueueT := initShmReader args.id args.numReplicas 24

/-- The queue of the reader `i` of the group. -/
def reader (i : Nat) : ShmQueueT :=
  initReplicaShm (thrArgs2 (comLayer upper currentCore cores nodeSize) i)

/-- The node and its readers. A reader's pointers stay valid until the slot is overwritten, so
they are kept as addresses. -/
structure State where
  com : ComLayerT
  mem : Memory
  written : List Payload
  returned : Nat → List Nat

inductive Step
  | request (msg : SmltMsg)
  | read (i : Nat)

/-- The writes to the queue among the effects of a call. -/
def perform (q : ShmQueueT) (mem : Memory) : Effect → Option Memory
  | .shmWrite cmd => shmWrite q mem cmd
  | _ => some mem

/-- A call of `com_layer_core_send_request` by the node, or of `shm_read` by a reader. -/
def step (s : State) : Step → Option State
  | .request msg =>
    let (com, _, es) := comLayerCoreSendRequest s.com msg
    (es.foldlM (perform (writer upper nodeSize)) s.mem).map fun mem =>
      { s with com := com, mem := mem, written := s.written ++ [msg.payload] }
  | .read i =>
    if i < nodeSize - 1 then
      match shmRead (reader upper currentCore cores nodeSize i) s.mem with
      | none => some s
      | some (a, mem) =>
        some { s with
          mem := mem
          returned := Function.update s.returned i (s.returned i ++ [a]) }
    else none

/-- The page is zeroed by `calloc`. -/
def init : State where
  com := comLayer upper currentCore cores nodeSize
  mem := fun _ => 0
  written := []
  returned := fun _ => []

/-- Both sides use the same slot size, number of slots and base. -/
def SameGeometry : Prop :=
  ∀ i, (reader upper currentCore cores nodeSize i).slotSize = (writer upper nodeSize).slotSize ∧
    (reader upper currentCore cores nodeSize i).numSlots = (writer upper nodeSize).numSlots ∧
    (reader upper currentCore cores nodeSize i).shm = (writer upper nodeSize).shm

/-- What a reader finds at the addresses it was returned are the commands written, in order, and
all of them once null is returned. -/
def Delivered (s : State) : Prop :=
  ∀ i < nodeSize - 1, (s.returned i).map (payloadAt s.mem) <+: s.written ∧
    (shmRead (reader upper currentCore cores nodeSize i) s.mem = none →
      (s.returned i).map (payloadAt s.mem) = s.written)

section Words

theorem memcpy_of_lt (mem : Memory) {dst a : Nat} (ws : List Nat) (h : a < dst) :
    memcpy mem dst ws a = mem a := by
  rw [memcpy, if_neg]
  omega

theorem memcpy_at (mem : Memory) {dst k : Nat} {ws : List Nat} (h : k < ws.length) :
    memcpy mem dst ws (dst + k) = ws.getD k 0 := by
  rw [memcpy, if_pos ⟨Nat.le_add_right dst k, Nat.add_lt_add_left h dst⟩, Nat.add_sub_cancel_left]

theorem memcpy_of_ge (mem : Memory) {dst a : Nat} {ws : List Nat} (h : dst + ws.length ≤ a) :
    memcpy mem dst ws a = mem a := by
  rw [memcpy, if_neg]
  omega

/-- Readers' positions lie in the page before all slots, each in a line of its own. -/
theorem readersPos_eq (i : Nat) : readersPos i = 8 * (i + 1) := by
  unfold readersPos posPointerSize
  omega

/-- A command of three words is found where it was copied to. -/
theorem payloadAt_memcpy_self (mem : Memory) (dst : Nat) (cmd : Payload) :
    payloadAt (memcpy mem dst (words cmd)) dst = cmd := by
  have h0 : memcpy mem dst (words cmd) (dst + 0) = cmd.word0 := memcpy_at mem (Nat.zero_lt_succ _)
  have h1 : memcpy mem dst (words cmd) (dst + 1) = cmd.word1 :=
    memcpy_at mem (Nat.succ_lt_succ (Nat.zero_lt_succ _))
  have h2 : memcpy mem dst (words cmd) (dst + 2) = cmd.word2 :=
    memcpy_at mem (Nat.succ_lt_succ (Nat.succ_lt_succ (Nat.zero_lt_succ _)))
  rw [Nat.add_zero] at h0
  rw [payloadAt, h0, h1, h2]

/-- A command in an earlier slot is not touched. -/
theorem payloadAt_memcpy_of_lt (mem : Memory) {dst a : Nat} (ws : List Nat) (h : a + 3 ≤ dst) :
    payloadAt (memcpy mem dst ws) a = payloadAt mem a := by
  rw [payloadAt, payloadAt, memcpy_of_lt, memcpy_of_lt, memcpy_of_lt]
  · omega
  · omega
  · omega

/-- A position that is stored does not touch the slots after it. -/
theorem payloadAt_update (mem : Memory) {p a : Nat} (v : Nat) (h : p < a) :
    payloadAt (Function.update mem p v) a = payloadAt mem a := by
  rw [payloadAt, payloadAt, Function.update_of_ne, Function.update_of_ne, Function.update_of_ne]
  · omega
  · omega
  · omega

end Words

/-- Every call returns, and the readers get what was written, as long as fewer than `numSlots`
commands were. -/
def Faithful : Prop :=
  ∀ s, Reachable (step upper currentCore cores nodeSize) (init upper currentCore cores nodeSize) s →
    s.written.length < (writer upper nodeSize).numSlots →
    Delivered upper currentCore cores nodeSize s ∧
      ∀ msg, (step upper currentCore cores nodeSize s (.request msg)).isSome

section Agreement

variable {upper : Upper} {currentCore : Nat} {cores : List Nat} {nodeSize : Nat}

theorem reader_eq (i : Nat) : reader upper currentCore cores nodeSize i =
    initShmReader i (nodeSize - 1) 24 := rfl

theorem reader_shmId (i : Nat) : (reader upper currentCore cores nodeSize i).shmId = i := rfl

theorem cmdSize_eq (h : upper ≠ .onepaxos) : cmdSize upper = 24 := by
  cases upper with
  | onepaxos => exact absurd rfl h
  | tpc => rfl
  | broad => rfl
  | chain => rfl

/-- The two sides differ in the command size only. -/
theorem sameGeometry_iff : SameGeometry upper currentCore cores nodeSize ↔ upper ≠ .onepaxos := by
  constructor
  · rintro h rfl
    have hsize : 24 = 8 := (h 0).1
    omega
  · intro hne i
    rw [reader_eq, writer, cmdSize_eq hne]
    exact ⟨rfl, rfl, rfl⟩

/-- The address of slot `k` where commands take three words. -/
def slotAt (nodeSize k : Nat) : Nat := 8 * nodeSize + 3 * k

theorem reader_slot (h : 0 < nodeSize) (i k : Nat) :
    (reader upper currentCore cores nodeSize i).slot k = slotAt nodeSize k := by
  show ((nodeSize - 1 + 1) * 64 + k * 24) / 8 = 8 * nodeSize + 3 * k
  omega

theorem writer_slot (hne : upper ≠ .onepaxos) (h : 0 < nodeSize) (k : Nat) :
    (writer upper nodeSize).slot k = slotAt nodeSize k := by
  rw [writer, cmdSize_eq hne]
  show ((nodeSize - 1 + 1) * 64 + k * 24) / 8 = 8 * nodeSize + 3 * k
  omega

theorem readersPos_lt_slotAt {i : Nat} (h : i < nodeSize - 1) (k : Nat) :
    readersPos i < slotAt nodeSize k := by
  rw [readersPos_eq, slotAt]
  omega

theorem writePos_lt_slotAt (h : 0 < nodeSize) (k : Nat) : writePos < slotAt nodeSize k := by
  rw [writePos, slotAt]
  omega

theorem readersPos_ne_writePos (i : Nat) : readersPos i ≠ writePos := by
  rw [readersPos_eq, writePos]
  omega

/-- The page before its positions wrap. -/
structure Page (nodeSize : Nat) (mem : Memory) (written : List Payload)
    (returned : Nat → List Nat) : Prop where
  position : mem writePos = written.length
  slots : (List.range written.length).map (fun k => payloadAt mem (slotAt nodeSize k)) = written
  behind : ∀ i < nodeSize - 1, mem (readersPos i) ≤ written.length
  taken : ∀ i < nodeSize - 1,
    returned i = (List.range (mem (readersPos i))).map (slotAt nodeSize)

section Page

variable {mem : Memory} {written : List Payload} {returned : Nat → List Nat}

theorem Page.checkReadersEnd (h : Page nodeSize mem written returned)
    (hzero : mem writePos = 0) : checkReadersEnd (writer upper nodeSize) mem = true := by
  rw [h.position] at hzero
  refine List.all_eq_true.mpr fun i hi => beq_iff_eq.mpr ?_
  have hle := h.behind i (List.mem_range.mp hi)
  omega

/-- The memory after a write, which never waits. -/
theorem Page.shmWrite_eq (h : Page nodeSize mem written returned) (hne : upper ≠ .onepaxos)
    (hpos : 0 < nodeSize) (cmd : Payload) :
    shmWrite (writer upper nodeSize) mem cmd =
      some (Function.update (memcpy mem (slotAt nodeSize written.length) (words cmd)) writePos
        ((written.length + 1) % (writer upper nodeSize).numSlots)) := by
  have hready : ¬ (mem writePos = 0 ∧
      SharedMemory.checkReadersEnd (writer upper nodeSize) mem = false) := by
    rintro ⟨hzero, hwait⟩
    rw [h.checkReadersEnd hzero] at hwait
    exact Bool.noConfusion hwait
  have hcopy : copied (writer upper nodeSize).slotSize cmd = words cmd := by
    have hsize : 24 / 8 = (words cmd).length := by
      show 24 / 8 = 3
      omega
    rw [writer, cmdSize_eq hne]
    show (words cmd).take (24 / 8) = words cmd
    rw [hsize, List.take_length]
  rw [shmWrite, if_neg hready, writer_slot hne hpos, hcopy]
  dsimp only
  rw [memcpy_of_lt _ _ (writePos_lt_slotAt hpos _), h.position]

/-- A command goes into the slot after those written. -/
theorem Page.write (h : Page nodeSize mem written returned) (hpos : 0 < nodeSize)
    {numSlots : Nat} (hshort : written.length + 1 < numSlots) (cmd : Payload) :
    Page nodeSize
      (Function.update (memcpy mem (slotAt nodeSize written.length) (words cmd)) writePos
        ((written.length + 1) % numSlots)) (written ++ [cmd]) returned := by
  have hreaders : ∀ i < nodeSize - 1,
      Function.update (memcpy mem (slotAt nodeSize written.length) (words cmd))
        writePos ((written.length + 1) % numSlots) (readersPos i) = mem (readersPos i) := by
    intro i hi
    rw [Function.update_of_ne (readersPos_ne_writePos i),
      memcpy_of_lt _ _ (readersPos_lt_slotAt hi _)]
  constructor
  · rw [Function.update_self, Nat.mod_eq_of_lt hshort, List.length_append, List.length_singleton]
  · rw [List.length_append, List.length_singleton, List.range_succ, List.map_append,
      List.map_singleton, payloadAt_update _ _ (writePos_lt_slotAt hpos _), payloadAt_memcpy_self]
    congr 1
    conv_rhs => rw [← h.slots]
    refine List.map_congr_left fun k hk => ?_
    have hlt := List.mem_range.mp hk
    have hapart : slotAt nodeSize k + 3 ≤ slotAt nodeSize written.length := by
      rw [slotAt, slotAt]
      omega
    rw [payloadAt_update _ _ (writePos_lt_slotAt hpos _), payloadAt_memcpy_of_lt _ _ hapart]
  · intro i hi
    rw [hreaders i hi, List.length_append]
    exact Nat.le_add_right_of_le (h.behind i hi)
  · intro i hi
    rw [hreaders i hi]
    exact h.taken i hi

/-- A reader takes the next command. -/
theorem Page.read (h : Page nodeSize mem written returned) {numSlots i : Nat}
    (hshort : written.length < numSlots) (hi : i < nodeSize - 1)
    (hmore : mem (readersPos i) ≠ mem writePos) :
    Page nodeSize (Function.update mem (readersPos i) ((mem (readersPos i) + 1) % numSlots)) written
      (Function.update returned i (returned i ++ [slotAt nodeSize (mem (readersPos i))])) := by
  have hlt : mem (readersPos i) < written.length := by
    have hle := h.behind i hi
    rw [h.position] at hmore
    omega
  have hnext : (mem (readersPos i) + 1) % numSlots = mem (readersPos i) + 1 :=
    Nat.mod_eq_of_lt (by omega)
  have hother : ∀ j, j ≠ i → readersPos j ≠ readersPos i := by
    intro j hj
    rw [readersPos_eq, readersPos_eq]
    omega
  constructor
  · rw [Function.update_of_ne (readersPos_ne_writePos i).symm]
    exact h.position
  · conv_rhs => rw [← h.slots]
    refine List.map_congr_left fun k _ => ?_
    exact payloadAt_update _ _ (readersPos_lt_slotAt hi k)
  · intro j hj
    by_cases hji : j = i
    · rw [hji, Function.update_self, hnext]
      exact hlt
    · rw [Function.update_of_ne (hother j hji)]
      exact h.behind j hj
  · intro j hj
    by_cases hji : j = i
    · rw [hji, Function.update_self, Function.update_self, hnext, List.range_succ, List.map_append,
        ← h.taken i hi, List.map_singleton]
    · rw [Function.update_of_ne hji, Function.update_of_ne (hother j hji)]
      exact h.taken j hj

/-- What a reader was returned is a part of what was written, up to its position. -/
theorem Page.delivered (h : Page nodeSize mem written returned) {i : Nat} (hi : i < nodeSize - 1) :
    (returned i).map (payloadAt mem) = written.take (mem (readersPos i)) := by
  have hle := h.behind i hi
  rw [h.taken i hi, List.map_map]
  conv_rhs => rw [← h.slots]
  rw [← List.map_take, List.take_range, Nat.min_eq_left hle]
  rfl

end Page

/-- The node and its readers before the positions wrap. -/
structure Invariant (nodeSize : Nat) (s : State) : Prop where
  started : s.com.initDone = true
  shm : s.com.algorithm = ALG_SHM
  page : Page nodeSize s.mem s.written s.returned

theorem init_invariant : Invariant nodeSize (init upper currentCore cores nodeSize) where
  started := comLayerCoreInit_initDone (by decide) _ _ _ _
  shm := rfl
  page := ⟨rfl, rfl, fun _ _ => Nat.le_refl 0, fun _ _ => rfl⟩

/-- A request is written and the call returns. -/
theorem request_eq {s : State} (hs : Invariant nodeSize s) (hne : upper ≠ .onepaxos)
    (hpos : 0 < nodeSize) (msg : SmltMsg) :
    step upper currentCore cores nodeSize s (.request msg) = some { s with
      com := { s.com with reqCount := s.com.reqCount + 1 }
      mem := Function.update (memcpy s.mem (slotAt nodeSize s.written.length) (words msg.payload))
        writePos ((s.written.length + 1) % (writer upper nodeSize).numSlots)
      written := s.written ++ [msg.payload] } := by
  have hdone : ¬ s.com.initDone = false := by
    rw [hs.started]
    exact Bool.noConfusion
  have hcall : comLayerCoreSendRequest s.com msg =
      ({ s.com with reqCount := s.com.reqCount + 1 }, msg, [.shmWrite msg.payload]) := by
    rw [comLayerCoreSendRequest, if_neg hdone, if_pos hs.shm]
  rw [step, hcall]
  show ((shmWrite (writer upper nodeSize) s.mem msg.payload).bind fun mem => some mem).map _ = _
  rw [hs.page.shmWrite_eq hne hpos]
  rfl

theorem step_invariant {s s' : State} {a : Step} (hne : upper ≠ .onepaxos) (hpos : 0 < nodeSize)
    (hs : Invariant nodeSize s) (h : step upper currentCore cores nodeSize s a = some s')
    (hshort : s'.written.length < (writer upper nodeSize).numSlots) : Invariant nodeSize s' := by
  cases a with
  | request msg =>
    rw [request_eq hs hne hpos] at h
    obtain rfl := Option.some.inj h
    rw [List.length_append, List.length_singleton] at hshort
    exact ⟨hs.started, hs.shm, hs.page.write hpos hshort msg.payload⟩
  | read i =>
    rw [step] at h
    split at h
    · rename_i hi
      split at h
      · obtain rfl := Option.some.inj h
        exact hs
      · rename_i a mem hread
        obtain rfl := Option.some.inj h
        obtain ⟨hmore, rfl, rfl⟩ := shmRead_eq_some hread
        have hsame : SameGeometry upper currentCore cores nodeSize := sameGeometry_iff.mpr hne
        rw [← (hsame i).2.1] at hshort
        rw [reader_shmId] at hmore ⊢
        rw [reader_slot hpos]
        exact ⟨hs.started, hs.shm, hs.page.read hshort hi hmore⟩
    · cases h

theorem written_length_le {s s' : State} {a : Step}
    (h : step upper currentCore cores nodeSize s a = some s') :
    s.written.length ≤ s'.written.length := by
  cases a with
  | request msg =>
    obtain ⟨mem, -, rfl⟩ := Option.map_eq_some_iff.mp h
    rw [List.length_append]
    exact Nat.le_add_right _ _
  | read i =>
    rw [step] at h
    split at h
    · split at h
      · obtain rfl := Option.some.inj h
        exact Nat.le_refl _
      · obtain rfl := Option.some.inj h
        exact Nat.le_refl _
    · cases h

theorem reachable_invariant {s : State} (hne : upper ≠ .onepaxos) (hpos : 0 < nodeSize)
    (hr : Reachable (step upper currentCore cores nodeSize)
      (init upper currentCore cores nodeSize) s)
    (hshort : s.written.length < (writer upper nodeSize).numSlots) : Invariant nodeSize s := by
  revert hshort
  apply hr.invariant
  · intro _
    exact init_invariant
  · intro s a s' ih h hshort
    exact step_invariant hne hpos (ih ((written_length_le h).trans_lt hshort)) h hshort

theorem faithful_of_ne (hne : upper ≠ .onepaxos) (hpos : 0 < nodeSize) :
    Faithful upper currentCore cores nodeSize := by
  intro s hr hshort
  have hs := reachable_invariant hne hpos hr hshort
  refine ⟨fun i hi => ?_, fun msg => ?_⟩
  · rw [hs.page.delivered hi]
    refine ⟨List.take_prefix _ _, fun hnull => ?_⟩
    have heq := shmRead_eq_none hnull
    rw [reader_shmId] at heq
    rw [heq, hs.page.position, List.take_length]
  · rw [request_eq hs hne hpos]
    rfl

/-- The page after a node of 1Paxos has written the command (1, 2, 3): only its first word has
been copied. -/
private def firstWord (nodeSize : Nat) : Memory :=
  Function.update (memcpy (fun _ => 0) (slotAt nodeSize 0) [1]) writePos 1

private theorem firstWord_write (hslots : 1 < (writer .onepaxos nodeSize).numSlots)
    (hpos : 0 < nodeSize) :
    shmWrite (writer .onepaxos nodeSize) (fun _ => 0) ⟨1, 2, 3⟩ = some (firstWord nodeSize) := by
  have hready : ¬ ((fun _ => 0 : Memory) writePos = 0 ∧
      checkReadersEnd (writer .onepaxos nodeSize) (fun _ => 0) = false) := by
    rintro ⟨-, hwait⟩
    have hall : checkReadersEnd (writer .onepaxos nodeSize) (fun _ => 0) = true :=
      List.all_eq_true.mpr fun i _ => rfl
    rw [hall] at hwait
    exact Bool.noConfusion hwait
  have hslot : (writer .onepaxos nodeSize).slot 0 = slotAt nodeSize 0 := by
    show ((nodeSize - 1 + 1) * 64 + 0 * 8) / 8 = 8 * nodeSize + 3 * 0
    omega
  have hwords : copied (writer .onepaxos nodeSize).slotSize ⟨1, 2, 3⟩ = [1] := by
    show [1, 2, 3].take (8 / 8) = [1]
    decide
  rw [shmWrite, if_neg hready]
  dsimp only
  rw [hwords, hslot, memcpy_of_lt _ _ (writePos_lt_slotAt hpos _), Nat.mod_eq_of_lt hslots]
  rfl

variable (currentCore cores) in
private theorem firstWord_read (hreader : 1 < nodeSize) :
    ∃ mem, shmRead (reader .onepaxos currentCore cores nodeSize 0) (firstWord nodeSize) =
      some (slotAt nodeSize 0, mem) ∧ payloadAt mem (slotAt nodeSize 0) = ⟨1, 0, 0⟩ := by
  have hzero : 0 < nodeSize - 1 := Nat.sub_pos_of_lt hreader
  have hreaders : firstWord nodeSize (readersPos 0) = 0 := by
    rw [firstWord, Function.update_of_ne (readersPos_ne_writePos 0),
      memcpy_of_lt _ _ (readersPos_lt_slotAt hzero _)]
  have hmore : ¬ firstWord nodeSize (readersPos 0) = firstWord nodeSize writePos := by
    rw [hreaders, firstWord, Function.update_self]
    exact Nat.zero_ne_one
  refine ⟨Function.update (firstWord nodeSize) (readersPos 0)
    ((0 + 1) % (reader .onepaxos currentCore cores nodeSize 0).numSlots), ?_, ?_⟩
  · rw [shmRead, reader_shmId, if_neg hmore, hreaders, reader_slot (Nat.zero_lt_of_lt hreader)]
  · rw [payloadAt_update _ _ (readersPos_lt_slotAt hzero _), firstWord,
      payloadAt_update _ _ (writePos_lt_slotAt (Nat.zero_lt_of_lt hreader) _), payloadAt]
    congr 1
    · exact memcpy_at (k := 0) _ (Nat.zero_lt_succ _)
    · exact memcpy_of_ge _ (Nat.le_refl _)
    · exact memcpy_of_ge _ (Nat.le_succ _)

/-- A node of 1Paxos copies the first word only. -/
theorem not_faithful_onepaxos (hslots : 1 < (writer .onepaxos nodeSize).numSlots)
    (hreader : 1 < nodeSize) : ¬ Faithful .onepaxos currentCore cores nodeSize := by
  intro hf
  obtain ⟨mem, hread, hpayload⟩ := firstWord_read currentCore cores hreader
  have hrun : run (step .onepaxos currentCore cores nodeSize)
      (init .onepaxos currentCore cores nodeSize)
      [.request ⟨0, 0, 0, 0, 1, 2, 3⟩, .read 0] = some
        { com := { comLayer .onepaxos currentCore cores nodeSize with reqCount := 1 }
          mem := mem
          written := [⟨1, 2, 3⟩]
          returned := Function.update (fun _ => []) 0 [slotAt nodeSize 0] } := by
    have hrequest : step .onepaxos currentCore cores nodeSize
        (init .onepaxos currentCore cores nodeSize) (.request ⟨0, 0, 0, 0, 1, 2, 3⟩) = some
          { com := { comLayer .onepaxos currentCore cores nodeSize with reqCount := 1 }
            mem := firstWord nodeSize
            written := [⟨1, 2, 3⟩]
            returned := fun _ => [] } := by
      show ((shmWrite (writer .onepaxos nodeSize) (fun _ => 0) ⟨1, 2, 3⟩).bind
        fun mem => some mem).map _ = _
      rw [firstWord_write hslots (Nat.zero_lt_of_lt hreader)]
      rfl
    rw [run_cons, hrequest, Option.bind_some, run_cons, step, if_pos (Nat.sub_pos_of_lt hreader)]
    dsimp only
    rw [hread]
    rfl
  have hdelivered : (Function.update (fun _ => []) 0 [slotAt nodeSize 0] 0).map (payloadAt mem) <+:
      [⟨1, 2, 3⟩] := ((hf _ ⟨_, hrun⟩ hslots).1 0 (Nat.sub_pos_of_lt hreader)).1
  have hfirst : (Function.update (fun _ => []) 0 [slotAt nodeSize 0] 0).map (payloadAt mem) =
      [⟨1, 0, 0⟩] := by
    rw [Function.update_self, List.map_singleton, hpayload]
  rw [hfirst] at hdelivered
  exact absurd hdelivered (by decide)

/-- On both sides of a shared-memory queue the layout is the same, and the readers get the
commands, exactly if the algorithm above is not 1Paxos. -/
theorem geometry_agrees_iff (hlow : 3 ≤ nodeSize) (hhigh : nodeSize ≤ 62) :
    (SameGeometry upper currentCore cores nodeSize ↔ upper ≠ .onepaxos) ∧
      (Faithful upper currentCore cores nodeSize ↔ upper ≠ .onepaxos) := by
  refine ⟨sameGeometry_iff, ?_, fun hne => faithful_of_ne hne (by omega)⟩
  rintro hf rfl
  apply not_faithful_onepaxos _ _ hf
  · show 1 < ((4096 - (nodeSize - 1 + 1) * 64) / 8 - 1) % 2 ^ 16
    omega
  · omega

theorem geometry_agrees_chain :
    (SameGeometry .chain 0 [1, 2, 3, 0] 4 ↔ Upper.chain ≠ .onepaxos) ∧
      (Faithful .chain 0 [1, 2, 3, 0] 4 ↔ Upper.chain ≠ .onepaxos) :=
  geometry_agrees_iff (by decide) (by decide)

end Agreement

/-- Of the first command of a 1Paxos node of 4 cores, a reader gets one word. -/
theorem onepaxos_words_lost :
    (writer .onepaxos 4).slotSize = 8 ∧ (reader .onepaxos 0 [1, 2, 3, 0] 4 0).slotSize = 24 ∧
    (writer .onepaxos 4).numSlots = 479 ∧ (reader .onepaxos 0 [1, 2, 3, 0] 4 0).numSlots = 159 ∧
    ∃ s, run (step .onepaxos 0 [1, 2, 3, 0] 4) (init .onepaxos 0 [1, 2, 3, 0] 4)
        [.request ⟨0, 0, 0, 0, 1, 2, 3⟩, .read 0] = some s ∧
      s.written = [⟨1, 2, 3⟩] ∧ (s.returned 0).map (payloadAt s.mem) = [⟨1, 0, 0⟩] :=
  ⟨rfl, rfl, rfl, rfl, _, rfl, rfl, rfl⟩

end SmeltConsensus.TwoTier.SharedMemory
