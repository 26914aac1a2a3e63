import Mathlib.Data.Nat.Bitwise

/-!
The private state of one end of a message channel: positions in the two rings, and the
16-bit sequence numbers that tell how much of a ring is free.
-/

set_option autoImplicit false
set_option relaxedAutoImplicit false

namespace SmeltConsensus.UmpQueue.Channel

/-- `UMP_MSG_BYTES` -/
def umpMsgBytes : Nat := 64

/-- `UMP_PAYLOAD_WORDS`, the words of a message less the one with the control data. -/
def umpPayloadWords : Nat := umpMsgBytes / 8 - 1

/-- `UMP_INDEX_BITS` -/
def umpIndexBits : Nat := 16

/-- `UMP_HEADER_BITS`, a 32-bit control word less the epoch. -/
def umpHeaderBits : Nat := 32 - 1

/-- `UMP_MSGTAG_BITS` -/
def umpMsgtagBits : Nat := umpHeaderBits - umpIndexBits

/-- `UMP_ACK_MSGTAG` -/
def umpAckMsgtag : Nat := 2 ^ umpMsgtagBits - 1

/-- `ump_index_t` keeps 16 bits. -/
def umpIndex (k : Nat) : Nat := k % 2 ^ umpIndexBits

/-- The difference of two indices. -/
def umpIndexSub (a b : Nat) : Nat := umpIndex (a + 2 ^ umpIndexBits - b)

/-- `union ump_control` -/
structure UmpControl where
  epoch : Bool
  header : Nat

/-- The epoch is the lowest bit of the word, and the header has the 31 others. -/
def UmpControl.raw (ctrl : UmpControl) : Nat :=
  ctrl.epoch.toNat + 2 * (ctrl.header % 2 ^ umpHeaderBits)

def UmpControl.ofRaw (raw : Nat) : UmpControl := ⟨raw % 2 = 1, raw / 2 % 2 ^ umpHeaderBits⟩

/-- `struct ump_txchan` and `struct ump_rxchan` have the same fields. -/
structure UmpPos where
  pos : Nat
  bufmsgs : Nat
  epoch : Bool

/-- A ring that the initialisers accept: its address and its size in bytes. -/
def umpRingOk (buf size : Nat) : Prop :=
  ¬ (size = 0 ∨ size % umpMsgBytes ≠ 0 ∨ size / umpMsgBytes > 2 ^ 16 - 1) ∧
    ¬ (buf = 0 ∨ buf % umpMsgBytes ≠ 0)

instance (buf size : Nat) : Decidable (umpRingOk buf size) := by
  unfold umpRingOk
  infer_instance

/-- `ump_rxchan_init`; `ump_txchan_init` also zeroes the control words. -/
def umpChanPosInit (buf size : Nat) : Option UmpPos :=
  if umpRingOk buf size then some ⟨0, size / umpMsgBytes, true⟩ else none

/-- The update of a position after a message. -/
def UmpPos.advance (c : UmpPos) : UmpPos :=
  let pos := umpIndex (c.pos + 1)
  if pos = c.bufmsgs then { c with pos := 0, epoch := !c.epoch } else { c with pos }

/-- `struct ump_chan`, with the two rings given by their positions. -/
structure UmpChan where
  tx : UmpPos
  rx : UmpPos
  discriminant : Bool
  nextId : Nat
  seqId : Nat
  ackId : Nat
  lastAck : Nat

/-- The state that `ump_chan_init_numa` sets up. -/
def umpChanNew (tx rx : UmpPos) (discriminant : Bool) : UmpChan :=
  ⟨tx, rx, discriminant, 1, 0, 0, 0⟩

def umpChanInitNuma (localShmem localShmemBytes remoteShmem remoteShmemBytes : Nat)
    (discriminant : Bool) : Option UmpChan :=
  (umpChanPosInit localShmem localShmemBytes).bind fun tx =>
    (umpChanPosInit remoteShmem remoteShmemBytes).map fun rx => umpChanNew tx rx discriminant

/-- `ALIGN_UP(n, UMP_MSG_BYTES)` -/
def alignUp (n : Nat) : Nat := (n + umpMsgBytes - 1) / umpMsgBytes * umpMsgBytes

/-- `ALIGN_DOWN(n, UMP_MSG_BYTES)` -/
def alignDown (n : Nat) : Nat := n / umpMsgBytes * umpMsgBytes

/-- How `ump_chan_init` splits the memory after the shared word (4 bytes): the start of
the first ring, and the size of each. -/
def umpChanSplit (shmem shmemBytes : Nat) : Nat × Nat :=
  let rings := alignUp (shmem + 4)
  (rings, alignDown ((shmemBytes - (rings - shmem)) / 2))

/-- The rings of an end: where it sends and where it receives. -/
def umpChanBufs (shmem shmemBytes : Nat) (discriminant : Bool) : Nat × Nat :=
  let (rings, size) := umpChanSplit shmem shmemBytes
  if discriminant then (rings, rings + size) else (rings + size, rings)

def umpChanInit (shmem shmemBytes : Nat) (discriminant : Bool) : Option UmpChan :=
  let size := (umpChanSplit shmem shmemBytes).2
  let bufs := umpChanBufs shmem shmemBytes discriminant
  umpChanInitNuma bufs.1 size bufs.2 size discriminant

/-- The sequence numbers leave room for a message. -/
def umpChanCanSend (c : UmpChan) : Bool := decide (umpIndexSub c.nextId c.ackId ≤ c.tx.bufmsgs)

/-- So many messages have arrived that the next one acknowledges them. -/
def umpChanNeedsAck (c : UmpChan) : Bool :=
  decide (umpIndexSub c.seqId c.lastAck ≥ umpIndexSub c.rx.bufmsgs 1)

/-- The header of the next message. -/
def umpHeader (msgtag seqId : Nat) : Nat := msgtag <<< umpIndexBits ||| seqId

/-- The control word that `ump_chan_tx_submit_unchecked` writes. -/
def umpChanTxControl (c : UmpChan) (msgtag : Nat) : Nat :=
  (UmpControl.mk c.tx.epoch (umpHeader msgtag c.seqId)).raw

/-- What it does to the private state. -/
def umpChanTxSubmit (c : UmpChan) : UmpChan :=
  { c with lastAck := c.seqId, nextId := umpIndex (c.nextId + 1), tx := c.tx.advance }

/-- `ump_rxchan_can_recv` on the control word at the position. -/
def umpRxchanCanRecv (c : UmpPos) (raw : Nat) : Bool := (UmpControl.ofRaw raw).epoch == c.epoch

/-- `ump_rxchan_recv` when there is a message. -/
def umpRxchanRecv (c : UmpChan) : UmpChan := { c with rx := c.rx.advance }

/-- `ump_chan_rx` up to its second access to the header of the message: it stores what the
other end has acknowledged. -/
def umpChanRxAckId (c : UmpChan) (raw : Nat) : UmpChan :=
  { c with ackId := (UmpControl.ofRaw raw).header &&& (2 ^ umpIndexBits - 1) }

/-- The tag of the message. -/
def umpChanRxMsgtag (raw : Nat) : Nat := (UmpControl.ofRaw raw).header >>> umpIndexBits

/-- `ump_chan_rx` counts the message. -/
def umpChanRxCount (c : UmpChan) : UmpChan := { c with seqId := umpIndex (c.seqId + 1) }

section Numbers

theorem umpIndex_lt (k : Nat) : umpIndex k < 2 ^ 16 := Nat.mod_lt _ (by decide)

theorem umpIndex_succ (k : Nat) : umpIndex (umpIndex k + 1) = umpIndex (k + 1) :=
  Nat.mod_add_mod k _ 1

/-- The difference of the indices of two counts is that of the counts, if it has 16 bits. -/
theorem umpIndexSub_eq {a b : Nat} (hle : b ≤ a) (hlt : a < b + 2 ^ 16) :
    umpIndexSub (umpIndex a) (umpIndex b) = a - b := by
  unfold umpIndexSub umpIndex umpIndexBits
  omega

theorem umpIndexSub_one {k : Nat} (hpos : 0 < k) (hlt : k < 2 ^ 16) : umpIndexSub k 1 = k - 1 := by
  unfold umpIndexSub umpIndex umpIndexBits
  omega

end Numbers

section Header

variable {msgtag seqId : Nat}

theorem umpHeader_eq (hseq : seqId < 2 ^ 16) : umpHeader msgtag seqId = msgtag * 2 ^ 16 + seqId := by
  unfold umpHeader umpIndexBits
  rw [← Nat.shiftLeft_add_eq_or_of_lt hseq, Nat.shiftLeft_eq]

theorem ofRaw_raw {ctrl : UmpControl} (h : ctrl.header < 2 ^ 31) :
    UmpControl.ofRaw ctrl.raw = ctrl := by
  obtain ⟨epoch, header⟩ := ctrl
  have hheader : header % 2 ^ 31 = header := Nat.mod_eq_of_lt h
  cases epoch <;> simp only [UmpControl.raw, UmpControl.ofRaw, umpHeaderBits, Bool.toNat_true,
    Bool.toNat_false, UmpControl.mk.injEq] <;> refine ⟨?_, by omega⟩
  · exact decide_eq_false (by omega)
  · exact decide_eq_true (by omega)

/-- A receiver gets back the epoch, the tag and the sequence number. -/
theorem control_round_trip (epoch : Bool) (htag : msgtag ≤ umpAckMsgtag) (hseq : seqId < 2 ^ 16) :
    UmpControl.ofRaw (UmpControl.mk epoch (umpHeader msgtag seqId)).raw =
      ⟨epoch, umpHeader msgtag seqId⟩ ∧
    umpHeader msgtag seqId &&& (2 ^ umpIndexBits - 1) = seqId ∧
    umpHeader msgtag seqId >>> umpIndexBits = msgtag := by
  have hack : umpAckMsgtag = 32767 := rfl
  have heq : umpHeader msgtag seqId = msgtag * 2 ^ 16 + seqId := umpHeader_eq hseq
  refine ⟨ofRaw_raw ?_, ?_, ?_⟩
  · dsimp only
    omega
  · rw [Nat.and_two_pow_sub_one_eq_mod, heq, umpIndexBits]
    omega
  · rw [Nat.shiftRight_eq_div_pow, heq, umpIndexBits]
    omega

end Header

end SmeltConsensus.UmpQueue.Channel
