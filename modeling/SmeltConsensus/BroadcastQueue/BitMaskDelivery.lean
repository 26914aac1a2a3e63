import SmeltConsensus.BroadcastQueue.BitMask
import SmeltConsensus.Foundation.Flags
import SmeltConsensus.Foundation.Machine
import SmeltConsensus.Foundation.RingLog

/-!
What the bit-mask queue delivers. While a reader's bit is set the writer leaves the slot
alone, so the header only loses bits between the two loads of the reader and its swap;
if the swap finds the first value, it was there all the time.
-/

set_option autoImplicit false
set_option relaxedAutoImplicit false

namespace SmeltConsensus.BroadcastQueue.BitMaskDelivery

open SmeltConsensus.Foundation
open SmeltConsensus.Foundation.Flags
open SmeltConsensus.Foundation.Machine (Reachable run)
open SmeltConsensus.Foundation.RingLog
open SmeltConsensus.BroadcastQueue.Shm (SHMQ_SIZE)
open SmeltConsensus.BroadcastQueue.BitMask

variable {α : Type} {R : Nat}

/-- How many of `k` written messages have their header. -/
def visible : WriterPc α → Nat → Nat
  | .header _, k => k - 1
  | _, k => k

/-- How many of `k` read messages a reader has cleared its bit of. -/
def cleared : ReaderPc → Nat → Nat
  | .idle, k => k
  | .payload, k => k
  | _, k => k - 1

/-- How many messages have their header. -/
def shown (s : State α R) : Nat := visible s.writerPc s.sent.length

/-- How many messages reader `i` has cleared its bit of. -/
def taken (s : State α R) (i : Fin R) : Nat := cleared (s.readerPc i) (s.received i).length

/-- What reader `id` relies on between its accesses: its slot has `header`, it has read `k`
messages and `v` have their header. -/
def ReaderOk (id v k : Nat) (header : BitVec 64) : ReaderPc → Prop
  | .idle => k ≤ v
  | .payload => k < v
  | .loadOld => 0 < k ∧ k ≤ v
  | .loadNew old => (0 < k ∧ k ≤ v) ∧ Within header old
  | .cas old newV => (0 < k ∧ k ≤ v) ∧
      ∃ mid, newV = mid ^^^ (1#64 <<< id) ∧ Within header mid ∧ Within mid old

/-- What every step keeps. -/
structure Invariant (s : State α R) : Prop where
  writer : s.writer = { shmInitContext R 0 with lPos := s.sent.length % SHMQ_SIZE }
  slotStart : ∀ slot, s.writerPc = .header slot →
    0 < s.sent.length ∧ slot = shown s % SHMQ_SIZE
  reader : ∀ i, s.readers i = { shmInitContext R i with lPos := taken s i % SHMQ_SIZE }
  reader_ok : ∀ i : Fin R, ReaderOk i (shown s) (s.received i).length
    (s.header (taken s i % SHMQ_SIZE)) (s.readerPc i)
  in_order : ∀ i, s.received i <+: s.sent
  room : ∀ i, s.sent.length ≤ taken s i + SHMQ_SIZE
  free : ∀ msg, s.writerPc = .payload msg → ∀ i, s.sent.length < taken s i + SHMQ_SIZE
  /-- The bits of a header are those of the readers that have yet to clear them. -/
  flags : ∀ m, m < shown s → shown s ≤ m + SHMQ_SIZE → ∀ b,
    ((s.header (m % SHMQ_SIZE)).getLsbD b = true ↔ ∃ h : b < R, taken s ⟨b, h⟩ ≤ m)
  untouched : ∀ j, j < SHMQ_SIZE → shown s ≤ j → s.header j = 0
  holds : Holds SHMQ_SIZE s.data s.sent

theorem visible_le (pc : WriterPc α) (k : Nat) : visible pc k ≤ k := by
  cases pc <;> simp only [visible] <;> omega

theorem cleared_le (pc : ReaderPc) (k : Nat) : cleared pc k ≤ k := by
  cases pc <;> simp only [cleared] <;> omega

theorem ReaderOk.mono {i v v' k : Nat} {header header' : BitVec 64} {pc : ReaderPc}
    (h : ReaderOk i v k header pc) (hv : v ≤ v') (hwithin : Within header' header) :
    ReaderOk i v' k header' pc := by
  cases pc with
  | idle => exact h.trans hv
  | payload => exact h.trans_le hv
  | loadOld => exact ⟨h.1, h.2.trans hv⟩
  | loadNew old => exact ⟨⟨h.1.1, h.1.2.trans hv⟩, hwithin.trans h.2⟩
  | cas old newV =>
    obtain ⟨hk, mid, hnew, hmid, hold⟩ := h
    exact ⟨⟨hk.1, hk.2.trans hv⟩, mid, hnew, hwithin.trans hmid, hold⟩

/-- A reader past its test has its bit to clear. -/
theorem ReaderOk.cleared_lt {i v k : Nat} {header : BitVec 64} {pc : ReaderPc}
    (h : ReaderOk i v k header pc) (hpc : pc ≠ .idle) : cleared pc k < v := by
  cases pc with
  | idle => exact absurd rfl hpc
  | payload => exact h
  | loadOld => exact Nat.lt_of_lt_of_le (Nat.sub_lt h.1 Nat.one_pos) h.2
  | loadNew old => exact Nat.lt_of_lt_of_le (Nat.sub_lt h.1.1 Nat.one_pos) h.1.2
  | cas old newV => exact Nat.lt_of_lt_of_le (Nat.sub_lt h.1.1 Nat.one_pos) h.1.2

theorem ReaderOk.cleared_le {i v k : Nat} {header : BitVec 64} {pc : ReaderPc}
    (h : ReaderOk i v k header pc) : BitMaskDelivery.cleared pc k ≤ v := by
  by_cases hpc : pc = .idle
  · subst hpc
    exact h
  · exact (h.cleared_lt hpc).le

/-- The mask of the writer has the bits of all readers. -/
theorem wMask_bits (hR1 : 1 ≤ R) (hR : R ≤ 64) (id b : Nat) :
    (shmInitContext R id).wMask.getLsbD b = decide (b < R) := by
  show ((List.range (R - 1)).foldl (fun (mask : BitVec 64) _ => mask ||| (mask <<< 1)) 1#64).getLsbD
    b = _
  rw [getLsbD_doubled (by decide), Bool.eq_iff_iff]
  simp only [Bool.and_eq_true, decide_eq_true_eq]
  omega

theorem bitIsSet_eq {id : Nat} (hid : id < 64) (start : BitVec 64) :
    bitIsSet id start = start.getLsbD id := by
  have hbit := and_shiftLeft_ne_zero (x := start) hid
  unfold bitIsSet
  dsimp only
  split
  · rename_i hzero
    exact (Bool.eq_false_iff.mpr fun hset => hbit.mpr hset hzero).symm
  · rename_i hne
    exact (hbit.mp hne).symm

theorem zero_bit (b : Nat) : (0 : BitVec 64).getLsbD b = false := BitVec.getLsbD_zero

theorem advance_eq (id n : Nat) : ({ shmInitContext R id with
    lPos := n % SHMQ_SIZE } : ShmQueue).advance =
      { shmInitContext R id with lPos := (n + 1) % SHMQ_SIZE } := by
  have hlt : n % SHMQ_SIZE < SHMQ_SIZE := Nat.mod_lt n (by decide)
  rw [← next_mod, Ring.next_eq hlt]
  rfl

theorem invariant_init (R : Nat) (zero : α) : Invariant (init R zero) := by
  constructor
  · rfl
  · intro slot hslot
    cases hslot
  · exact fun _ => rfl
  · exact fun _ => Nat.le_refl 0
  · exact fun _ => List.nil_prefix
  · exact fun _ => Nat.zero_le _
  · intro msg hmsg
    cases hmsg
  · intro m hm
    cases hm
  · exact fun _ _ _ => rfl
  · exact holds_nil _

section Headers

variable {s : State α R}

/-- The header of the message that a reader takes next has its bit. -/
theorem Invariant.own_bit (h : Invariant s) {i : Fin R} (hlt : taken s i < shown s) :
    (s.header (taken s i % SHMQ_SIZE)).getLsbD i = true := by
  have hroom := h.room i
  have hle := visible_le s.writerPc s.sent.length
  apply (h.flags (taken s i) hlt (hle.trans hroom) i).mpr
  exact ⟨i.isLt, Nat.le_refl _⟩

/-- A bit in the slot that is written next is that of a reader a whole lap behind. -/
theorem Invariant.old_bit (h : Invariant s) {b : Nat}
    (hset : (s.header (shown s % SHMQ_SIZE)).getLsbD b = true) :
    ∃ hb : b < R, taken s ⟨b, hb⟩ + SHMQ_SIZE ≤ shown s := by
  by_cases hlt : shown s < SHMQ_SIZE
  · rw [h.untouched _ (Nat.mod_lt _ (by decide)) (by rw [Nat.mod_eq_of_lt hlt])] at hset
    exact absurd hset (by rw [zero_bit]; decide)
  · -- the slot's message is a lap old
    obtain ⟨m, hm⟩ := Nat.exists_eq_add_of_le (Nat.le_of_not_lt hlt)
    have hslot : shown s % SHMQ_SIZE = m % SHMQ_SIZE := by
      rw [hm, Nat.add_mod_left]
    rw [hslot] at hset
    obtain ⟨hb, htaken⟩ := (h.flags m (by rw [hm]; exact Nat.lt_add_of_pos_left (by decide))
      (by rw [hm, Nat.add_comm]) b).mp hset
    exact ⟨hb, by omega⟩

/-- A slot in which no reader has a bit left is free. -/
theorem Invariant.header_zero (h : Invariant s)
    (hfree : ∀ i, shown s < taken s i + SHMQ_SIZE) : s.header (shown s % SHMQ_SIZE) = 0 := by
  refine Within.eq_zero fun b hset => ?_
  obtain ⟨hb, hlap⟩ := h.old_bit hset
  have hgone := hfree ⟨b, hb⟩
  omega

/-- A free slot is one that all readers have left. -/
theorem Invariant.room_of_zero (h : Invariant s) (hpc : shown s = s.sent.length)
    (hzero : s.header (s.sent.length % SHMQ_SIZE) = 0) (i : Fin R) :
    s.sent.length < taken s i + SHMQ_SIZE := by
  by_contra hfull
  have hroom := h.room i
  have heq : s.sent.length = taken s i + SHMQ_SIZE := by omega
  have hlt : taken s i < shown s := by
    rw [hpc, heq]
    exact Nat.lt_add_of_pos_right (by decide)
  have hbit := h.own_bit hlt
  have hslot : s.sent.length % SHMQ_SIZE = taken s i % SHMQ_SIZE := by
    rw [heq, Nat.add_mod_right]
  rw [← hslot, hzero, zero_bit] at hbit
  cases hbit

/-- The bit test tells whether a message is left. -/
theorem Invariant.bit_iff (h : Invariant s) {i : Fin R} (hle : taken s i ≤ shown s) :
    (s.header (taken s i % SHMQ_SIZE)).getLsbD i = true ↔ taken s i < shown s := by
  refine ⟨fun hset => ?_, h.own_bit⟩
  apply Nat.lt_of_le_of_ne hle
  intro heq
  rw [heq] at hset
  obtain ⟨hb, hlap⟩ := h.old_bit hset
  have hpos : 0 < SHMQ_SIZE := by decide
  have hlap : taken s i + SHMQ_SIZE ≤ shown s := hlap
  omega

end Headers

section Steps

variable {s s' : State α R}

/-- A step of a reader outside of the headers and its position. -/
theorem Invariant.setReader (h : Invariant s) (i : Fin R) (pc : ReaderPc) (read : List α)
    (horder : read <+: s.sent) (htaken : cleared pc read.length = taken s i)
    (hok : ReaderOk i (shown s) read.length (s.header (taken s i % SHMQ_SIZE)) pc) :
    Invariant { s with
      readerPc := Function.update s.readerPc i pc
      received := Function.update s.received i read } := by
  have hsame : ∀ j, taken { s with
      readerPc := Function.update s.readerPc i pc
      received := Function.update s.received i read } j = taken s j := by
    intro j
    by_cases hj : j = i
    · subst hj
      simp only [taken, Function.update_self]
      exact htaken
    · simp only [taken, Function.update_of_ne hj]
  constructor
  · exact h.writer
  · exact h.slotStart
  · intro j
    rw [hsame]
    exact h.reader j
  · intro j
    rw [hsame]
    by_cases hj : j = i
    · subst hj
      simp only [Function.update_self]
      exact hok
    · simp only [Function.update_of_ne hj]
      exact h.reader_ok j
  · intro j
    by_cases hj : j = i
    · subst hj
      simp only [Function.update_self]
      exact horder
    · simp only [Function.update_of_ne hj]
      exact h.in_order j
  · intro j
    rw [hsame]
    exact h.room j
  · intro msg hmsg j
    rw [hsame]
    exact h.free msg hmsg j
  · intro m hm hlap b
    simp only [hsame]
    exact h.flags m hm hlap b
  · exact h.untouched
  · exact h.holds

/-- A swap that succeeds clears the reader's bit in the header as it is. -/
theorem Invariant.swapped (h : Invariant s) {i : Fin R} {old newV : BitVec 64}
    (hpc : s.readerPc i = .cas old newV) (heq : s.header (taken s i % SHMQ_SIZE) = old) :
    newV = s.header (taken s i % SHMQ_SIZE) ^^^ (1#64 <<< (i : Nat)) := by
  have hok := h.reader_ok i
  rw [hpc] at hok
  obtain ⟨-, mid, hnew, hmid, hold⟩ := hok
  rw [heq] at hmid ⊢
  rw [hnew, hold.antisymm hmid]

/-- Once reader `i` has cleared its bit, it is none of those that have yet to clear theirs. -/
theorem Invariant.flags_cleared (h : Invariant s) {i : Fin R} (hlt : taken s i < shown s)
    {m b : Nat} (hm : m < shown s) (hlap : shown s ≤ m + SHMQ_SIZE) :
    (Function.update s.header (taken s i % SHMQ_SIZE)
        (s.header (taken s i % SHMQ_SIZE) ^^^ (1#64 <<< (i : Nat))) (m % SHMQ_SIZE)).getLsbD b =
          true ↔
      ∃ hb : b < R, (if ⟨b, hb⟩ = i then taken s i + 1 else taken s ⟨b, hb⟩) ≤ m := by
  have hbit := h.own_bit hlt
  have hflags := h.flags m hm hlap b
  by_cases hmi : m = taken s i
  · subst hmi
    rw [Function.update_self, getLsbD_xor_shiftLeft hbit, Bool.and_eq_true, decide_eq_true_eq,
      hflags]
    constructor
    · rintro ⟨⟨hb, hle⟩, hne⟩
      refine ⟨hb, ?_⟩
      rw [if_neg fun heq => hne (congrArg Fin.val heq)]
      exact hle
    · rintro ⟨hb, hle⟩
      by_cases hbi : (⟨b, hb⟩ : Fin R) = i
      · rw [if_pos hbi] at hle
        omega
      · rw [if_neg hbi] at hle
        exact ⟨⟨hb, hle⟩, fun heq => hbi (Fin.ext heq)⟩
  · have hshown : shown s ≤ s.sent.length := visible_le _ _
    have hslot : m % SHMQ_SIZE ≠ taken s i % SHMQ_SIZE := by
      have hroom := h.room i
      rcases Nat.lt_or_gt_of_ne hmi with hless | hmore
      · exact mod_ne hless (Nat.lt_of_lt_of_le hlt hlap)
      · exact (mod_ne hmore (Nat.lt_of_lt_of_le hm (hshown.trans hroom))).symm
    rw [Function.update_of_ne hslot, hflags]
    constructor
    · rintro ⟨hb, hle⟩
      refine ⟨hb, ?_⟩
      split
      · rename_i hbi
        rw [hbi] at hle
        omega
      · exact hle
    · rintro ⟨hb, hle⟩
      refine ⟨hb, ?_⟩
      split at hle
      · rename_i hbi
        rw [hbi]
        exact Nat.le_of_succ_le hle
      · exact hle

/-- A successful compare-and-swap. -/
theorem Invariant.clear (h : Invariant s) {i : Fin R} {old newV : BitVec 64}
    (hpc : s.readerPc i = .cas old newV) (heq : s.header (taken s i % SHMQ_SIZE) = old) :
    Invariant { s with
      header := Function.update s.header (taken s i % SHMQ_SIZE) newV
      readers := Function.update s.readers i (s.readers i).advance
      readerPc := Function.update s.readerPc i .idle } := by
  have hok := h.reader_ok i
  have hlt : taken s i < shown s := hok.cleared_lt (by rw [hpc]; exact fun hidle => by cases hidle)
  have hbit := h.own_bit hlt
  have hnew := h.swapped hpc heq
  have hcount : (s.received i).length = taken s i + 1 := by
    rw [hpc] at hok
    have hpos := hok.1.1
    rw [taken, hpc]
    exact (Nat.sub_add_cancel hpos).symm
  have htaken : ∀ j, taken { s with
      header := Function.update s.header (taken s i % SHMQ_SIZE) newV
      readers := Function.update s.readers i (s.readers i).advance
      readerPc := Function.update s.readerPc i .idle } j =
        if j = i then taken s i + 1 else taken s j := by
    intro j
    by_cases hj : j = i
    · subst hj
      rw [if_pos rfl, ← hcount]
      simp only [taken, Function.update_self]
      rfl
    · rw [if_neg hj]
      simp only [taken, Function.update_of_ne hj]
  have hgrow : ∀ j, taken s j ≤ if j = i then taken s i + 1 else taken s j := by
    intro j
    split
    · rename_i hj
      rw [hj]
      exact Nat.le_succ _
    · exact Nat.le_refl _
  -- every header keeps its bits or loses some
  have hwithin : ∀ p, Within (Function.update s.header (taken s i % SHMQ_SIZE) newV p)
      (s.header p) := by
    intro p
    by_cases hp : p = taken s i % SHMQ_SIZE
    · subst hp
      rw [Function.update_self, hnew]
      exact xor_within hbit
    · rw [Function.update_of_ne hp]
      exact Within.refl _
  constructor
  · exact h.writer
  · exact h.slotStart
  · intro j
    rw [htaken]
    by_cases hj : j = i
    · subst hj
      simp only [Function.update_self, if_true]
      rw [h.reader j]
      exact advance_eq j (taken s j)
    · simp only [Function.update_of_ne hj, if_neg hj]
      exact h.reader j
  · intro j
    rw [htaken]
    by_cases hj : j = i
    · subst hj
      simp only [Function.update_self]
      show (s.received j).length ≤ shown s
      rw [hcount]
      exact hlt
    · simp only [Function.update_of_ne hj, if_neg hj]
      exact (h.reader_ok j).mono (Nat.le_refl _) (hwithin _)
  · exact h.in_order
  · intro j
    rw [htaken]
    exact (h.room j).trans (Nat.add_le_add_right (hgrow j) _)
  · intro msg hmsg j
    rw [htaken]
    exact (h.free msg hmsg j).trans_le (Nat.add_le_add_right (hgrow j) _)
  · intro m hm hlap b
    simp only [htaken]
    rw [hnew]
    exact h.flags_cleared hlt hm hlap
  · intro j hj hle
    have hsub := hwithin j
    rw [h.untouched j hj hle] at hsub
    exact hsub.eq_zero
  · exact h.holds

theorem Invariant.readerStep (hR : R ≤ 64) (h : Invariant s) {i : Fin R}
    (hstep : BitMask.readerStep s i = some s') : Invariant s' := by
  have hok := h.reader_ok i
  have hq := h.reader i
  have hpos : (s.readers i).lPos = taken s i % SHMQ_SIZE := by
    rw [hq]
  have htaken : taken s i = cleared (s.readerPc i) (s.received i).length := rfl
  have hcases := readerStep_cases hstep
  rw [hpos] at hcases
  rcases hcases with ⟨old, newV, hpc, hsame, rfl⟩ | ⟨hpc, hset, rfl⟩ | ⟨hpc, rfl⟩ | ⟨hpc, rfl⟩ |
    ⟨old, hpc, rfl⟩ | ⟨old, newV, hpc, rfl⟩
  · exact h.clear hpc hsame
  all_goals rw [hpc] at hok htaken
  · -- the bit of the next message is set
    have hid : (s.readers i).id = i := by rw [hq]; rfl
    rw [hid, bitIsSet_eq (by omega)] at hset
    have hlt := (h.bit_iff (htaken.le.trans hok)).mp hset
    have hnext := h.setReader i .payload (s.received i) (h.in_order i) htaken.symm
      (htaken.symm.le.trans_lt hlt)
    rw [Function.update_eq_self] at hnext
    exact hnext
  · -- the message is copied out
    have hmore : (s.received i).length < s.sent.length := hok.trans_le (visible_le _ _)
    have hmsg := List.getElem?_eq_getElem hmore
    have hroom := h.room i
    have hslot : s.data (taken s i % SHMQ_SIZE) = s.sent[(s.received i).length] := by
      rw [htaken] at hroom ⊢
      exact h.holds _ _ hmsg hroom
    apply h.setReader i .loadOld
    · apply prefix_next (h.in_order i)
      rw [hslot]
      exact hmsg
    · rw [List.length_append, List.length_singleton, htaken]
      rfl
    · rw [List.length_append, List.length_singleton]
      exact ⟨Nat.succ_pos _, hok⟩
  · -- the first load
    have hnext := h.setReader i (.loadNew (s.header (taken s i % SHMQ_SIZE))) (s.received i)
      (h.in_order i) htaken.symm ⟨hok, Within.refl _⟩
    rw [Function.update_eq_self] at hnext
    exact hnext
  · -- the second load
    have hmask : (s.readers i).rMask = 1#64 <<< (i : Nat) := by rw [hq]; rfl
    have hnext := h.setReader i
      (.cas old (s.header (taken s i % SHMQ_SIZE) ^^^ (s.readers i).rMask)) (s.received i)
      (h.in_order i) htaken.symm ⟨hok.1, s.header (taken s i % SHMQ_SIZE), by rw [hmask],
        Within.refl _, hok.2⟩
    rw [Function.update_eq_self] at hnext
    exact hnext
  · -- the swap has failed
    have hnext := h.setReader i .loadOld (s.received i) (h.in_order i) htaken.symm hok.1
    rw [Function.update_eq_self] at hnext
    exact hnext

/-- A step of the writer that changes nothing but where it is. -/
theorem Invariant.setWriter (h : Invariant s) (pc : WriterPc α)
    (hslot : ∀ slot, pc ≠ .header slot) (hshown : shown s = s.sent.length)
    (hfree : ∀ msg, pc = .payload msg → ∀ i, s.sent.length < taken s i + SHMQ_SIZE) :
    Invariant { s with writerPc := pc } := by
  have hvisible : shown { s with writerPc := pc } = shown s := by
    rw [hshown]
    show visible pc s.sent.length = s.sent.length
    cases pc with
    | idle => rfl
    | test msg => rfl
    | payload msg => rfl
    | header slot => exact absurd rfl (hslot slot)
  constructor
  · exact h.writer
  · exact fun slot hpc => absurd hpc (hslot slot)
  · exact h.reader
  · intro i
    rw [hvisible]
    exact h.reader_ok i
  · exact h.in_order
  · exact h.room
  · exact hfree
  · rw [hvisible]
    exact h.flags
  · rw [hvisible]
    exact h.untouched
  · exact h.holds

/-- The payload goes into a slot that all readers have left. -/
theorem Invariant.payload (h : Invariant s) {msg : α} (hpc : s.writerPc = .payload msg) :
    Invariant { s with
      data := Function.update s.data s.writer.lPos msg
      writer := s.writer.advance
      writerPc := .header s.writer.lPos
      sent := s.sent ++ [msg] } := by
  have hpos : s.writer.lPos = s.sent.length % SHMQ_SIZE := by
    rw [h.writer]
  have hlen : (s.sent ++ [msg]).length = s.sent.length + 1 := List.length_append
  have hold : shown s = s.sent.length := by
    rw [shown, hpc]
    rfl
  have hshown : shown { s with
      data := Function.update s.data s.writer.lPos msg
      writer := s.writer.advance
      writerPc := .header s.writer.lPos
      sent := s.sent ++ [msg] } = shown s := by
    rw [hold]
    show (s.sent ++ [msg]).length - 1 = s.sent.length
    rw [hlen, Nat.add_sub_cancel]
  constructor
  · show s.writer.advance = { shmInitContext R 0 with lPos := (s.sent ++ [msg]).length % SHMQ_SIZE }
    rw [hlen, h.writer]
    exact advance_eq 0 s.sent.length
  · intro slot hslot
    obtain rfl := WriterPc.header.inj hslot
    rw [hshown, hold, hpos]
    refine ⟨?_, rfl⟩
    rw [hlen]
    exact Nat.succ_pos _
  · exact h.reader
  · intro i
    rw [hshown]
    exact h.reader_ok i
  · exact fun i => (h.in_order i).trans (List.prefix_append _ _)
  · intro i
    rw [hlen]
    exact h.free msg hpc i
  · intro msg' hmsg
    cases hmsg
  · rw [hshown]
    exact h.flags
  · rw [hshown]
    exact h.untouched
  · have hpush := h.holds.push msg
    rw [← hpos] at hpush
    exact hpush

/-- The header store shows the message to all readers. -/
theorem Invariant.store (hR1 : 1 ≤ R) (hR : R ≤ 64) (h : Invariant s) {slot : Nat}
    (hpc : s.writerPc = .header slot) : Invariant { s with
      header := Function.update s.header slot s.writer.wMask
      writerPc := .idle } := by
  obtain ⟨hpos, hslot⟩ := h.slotStart slot hpc
  have hold : shown s + 1 = s.sent.length := by
    rw [shown, hpc]
    exact Nat.sub_add_cancel hpos
  have hmask : s.writer.wMask = (shmInitContext R 0).wMask := by rw [h.writer]
  have hshown : shown { s with
      header := Function.update s.header slot s.writer.wMask
      writerPc := .idle } = shown s + 1 := hold.symm
  constructor
  · exact h.writer
  · intro slot' hslot'
    cases hslot'
  · exact h.reader
  · intro i
    have hok := h.reader_ok i
    have hroom := h.room i
    rw [hshown]
    by_cases hidle : s.readerPc i = .idle
    · rw [hidle] at hok ⊢
      exact Nat.le_succ_of_le hok
    · have hlt : taken s i < shown s := hok.cleared_lt hidle
      have hne : taken s i % SHMQ_SIZE ≠ slot := by
        rw [hslot]
        exact mod_ne hlt (by omega)
      have hsame : Function.update s.header slot s.writer.wMask (taken s i % SHMQ_SIZE) =
          s.header (taken s i % SHMQ_SIZE) := Function.update_of_ne hne _ _
      apply hok.mono (Nat.le_succ _)
      show Within (Function.update s.header slot s.writer.wMask (taken s i % SHMQ_SIZE)) _
      rw [hsame]
      exact Within.refl _
  · exact h.in_order
  · exact h.room
  · intro msg hmsg
    cases hmsg
  · intro m hm hlap b
    rw [hshown] at hm hlap
    show (Function.update s.header slot s.writer.wMask (m % SHMQ_SIZE)).getLsbD b = true ↔
      ∃ hb : b < R, taken s ⟨b, hb⟩ ≤ m
    rcases Nat.lt_succ_iff_lt_or_eq.mp hm with hlt | rfl
    · have hne : m % SHMQ_SIZE ≠ slot := by
        rw [hslot]
        exact mod_ne hlt hlap
      rw [Function.update_of_ne hne]
      exact h.flags m hlt (Nat.le_of_succ_le hlap) b
    · rw [hslot, Function.update_self, hmask, wMask_bits hR1 hR, decide_eq_true_eq]
      exact ⟨fun hb => ⟨hb, (h.reader_ok ⟨b, hb⟩).cleared_le⟩, fun ⟨hb, _⟩ => hb⟩
  · intro j hj hle
    rw [hshown] at hle
    have hne : j ≠ slot := by
      rw [hslot, Nat.mod_eq_of_lt (by omega)]
      omega
    show Function.update s.header slot s.writer.wMask j = 0
    rw [Function.update_of_ne hne]
    exact h.untouched j hj (Nat.le_of_succ_le hle)
  · exact h.holds

theorem Invariant.writerStep (hR1 : 1 ≤ R) (hR : R ≤ 64) (h : Invariant s)
    (hstep : BitMask.writerStep s = some s') : Invariant s' := by
  rcases writerStep_cases hstep with ⟨msg, hpc, hzero, rfl⟩ | ⟨msg, hpc, rfl⟩ | ⟨slot, hpc, rfl⟩
  · have hshown : shown s = s.sent.length := by
      rw [shown, hpc]
      rfl
    rw [h.writer] at hzero
    apply h.setWriter _ (fun slot heq => by cases heq) hshown
    exact fun _ _ => h.room_of_zero hshown hzero
  · exact h.payload hpc
  · exact h.store hR1 hR hpc

theorem invariant_step (hR1 : 1 ≤ R) (hR : R ≤ 64) (h : Invariant s) {a : Step α R}
    (hstep : step s a = some s') : Invariant s' := by
  cases a with
  | send msg =>
    obtain ⟨hpc, rfl⟩ := send_cases hstep
    apply h.setWriter _ (fun slot heq => by cases heq)
    · rw [shown, hpc]
      rfl
    · exact fun msg' heq => by cases heq
  | writer => exact h.writerStep hR1 hR hstep
  | reader i => exact h.readerStep hR hstep

/-- The header that the writer is about to store goes into a free slot. -/
theorem Invariant.slot_free (h : Invariant s) {slot : Nat} (hpc : s.writerPc = .header slot) :
    s.header slot = 0 := by
  obtain ⟨hpos, hslot⟩ := h.slotStart slot hpc
  have hold : shown s + 1 = s.sent.length := by
    rw [shown, hpc]
    exact Nat.sub_add_cancel hpos
  rw [hslot]
  apply h.header_zero
  intro i
  have hroom := h.room i
  omega

/-- A header changes by the store of the mask into a free slot or by a reader that clears its
own bit. -/
theorem header_step (h : Invariant s) {a : Step α R} (hstep : step s a = some s') {j : Nat}
    (hj : s'.header j ≠ s.header j) :
    (a = .writer ∧ s.header j = 0 ∧ s'.header j = s.writer.wMask) ∨
      ∃ i : Fin R, a = .reader i ∧ (s.header j).getLsbD i = true ∧ ∀ b,
        (s'.header j).getLsbD b = ((s.header j).getLsbD b && decide (b ≠ i)) := by
  cases a with
  | send msg =>
    obtain ⟨-, rfl⟩ := send_cases hstep
    exact absurd rfl hj
  | writer =>
    rcases writerStep_cases hstep with ⟨msg, -, -, rfl⟩ | ⟨msg, -, rfl⟩ | ⟨slot, hpc, rfl⟩
    · exact absurd rfl hj
    · exact absurd rfl hj
    · obtain rfl : j = slot := by
        by_contra hne
        exact hj (Function.update_of_ne hne _ _)
      exact .inl ⟨rfl, h.slot_free hpc, Function.update_self _ _ _⟩
  | reader i =>
    rcases readerStep_cases hstep with ⟨old, newV, hpc, hsame, rfl⟩ | ⟨-, -, rfl⟩ | ⟨-, rfl⟩ |
      ⟨-, rfl⟩ | ⟨old, -, rfl⟩ | ⟨old, newV, -, rfl⟩
    · have hpos : (s.readers i).lPos = taken s i % SHMQ_SIZE := by rw [h.reader i]
      have hidle : s.readerPc i ≠ .idle := by
        rw [hpc]
        exact fun hidle => by cases hidle
      have hbit := h.own_bit ((h.reader_ok i).cleared_lt hidle)
      rw [hpos] at hsame
      obtain rfl : j = (s.readers i).lPos := by
        by_contra hne
        exact hj (Function.update_of_ne hne _ _)
      rw [hpos]
      refine .inr ⟨i, rfl, hbit, fun b => ?_⟩
      show (Function.update s.header (taken s i % SHMQ_SIZE) newV
        (taken s i % SHMQ_SIZE)).getLsbD b = _
      rw [Function.update_self, h.swapped hpc hsame, getLsbD_xor_shiftLeft hbit]
    all_goals exact absurd rfl hj

end Steps

/-- The bit-mask queue over a whole run. -/
structure Delivered (s : State α R) : Prop where
  in_order : ∀ i, s.received i <+: s.sent
  /-- A reader's bit is set if and only if a message with its header is left for the reader. -/
  readable : ∀ i, s.readerPc i = .idle →
    (bitIsSet (s.readers i).id (s.header (s.readers i).lPos) = true ↔
      (s.received i).length < shown s)
  /-- The bits of a message in the ring are those of the readers that have yet to clear them. -/
  flags : ∀ m, m < shown s → shown s ≤ m + SHMQ_SIZE → ∀ b,
    ((s.header (m % SHMQ_SIZE)).getLsbD b = true ↔ ∃ h : b < R, taken s ⟨b, h⟩ ≤ m)
  /-- The mask that the writer stores has the bits of the readers. -/
  mask : ∀ b, s.writer.wMask.getLsbD b = decide (b < R)
  /-- A header that the next step changes was 0 and gets the writer's mask, or loses just the
  bit of the reader that takes the step. -/
  header_step : ∀ a s', step s a = some s' → ∀ j, s'.header j ≠ s.header j →
    (a = .writer ∧ s.header j = 0 ∧ s'.header j = s.writer.wMask) ∨
      ∃ i : Fin R, a = .reader i ∧ (s.header j).getLsbD i = true ∧ ∀ b,
        (s'.header j).getLsbD b = ((s.header j).getLsbD b && decide (b ≠ i))

/-- The queue delivers every message to every reader, for any number of readers that fits the
header and any interleaving. -/
theorem bit_mask_delivered (hR1 : 1 ≤ R) (hR : R ≤ 64) (zero : α) (s : State α R)
    (hr : Reachable step (init R zero) s) : Delivered s := by
  have h : Invariant s := hr.invariant (invariant_init R zero) fun s a s' hI hstep =>
    invariant_step hR1 hR hI hstep
  refine ⟨h.in_order, ?_, h.flags, ?_, fun a s' hstep j hj => header_step h hstep hj⟩
  · intro i hidle
    have htaken : taken s i = (s.received i).length := by
      rw [taken, hidle]
      rfl
    have hid : (s.readers i).id = i := by
      rw [h.reader i]
      rfl
    have hpos : (s.readers i).lPos = taken s i % SHMQ_SIZE := by rw [h.reader i]
    rw [hid, hpos, bitIsSet_eq (i.isLt.trans_le hR), h.bit_iff (h.reader_ok i).cleared_le, htaken]
  · intro b
    rw [h.writer]
    exact wMask_bits hR1 hR 0 b

private def contended : List (Step Nat 2) :=
  [.send 7, .writer, .writer, .writer, .reader 0, .reader 1, .reader 0, .reader 1, .reader 0,
    .reader 1, .reader 0, .reader 1, .reader 0, .reader 1]

/-- The swap of reader 1 fails since reader 0 has cleared its bit after the loads of reader 1. -/
theorem bit_mask_delivered_contended : ∃ s : State Nat 2, s.sent = [7] ∧ s.received 0 = [7] ∧
    s.received 1 = [7] ∧ s.header 0 = 2 ∧ Delivered s :=
  ⟨(run step (init 2 0) contended).get rfl, by decide, by decide, by decide, by decide,
    bit_mask_delivered (by decide) (by decide) 0 _ (Machine.reachable_of_run contended rfl)⟩

end SmeltConsensus.BroadcastQueue.BitMaskDelivery
