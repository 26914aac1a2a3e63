import SmeltConsensus.BroadcastQueue.LapBarrier
import SmeltConsensus.Foundation.Machine
import SmeltConsensus.Foundation.RingLog

/-!
What the lap-barrier queue delivers. A status word is never `END` but while its reader
waits, so the values that are left from the lap before hold nobody up; the writer begins
a lap when every reader has arrived at the end of the last one.
-/

set_option autoImplicit false
set_option relaxedAutoImplicit false

namespace SmeltConsensus.BroadcastQueue.LapBarrierDelivery

open SmeltConsensus.Foundation
open SmeltConsensus.Foundation.Machine (Reachable run)
open SmeltConsensus.Foundation.RingLog (prefix_next)
open SmeltConsensus.BroadcastQueue.Shm (slots slots_eq)
open SmeltConsensus.BroadcastQueue.LapBarrier

variable {α : Type} {R : Nat}

/-- How many messages are in their slots that the writer's position does not count yet. -/
def pending : WriterPc α → Nat
  | .move => 1
  | _ => 0

/-- How many messages the readers can see. -/
def shown (s : State α R) : Nat := s.sent.length - pending s.writer

/-- The writer knows that reader `i` has arrived, and has not released it. -/
def Held : WriterPc α → Nat → Prop
  | .check _ j, i => i < j
  | .release _ j, i => j ≤ i
  | _, _ => False

/-- The writer's position in every place of `shm_send_raw`. -/
def WriterOk (n pos : Nat) : WriterPc α → Prop
  | .check _ _ => pos = n
  | .release _ _ => pos = 0
  | .slot _ => pos < n
  | .move => pos < n
  | _ => pos ≤ n

/-- A reader: where it is, its status word, its position and how many messages it has read. -/
structure Reader where
  pc : ReaderPc
  status : Nat
  lPos : Nat
  count : Nat

def reader (s : State α R) (i : Fin R) : Reader :=
  ⟨s.readers i, s.shm.readersPos i, s.lPos i, (s.received i).length⟩

/-- The reader waits for the next lap after it has read `v` messages. -/
structure Arrived (v : Nat) (r : Reader) : Prop where
  pc : r.pc = .wait
  status : r.status = END
  lPos : r.lPos = 0
  count : r.count = v

/-- The reader is in the lap that begins with message `start`; the writer is at `pos`. -/
structure InLap (start pos : Nat) (r : Reader) : Prop where
  status : r.status ≠ END
  count : r.count = start + r.lPos
  le : r.lPos ≤ pos
  waits : r.pc = .wait → r.status = RESET
  reads : r.pc = .read → r.lPos < pos

/-- A reader has arrived, which the writer may yet find out at the end of its lap, or it is in
the writer's lap. -/
def ReaderOk (n start pos : Nat) (held : Prop) (r : Reader) : Prop :=
  (Arrived (start + pos) r ∧ (pos = n ∨ held)) ∨ (InLap start pos r ∧ ¬ held)

/-- What every step keeps, in lap `lap` of the writer. -/
structure Invariant (lap : Nat) (s : State α R) : Prop where
  writer : WriterOk (slots R) s.shm.writePos s.writer
  length : s.sent.length = lap * slots R + s.shm.writePos + pending s.writer
  readers : ∀ i : Fin R, ReaderOk (slots R) (lap * slots R) s.shm.writePos (Held s.writer i)
    (reader s i)
  in_order : ∀ i, s.received i <+: s.sent
  data : ∀ k x, lap * slots R ≤ k → s.sent[k]? = some x → s.shm.data (k - lap * slots R) = x

theorem WriterOk.le {n pos : Nat} {pc : WriterPc α} (h : WriterOk n pos pc) : pos ≤ n := by
  cases pc with
  | idle => exact h
  | test msg => exact h
  | check msg i => exact Nat.le_of_eq h
  | release msg i => exact (Nat.le_of_eq h).trans (Nat.zero_le n)
  | slot msg => exact Nat.le_of_lt h
  | move => exact Nat.le_of_lt h

theorem slots_pos (hR : R ≤ 61) : 0 < slots R := by
  rw [slots_eq]
  omega

/-- A reader goes on in its lap. -/
theorem InLap.move {start pos : Nat} {r : Reader} (h : InLap start pos r) {pc : ReaderPc}
    (hwait : pc ≠ .wait) (hread : pc = .read → r.lPos < pos) :
    InLap start pos { r with pc := pc } where
  status := h.status
  count := h.count
  le := h.le
  waits hpc := absurd hpc hwait
  reads := hread

namespace ReaderOk

variable {n start pos : Nat} {held held' : Prop} {r : Reader}

/-- A reader that the writer finds at the end is held from then on. -/
theorem arrived (h : ReaderOk n start pos held r) (hend : r.status = END) :
    Arrived (start + pos) r := by
  rcases h with ⟨harr, -⟩ | ⟨hlap, -⟩
  · exact harr
  · exact absurd hend hlap.status

theorem arrived_of_held (h : ReaderOk n start pos held r) (hheld : held) :
    Arrived (start + pos) r := by
  rcases h with ⟨harr, -⟩ | ⟨-, hfree⟩
  · exact harr
  · exact absurd hheld hfree

/-- A reader that does not wait for the writer is in the writer's lap. -/
theorem inLap (h : ReaderOk n start pos held r) (hout : r.pc ≠ .wait ∨ r.status ≠ END) :
    InLap start pos r ∧ ¬ held := by
  rcases h with ⟨harr, -⟩ | hlap
  · rcases hout with hpc | hstatus
    · exact absurd harr.pc hpc
    · exact absurd harr.status hstatus
  · exact hlap

/-- The writer forgets about readers only at the end of its lap. -/
theorem weaken (h : ReaderOk n start pos held r) (hless : held' → held)
    (hkeep : held → pos = n ∨ held') : ReaderOk n start pos held' r := by
  rcases h with ⟨harr, hwhy⟩ | ⟨hlap, hfree⟩
  · exact .inl ⟨harr, hwhy.elim .inl hkeep⟩
  · exact .inr ⟨hlap, fun hheld => hfree (hless hheld)⟩

/-- The next message makes the lap longer for all readers. -/
theorem grow (h : ReaderOk n start pos held r) (hlt : pos < n) (hfree : ¬ held) :
    ReaderOk n start (pos + 1) held r := by
  rcases h with ⟨-, hend | hheld⟩ | ⟨hlap, -⟩
  · omega
  · exact absurd hheld hfree
  · exact .inr ⟨{ hlap with
      le := Nat.le_succ_of_le hlap.le
      reads := fun hpc => Nat.lt_succ_of_lt (hlap.reads hpc) }, hfree⟩

end ReaderOk

theorem invariant_init (R : Nat) (zero : α) : Invariant 0 (init R zero) := by
  have hzero : 0 * slots R = 0 := Nat.zero_mul _
  constructor
  · exact Nat.zero_le _
  · rw [hzero]
    rfl
  · intro i
    rw [hzero]
    refine .inr ⟨?_, id⟩
    constructor
    · exact Nat.zero_ne_one
    · rfl
    · exact Nat.le_refl 0
    · exact fun hpc => by cases hpc
    · exact fun hpc => by cases hpc
  · exact fun _ => List.nil_prefix
  · intro k x _ hx
    cases hx

section Steps

variable {lap : Nat} {s s' : State α R}

/-- A step of a reader: its status, its position and what it has read. -/
theorem Invariant.setReader (h : Invariant lap s) (i : Fin R) (r : Reader) (read : List α)
    (hcount : r.count = read.length) (horder : read <+: s.sent)
    (hok : ReaderOk (slots R) (lap * slots R) s.shm.writePos (Held s.writer i) r) :
    Invariant lap { s with
      shm := { s.shm with readersPos := Function.update s.shm.readersPos i r.status }
      lPos := Function.update s.lPos i r.lPos
      readers := Function.update s.readers i r.pc
      received := Function.update s.received i read } := by
  constructor
  · exact h.writer
  · exact h.length
  · intro j
    by_cases hj : j = i
    · subst hj
      simp only [reader, Function.update_self]
      rw [← hcount]
      exact hok
    · simp only [reader, Function.update_of_ne hj]
      exact h.readers j
  · intro j
    by_cases hj : j = i
    · subst hj
      simp only [Function.update_self]
      exact horder
    · simp only [Function.update_of_ne hj]
      exact h.in_order j
  · exact h.data

/-- A step of a reader that changes nothing but where it is. -/
theorem Invariant.moveReader (h : Invariant lap s) (i : Fin R) (pc : ReaderPc)
    (hok : ReaderOk (slots R) (lap * slots R) s.shm.writePos (Held s.writer i)
      { reader s i with pc := pc }) : Invariant lap (s.moveReader i pc) := by
  have hnext := h.setReader i { reader s i with pc := pc } (s.received i) rfl (h.in_order i) hok
  simp only [reader, Function.update_eq_self] at hnext
  exact hnext

/-- A reader that has read the whole lap arrives, and so the writer is at its end as well. -/
theorem Invariant.arrive (h : Invariant lap s) {i : Fin R} (hpc : s.readers i = .idle)
    (hend : s.lPos i = slots R) : Invariant lap { s with
      shm := { s.shm with readersPos := Function.update s.shm.readersPos i END }
      lPos := Function.update s.lPos i 0
      readers := Function.update s.readers i .wait } := by
  obtain ⟨hlap, -⟩ := (h.readers i).inLap (.inl (by simp only [reader, hpc]; decide))
  have hle : s.lPos i ≤ s.shm.writePos := hlap.le
  have hpos : s.shm.writePos = slots R := Nat.le_antisymm h.writer.le (hend ▸ hle)
  have hall : (s.received i).length = lap * slots R + s.shm.writePos := by
    have hcount : (s.received i).length = lap * slots R + s.lPos i := hlap.count
    rw [hcount, hend, hpos]
  have hnext := h.setReader i ⟨.wait, END, 0, (s.received i).length⟩ (s.received i) rfl
    (h.in_order i) (.inl ⟨⟨rfl, rfl, rfl, hall⟩, .inl hpos⟩)
  rw [Function.update_eq_self] at hnext
  exact hnext

/-- The message at the reader's position is the next one. -/
theorem Invariant.copy (h : Invariant lap s) {i : Fin R} (hpc : s.readers i = .read) :
    Invariant lap { s with
      lPos := Function.update s.lPos i (s.lPos i + 1)
      readers := Function.update s.readers i .idle
      received := Function.update s.received i (s.received i ++ [s.shm.data (s.lPos i)]) } := by
  obtain ⟨hlap, hfree⟩ := (h.readers i).inLap (.inl (by simp only [reader, hpc]; decide))
  have hlt : s.lPos i < s.shm.writePos := hlap.reads hpc
  have hcount : (s.received i).length = lap * slots R + s.lPos i := hlap.count
  have hlength := h.length
  have hmore : (s.received i).length < s.sent.length := by omega
  have hslot := h.data _ _ (by rw [hcount]; exact Nat.le_add_right _ _)
    (List.getElem?_eq_getElem hmore)
  have hindex : (s.received i).length - lap * slots R = s.lPos i := by
    rw [hcount, Nat.add_sub_cancel_left]
  rw [hindex] at hslot
  have hnew : (s.received i).length + 1 = lap * slots R + (s.lPos i + 1) := by
    rw [hcount, Nat.add_assoc]
  have hnext := h.setReader i
    ⟨.idle, s.shm.readersPos i, s.lPos i + 1, (s.received i).length + 1⟩
    (s.received i ++ [s.shm.data (s.lPos i)])
    (by rw [List.length_append, List.length_singleton])
    (prefix_next (h.in_order i) (by rw [hslot]; exact List.getElem?_eq_getElem hmore))
    (.inr ⟨⟨hlap.status, hnew, hlt, fun hwait => ReaderPc.noConfusion hwait,
      fun hread => ReaderPc.noConfusion hread⟩, hfree⟩)
  rw [Function.update_eq_self] at hnext
  exact hnext

theorem Invariant.readerStep (h : Invariant lap s) {i : Fin R}
    (hstep : LapBarrier.readerStep s i = some s') : Invariant lap s' := by
  have hok := h.readers i
  unfold LapBarrier.readerStep at hstep
  cases hpc : s.readers i with
  | idle =>
    simp only [hpc] at hstep
    obtain ⟨hlap, hfree⟩ := hok.inLap (.inl (by simp only [reader, hpc]; decide))
    split at hstep
    · rename_i hend
      obtain rfl := Option.some.inj hstep
      exact h.arrive hpc hend
    · obtain rfl := Option.some.inj hstep
      exact h.moveReader i _ (.inr ⟨hlap.move (by decide) (fun hread => absurd hread (by decide)),
        hfree⟩)
  | wait =>
    simp only [hpc] at hstep
    split at hstep
    · cases hstep
    · rename_i hreset
      obtain rfl := Option.some.inj hstep
      have hstatus : s.shm.readersPos i = 9 := by
        by_contra hne
        exact hreset (if_neg hne)
      obtain ⟨hlap, hfree⟩ := hok.inLap (.inr (by simp only [reader, hstatus]; decide))
      exact h.moveReader i _ (.inr ⟨hlap.move (by decide) (fun hread => absurd hread (by decide)),
        hfree⟩)
  | test =>
    simp only [hpc] at hstep
    obtain ⟨hlap, hfree⟩ := hok.inLap (.inl (by simp only [reader, hpc]; decide))
    split at hstep
    · obtain rfl := Option.some.inj hstep
      exact h.moveReader i _ (.inr ⟨hlap.move (by decide) (fun hread => absurd hread (by decide)),
        hfree⟩)
    · rename_i hne
      obtain rfl := Option.some.inj hstep
      have hlt : s.lPos i < s.shm.writePos := Nat.lt_of_le_of_ne hlap.le hne
      exact h.moveReader i _ (.inr ⟨hlap.move (by decide) (fun _ => hlt), hfree⟩)
  | read =>
    simp only [hpc] at hstep
    obtain rfl := Option.some.inj hstep
    exact h.copy hpc

/-- A step of the writer that changes nothing but where it is. -/
theorem Invariant.setWriter (h : Invariant lap s) (pc : WriterPc α)
    (hpos : WriterOk (slots R) s.shm.writePos pc) (hpending : pending pc = pending s.writer)
    (hreaders : ∀ i : Fin R, ReaderOk (slots R) (lap * slots R) s.shm.writePos (Held pc i)
      (reader s i)) : Invariant lap { s with writer := pc } where
  writer := hpos
  length := by
    rw [h.length, ← hpending]
  readers := hreaders
  in_order := h.in_order
  data := h.data

/-- At the end of the lap the writer looks at the readers from the first one on. -/
theorem Invariant.checkAll (h : Invariant lap s) (msg : α) (hend : s.shm.writePos = slots R)
    (hpending : pending (.check msg 0) = pending s.writer) :
    Invariant lap { s with writer := .check msg 0 } := by
  apply h.setWriter (.check msg 0) hend hpending
  intro i
  apply (h.readers i).weaken
  · exact fun hheld => absurd hheld (Nat.not_lt_zero i)
  · exact fun _ => .inl hend

/-- The writer finds reader `i` at the end of the lap. -/
theorem Invariant.found (h : Invariant lap s) {msg : α} {i : Nat} (hpc : s.writer = .check msg i)
    (hi : i < R) (hend : s.shm.readersPos ⟨i, hi⟩ = END) :
    Invariant lap { s with writer := .check msg (i + 1) } := by
  have hpos := h.writer
  rw [hpc] at hpos
  have hpos : s.shm.writePos = slots R := hpos
  apply h.setWriter (.check msg (i + 1)) hpos
  · rw [hpc]
    rfl
  · intro j
    have hok := h.readers j
    by_cases hj : j = ⟨i, hi⟩
    · subst hj
      exact .inl ⟨hok.arrived hend, .inl hpos⟩
    · have hne : (j : Nat) ≠ i := fun heq => hj (Fin.ext heq)
      rw [hpc] at hok
      apply hok.weaken
      · intro hlt
        exact Nat.lt_of_le_of_ne (Nat.le_of_lt_succ hlt) hne
      · exact fun _ => .inl hpos

/-- All readers have arrived, and a new lap begins. -/
theorem Invariant.rewind (h : Invariant lap s) {msg : α} {i : Nat} (hpc : s.writer = .check msg i)
    (hi : R ≤ i) : Invariant (lap + 1) { s with
      shm := { s.shm with writePos := 0 }
      writer := .release msg 0 } := by
  have hpos := h.writer
  rw [hpc] at hpos
  have hpos : s.shm.writePos = slots R := hpos
  have hlap : (lap + 1) * slots R = lap * slots R + s.shm.writePos := by
    rw [hpos, Nat.succ_mul]
  have hall := h.length
  rw [hpc] at hall
  have hall : s.sent.length = lap * slots R + s.shm.writePos := hall
  constructor
  · rfl
  · rw [hlap]
    exact hall
  · intro j
    have hok := h.readers j
    rw [hpc] at hok
    have harr := hok.arrived_of_held (Nat.lt_of_lt_of_le j.isLt hi)
    rw [← hlap] at harr
    exact .inl ⟨harr, .inr (Nat.zero_le _)⟩
  · exact h.in_order
  · intro k x hk hx
    rw [hlap, ← hall] at hk
    rw [List.getElem?_eq_none hk] at hx
    cases hx

/-- Reader `i` is released into the new lap. -/
theorem Invariant.release (hR : R ≤ 61) (h : Invariant lap s) {msg : α} {i : Nat}
    (hpc : s.writer = .release msg i) (hi : i < R) : Invariant lap { s with
      shm := { s.shm with readersPos := Function.update s.shm.readersPos ⟨i, hi⟩ RESET }
      writer := .release msg (i + 1) } := by
  have hpos := h.writer
  rw [hpc] at hpos
  have hpos : s.shm.writePos = 0 := hpos
  have hslots := slots_pos hR
  constructor
  · exact hpos
  · have hlength := h.length
    rw [hpc] at hlength
    exact hlength
  · intro j
    have hok := h.readers j
    rw [hpc] at hok
    by_cases hj : j = ⟨i, hi⟩
    · subst hj
      have harr := hok.arrived_of_held (Nat.le_refl i)
      have hcount : (s.received ⟨i, hi⟩).length = lap * slots R + s.shm.writePos := harr.count
      have hlPos : s.lPos ⟨i, hi⟩ = 0 := harr.lPos
      have hwait : s.readers ⟨i, hi⟩ = .wait := harr.pc
      refine .inr ⟨?_, Nat.not_succ_le_self i⟩
      simp only [reader, Function.update_self]
      constructor
      · show RESET ≠ END
        decide
      · rw [hcount, hpos, hlPos]
      · rw [hlPos]
        exact Nat.zero_le _
      · exact fun _ => rfl
      · intro hread
        rw [hwait] at hread
        cases hread
    · have hne : (j : Nat) ≠ i := fun heq => hj (Fin.ext heq)
      simp only [reader, Function.update_of_ne hj]
      apply hok.weaken
      · exact fun hheld => Nat.le_of_succ_le hheld
      · exact fun hheld => .inr (Nat.lt_of_le_of_ne hheld hne.symm)
  · exact h.in_order
  · exact h.data

/-- The slot write puts the next message of the lap after those that are there. -/
theorem Invariant.write (h : Invariant lap s) {msg : α} (hpc : s.writer = .slot msg) :
    Invariant lap { s with
      shm := { s.shm with data := Function.update s.shm.data s.shm.writePos msg }
      writer := .move
      sent := s.sent ++ [msg] } := by
  have hpos := h.writer
  rw [hpc] at hpos
  have hall := h.length
  rw [hpc] at hall
  have hall : s.sent.length = lap * slots R + s.shm.writePos := hall
  have hlen : (s.sent ++ [msg]).length = s.sent.length + 1 := List.length_append
  constructor
  · exact hpos
  · rw [hlen, hall]
    rfl
  · intro j
    have hok := h.readers j
    rw [hpc] at hok
    exact hok
  · exact fun j => (h.in_order j).trans (List.prefix_append _ _)
  · intro k x hk hx
    show Function.update s.shm.data s.shm.writePos msg (k - lap * slots R) = x
    rcases Nat.lt_trichotomy k s.sent.length with hlt | rfl | hgt
    · rw [Function.update_of_ne (by omega)]
      rw [List.getElem?_append_left hlt] at hx
      exact h.data k x hk hx
    · rw [hall, Nat.add_sub_cancel_left, Function.update_self]
      rw [List.getElem?_concat_length] at hx
      exact Option.some.inj hx
    · rw [List.getElem?_eq_none (by rw [hlen]; exact hgt)] at hx
      cases hx

/-- The update of the position shows the message to the readers. -/
theorem Invariant.advance (h : Invariant lap s) (hpc : s.writer = .move) :
    Invariant lap { s with
      shm := { s.shm with writePos := s.shm.writePos + 1 }
      writer := .idle } := by
  have hpos := h.writer
  rw [hpc] at hpos
  have hpos : s.shm.writePos < slots R := hpos
  have hlength := h.length
  rw [hpc] at hlength
  constructor
  · exact hpos
  · exact hlength
  · intro j
    have hok := h.readers j
    rw [hpc] at hok
    exact hok.grow hpos id
  · exact h.in_order
  · exact h.data

theorem Invariant.writerStep (hR : R ≤ 61) (h : Invariant lap s)
    (hstep : LapBarrier.writerStep s = some s') : ∃ lap', Invariant lap' s' := by
  unfold LapBarrier.writerStep at hstep
  have hok := h.readers
  have hpos := h.writer
  cases hpc : s.writer with
  | idle => simp only [hpc, reduceCtorEq] at hstep
  | test msg =>
    simp only [hpc] at hstep
    rw [hpc] at hpos
    obtain rfl := Option.some.inj hstep
    refine ⟨lap, ?_⟩
    split
    · rename_i hend
      exact h.checkAll msg hend (by rw [hpc]; rfl)
    · rename_i hne
      apply h.setWriter (.slot msg) (Nat.lt_of_le_of_ne hpos hne)
      · rw [hpc]
        rfl
      · intro i
        have hi := hok i
        rw [hpc] at hi
        exact hi
  | check msg i =>
    simp only [hpc] at hstep
    split at hstep
    · rename_i hi
      split at hstep
      · rename_i hend
        obtain rfl := Option.some.inj hstep
        exact ⟨lap, h.found hpc hi hend⟩
      · obtain rfl := Option.some.inj hstep
        rw [hpc] at hpos
        exact ⟨lap, h.checkAll msg hpos (by rw [hpc]; rfl)⟩
    · rename_i hi
      obtain rfl := Option.some.inj hstep
      exact ⟨lap + 1, h.rewind hpc (Nat.le_of_not_lt hi)⟩
  | release msg i =>
    simp only [hpc] at hstep
    split at hstep
    · rename_i hi
      obtain rfl := Option.some.inj hstep
      exact ⟨lap, h.release hR hpc hi⟩
    · rename_i hi
      obtain rfl := Option.some.inj hstep
      rw [hpc] at hpos
      have hpos : s.shm.writePos = 0 := hpos
      refine ⟨lap, h.setWriter (.slot msg) ?_ (by rw [hpc]; rfl) fun j => ?_⟩
      · show s.shm.writePos < slots R
        rw [hpos]
        exact slots_pos hR
      · apply (hok j).weaken
        · exact False.elim
        · intro hheld
          rw [hpc] at hheld
          exact absurd (j.isLt.trans_le (Nat.le_of_not_lt hi)) (Nat.not_lt_of_le hheld)
  | slot msg =>
    simp only [hpc] at hstep
    obtain rfl := Option.some.inj hstep
    exact ⟨lap, h.write hpc⟩
  | move =>
    simp only [hpc] at hstep
    obtain rfl := Option.some.inj hstep
    exact ⟨lap, h.advance hpc⟩

theorem invariant_step (hR : R ≤ 61) (h : Invariant lap s) {a : Step α R}
    (hstep : step s a = some s') : ∃ lap', Invariant lap' s' := by
  cases a with
  | send msg =>
    unfold step at hstep
    cases hpc : s.writer with
    | idle =>
      simp only [hpc] at hstep
      obtain rfl := Option.some.inj hstep
      have hpos := h.writer
      rw [hpc] at hpos
      refine ⟨lap, h.setWriter (.test msg) hpos (by rw [hpc]; rfl) fun i => ?_⟩
      have hi := h.readers i
      rw [hpc] at hi
      exact hi
    | test msg' => simp only [hpc, reduceCtorEq] at hstep
    | check msg' i => simp only [hpc, reduceCtorEq] at hstep
    | release msg' i => simp only [hpc, reduceCtorEq] at hstep
    | slot msg' => simp only [hpc, reduceCtorEq] at hstep
    | move => simp only [hpc, reduceCtorEq] at hstep
  | writer => exact h.writerStep hR hstep
  | reader i => exact ⟨lap, h.readerStep hstep⟩

theorem Invariant.shown_eq (h : Invariant lap s) : shown s = lap * slots R + s.shm.writePos := by
  rw [shown, h.length, Nat.add_sub_cancel]

end Steps

/-- The lap-barrier queue over a whole run. -/
structure Delivered (s : State α R) : Prop where
  in_order : ∀ i, s.received i <+: s.sent
  /-- The test of the position tells whether a message is left. -/
  readable : ∀ i, s.readers i = .test →
    (s.lPos i ≠ s.shm.writePos ↔ (s.received i).length < shown s)
  /-- A reader that has to wait has everything. -/
  waiting : ∀ i, s.readers i = .wait → checkReaderP s.shm i = true →
    (s.received i).length = shown s
  /-- The readers that do not have to wait are in the lap of the writer. -/
  same_lap : ∃ lap, shown s = lap * slots R + s.shm.writePos ∧
    ∀ i, s.readers i ≠ .wait ∨ checkReaderP s.shm i = false →
      (s.received i).length = lap * slots R + s.lPos i ∧ s.lPos i ≤ s.shm.writePos

theorem Invariant.delivered {lap : Nat} {s : State α R} (h : Invariant lap s) : Delivered s := by
  refine ⟨h.in_order, ?_, ?_, lap, h.shown_eq, ?_⟩
  · intro i htest
    obtain ⟨hlap, -⟩ := (h.readers i).inLap (.inl (by simp only [reader, htest]; decide))
    have hcount : (s.received i).length = lap * slots R + s.lPos i := hlap.count
    have hle : s.lPos i ≤ s.shm.writePos := hlap.le
    rw [hcount, h.shown_eq]
    omega
  · intro i hwait hcheck
    rcases h.readers i with ⟨harr, -⟩ | ⟨hlap, -⟩
    · rw [h.shown_eq]
      exact harr.count
    · have hreset : s.shm.readersPos i = 9 := hlap.waits hwait
      rw [checkReaderP, if_pos hreset] at hcheck
      cases hcheck
  · intro i hout
    have hlap : InLap (lap * slots R) s.shm.writePos (reader s i) := by
      refine ((h.readers i).inLap (hout.imp id fun hcheck => ?_)).1
      intro hend
      have hend : s.shm.readersPos i = END := hend
      rw [checkReaderP, hend] at hcheck
      cases hcheck
    exact ⟨hlap.count, hlap.le⟩

/-- The queue delivers every message to every reader, for any number of readers that leaves a
slot and any interleaving. -/
theorem lap_barrier_delivered (hR : R ≤ 61) (zero : α) (s : State α R)
    (hr : Reachable step (init R zero) s) : Delivered s := by
  have hinv : ∃ lap, Invariant lap s := by
    apply hr.invariant (I := fun s => ∃ lap, Invariant lap s) ⟨0, invariant_init R zero⟩
    rintro s a s' ⟨lap, h⟩ hstep
    exact invariant_step hR h hstep
  obtain ⟨lap, h⟩ := hinv
  exact h.delivered

/-- With 61 readers a lap is one message. -/
private def newLap : List (Step Nat 61) :=
  .send 7 :: List.replicate 3 .writer ++
    (List.finRange 61).flatMap (fun i => List.replicate 4 (.reader i)) ++
    .send 8 :: List.replicate 127 .writer ++ List.replicate 3 (.reader 0)

/-- Reader 0 has begun the second lap, and reader 1 has been released into it. -/
theorem lap_barrier_delivered_new_lap : ∃ s : State Nat 61, s.sent = [7, 8] ∧
    s.received 0 = [7, 8] ∧ s.received 1 = [7] ∧ s.readers 1 = .wait ∧ Delivered s :=
  ⟨(run step (init 61 0) newLap).get (by decide +kernel), by decide +kernel, by decide +kernel,
    by decide +kernel, by decide +kernel,
    lap_barrier_delivered (by decide) 0 _ (Machine.reachable_of_run newLap (by decide +kernel))⟩

end SmeltConsensus.BroadcastQueue.LapBarrierDelivery
