import SmeltConsensus.BroadcastQueue.Sequence
import SmeltConsensus.Foundation.Machine
import SmeltConsensus.Foundation.RingLog

/-!
What the sequence-number queue delivers. A limit of at most `slots - 1` above every
published position keeps the writer within one lap of the slowest reader.

`get_next_sync` loads a position that is below its minimum a second time. A reader that
publishes in between, above the minimum, raises it past the readers before it, and the
writer may overtake them.
-/

set_option autoImplicit false
set_option relaxedAutoImplicit false

namespace SmeltConsensus.BroadcastQueue.SequenceDelivery

open SmeltConsensus.Foundation
open SmeltConsensus.Foundation.Machine (Guarded Reachable run)
open SmeltConsensus.Foundation.Ring (next)
open SmeltConsensus.Foundation.RingLog
open SmeltConsensus.BroadcastQueue.Shm (slots slots_eq)
open SmeltConsensus.BroadcastQueue.Sequence

variable {α : Type} {R : Nat}

/-- The position that a reader has published after `r` messages. -/
def published (r : Nat) : Nat := (r + 1) / 16 * 16 - 1

/-- What the slots held, one after the other. -/
def entries (sent : List α) : List (Slot α) := sent.mapIdx fun k msg => ⟨k + 1, msg⟩

theorem published_le (r : Nat) : published r ≤ r := by
  unfold published
  omega

theorem published_mono {q r : Nat} (h : q ≤ r) : published q ≤ published r := by
  unfold published
  omega

theorem published_succ (r : Nat) :
    published (r + 1) = if (r + 2) % 16 = 0 then r + 1 else published r := by
  unfold published
  split <;> omega

theorem entries_snoc (sent : List α) (msg : α) :
    entries (sent ++ [msg]) = entries sent ++ [⟨sent.length + 1, msg⟩] := by
  rw [entries, List.mapIdx_append, List.mapIdx_singleton, Nat.zero_add, entries]

theorem entries_getElem? (sent : List α) (k : Nat) :
    (entries sent)[k]? = sent[k]?.map fun msg => ⟨k + 1, msg⟩ := List.getElem?_mapIdx

@[simp] theorem entries_length (sent : List α) : (entries sent).length = sent.length :=
  List.length_mapIdx

/-- A context that has handled `n` messages, up to the wrap of its position. -/
structure Side (R n : Nat) (q : ShmQueue) : Prop where
  numSlots : q.numSlots = slots R
  nextSeq : q.nextSeq = n + 1
  lPos : q.lPos % slots R = n % slots R

/-- What every step keeps, whatever limit the writer has. -/
structure Consistent (s : State α R) : Prop where
  writer : Side R s.sent.length s.writer
  lPos_le : s.writer.lPos ≤ slots R
  readers : ∀ i, Side R (s.received i).length (s.readers i)
  reader_lPos : ∀ i, (s.readers i).lPos < slots R
  readersPos : ∀ i, s.shm.readersPos i = published (s.received i).length
  in_order : ∀ i, s.received i <+: s.sent
  holds : Holds (slots R) s.shm.data (entries s.sent)
  untouched : ∀ j, s.sent.length ≤ j → j < slots R → (s.shm.data j).seq = 0
  scan_lPos : ∀ scan, s.scan = some scan → s.writer.lPos < slots R

/-- The writer while it computes its next limit. -/
structure Scanning (s : State α R) (scan : Scan α) : Prop where
  at_limit : s.writer.nextSeq = s.writer.nextSync
  start : scan.i = 0 → scan.min = 0xFFFFFFFF
  min_published : ∃ r, scan.min = published r
  min_ge : s.writer.nextSync ≤ scan.min + (slots R - 1)
  min_le : scan.min ≤ 0xFFFFFFFF
  /-- No position read so far is below the minimum. -/
  passed : ∀ i : Fin R, i < scan.i → scan.min ≤ s.shm.readersPos i
  /-- The position that the comparison has found. -/
  below : scan.below = true → ∃ r, published r < scan.min ∧
    s.writer.nextSync ≤ published r + (slots R - 1)

/-- The writer's limit is within the ring of every published position. -/
structure Limited (s : State α R) : Prop where
  limit_seq : s.writer.nextSeq ≤ s.writer.nextSync
  limit_le : s.writer.nextSync ≤ 0xFFFFFFFF + (slots R - 1)
  limit_pos : ∀ i, s.writer.nextSync ≤ s.shm.readersPos i + (slots R - 1)
  scanning : ∀ scan, s.scan = some scan → Scanning s scan

/-- What every step keeps that does not raise the minimum. -/
structure Invariant (s : State α R) : Prop extends Consistent s, Limited s

/-- The second load of a position does not find it above the minimum of the positions
before it. -/
def NotOvertaken (s : State α R) (a : Step α R) : Prop :=
  a = .poll → ∀ scan, s.scan = some scan → scan.below = true →
    ∀ hi : scan.i < R, s.shm.readersPos ⟨scan.i, hi⟩ ≤ scan.min

instance (s : State α R) (a : Step α R) : Decidable (NotOvertaken s a) :=
  match a with
  | .send _ | .sync | .receive _ => isTrue (nomatch ·)
  | .poll => decidable_of_iff (∀ scan ∈ s.scan, scan.below = true →
      ∀ hi : scan.i < R, s.shm.readersPos ⟨scan.i, hi⟩ ≤ scan.min)
    ⟨fun h _ => h, fun h => h rfl⟩

variable {s s' : State α R}

namespace Consistent

theorem init (hR : R ≤ 60) (zero : α) : Consistent (init R zero) := by
  have hslots := slots_eq R
  have hside : Side R 0 (shmInitContext R) := ⟨rfl, rfl, rfl⟩
  constructor
  · exact hside
  · exact Nat.zero_le _
  · exact fun _ => hside
  · intro i
    show 0 < slots R
    omega
  · intro i
    show 0 = published 0
    decide
  · exact fun _ => List.nil_prefix
  · exact holds_nil _
  · exact fun _ _ _ => rfl
  · intro scan hscan
    cases hscan

theorem received_le (h : Consistent s) (i : Fin R) : (s.received i).length ≤ s.sent.length :=
  (h.in_order i).length_le

theorem slots_pos (h : Consistent s) (i : Fin R) : 0 < slots R := Nat.zero_lt_of_lt (h.reader_lPos i)

/-- What a slot holds: the last message of its position, or nothing yet. -/
theorem slot_cases (h : Consistent s) {j : Nat} (hj : j < slots R) :
    (s.sent.length ≤ j ∧ (s.shm.data j).seq = 0) ∨
      ∃ k msg, s.sent[k]? = some msg ∧ s.sent.length ≤ k + slots R ∧ k % slots R = j ∧
        s.shm.data j = ⟨k + 1, msg⟩ := by
  by_cases hlt : j < s.sent.length
  · right
    obtain ⟨k, hk, hlap, rfl⟩ := exists_newest hj hlt
    have hmsg := List.getElem?_eq_getElem hk
    refine ⟨k, _, hmsg, hlap, rfl, h.holds k _ ?_ (by rw [entries_length]; exact hlap)⟩
    rw [entries_getElem?, hmsg]
    rfl
  · left
    exact ⟨Nat.le_of_not_lt hlt, h.untouched j (Nat.le_of_not_lt hlt) hj⟩

/-- No slot is ahead of the writer. -/
theorem seq_le (h : Consistent s) {j : Nat} (hj : j < slots R) :
    (s.shm.data j).seq ≤ s.sent.length := by
  rcases h.slot_cases hj with ⟨-, hzero⟩ | ⟨k, msg, hmsg, -, -, hdata⟩
  · rw [hzero]
    exact Nat.zero_le _
  · rw [hdata]
    exact (List.getElem?_eq_some_iff.mp hmsg).1

/-- A message of the last lap is in its slot. -/
theorem slot_of_lap (h : Consistent s) {k : Nat} {msg : α} (hmsg : s.sent[k]? = some msg)
    (hlap : s.sent.length ≤ k + slots R) : s.shm.data (k % slots R) = ⟨k + 1, msg⟩ := by
  apply h.holds k
  · rw [entries_getElem?, hmsg]
    rfl
  · rw [entries_length]
    exact hlap

theorem wrap (h : Consistent s) (hR : R ≤ 60) :
    Consistent { s with writer := s.writer.wrap } ∧ s.writer.wrap.lPos < slots R := by
  have hslots := slots_eq R
  obtain ⟨hseq, -, hnum, hpos⟩ := wrap_eq s.writer
  have hle := h.lPos_le
  rw [h.writer.numSlots] at hpos
  have hlt : s.writer.wrap.lPos < slots R := by
    rw [hpos]
    split <;> omega
  refine ⟨?_, hlt⟩
  constructor
  · refine ⟨hnum.trans h.writer.numSlots, hseq.trans h.writer.nextSeq, ?_⟩
    rw [← h.writer.lPos]
    show s.writer.wrap.lPos % slots R = s.writer.lPos % slots R
    rw [hpos]
    split
    · rename_i heq
      rw [heq, Nat.mod_self, Nat.zero_mod]
    · rfl
  · exact Nat.le_of_lt hlt
  · exact h.readers
  · exact h.reader_lPos
  · exact h.readersPos
  · exact h.in_order
  · exact h.holds
  · exact h.untouched
  · exact fun _ _ => hlt

/-- The writer's own variables of the wait loop are not part of it. -/
theorem limit (h : Consistent s) (nextSync : Nat) (scan : Option (Scan α))
    (hlt : scan.isSome = true → s.writer.lPos < slots R) :
    Consistent { s with writer := { s.writer with nextSync := nextSync }, scan := scan } where
  writer := ⟨h.writer.numSlots, h.writer.nextSeq, h.writer.lPos⟩
  lPos_le := h.lPos_le
  readers := h.readers
  reader_lPos := h.reader_lPos
  readersPos := h.readersPos
  in_order := h.in_order
  holds := h.holds
  untouched := h.untouched
  scan_lPos _ hsome := hlt (Option.isSome_iff_exists.mpr ⟨_, hsome⟩)

theorem put (h : Consistent s) (hscan : s.scan = none) (hlt : s.writer.lPos < slots R) (msg : α) :
    Consistent (s.put msg) := by
  have hpos : s.writer.lPos = s.sent.length % slots R := by
    rw [← h.writer.lPos, Nat.mod_eq_of_lt hlt]
  have hsent : (s.put msg).sent.length = s.sent.length + 1 := List.length_append
  have hseq := h.writer.nextSeq
  constructor
  · refine ⟨h.writer.numSlots, ?_, ?_⟩
    · rw [hsent]
      show s.writer.nextSeq + 1 = _
      rw [hseq]
    · rw [hsent]
      show (s.writer.lPos + 1) % slots R = _
      rw [hpos, Nat.mod_add_mod]
  · exact hlt
  · exact h.readers
  · exact h.reader_lPos
  · exact h.readersPos
  · exact fun i => (h.in_order i).trans (List.prefix_append _ _)
  · have hpush := h.holds.push ⟨s.sent.length + 1, msg⟩
    rw [← entries_snoc, entries_length, ← hpos, ← hseq] at hpush
    exact hpush
  · intro j hj hslot
    rw [hsent] at hj
    have hne : j ≠ s.writer.lPos := by
      rw [hpos, Nat.mod_eq_of_lt (by omega)]
      omega
    show (Function.update s.shm.data s.writer.lPos _ j).seq = 0
    rw [Function.update_of_ne hne]
    exact h.untouched j (by omega) hslot
  · intro scan hsome
    rw [show (s.put msg).scan = s.scan from rfl, hscan] at hsome
    cases hsome

/-- A receive that finds its sequence number takes the next message. -/
theorem receive_next (h : Consistent s) (i : Fin R) {msg : α}
    (hslot : s.shm.data (s.readers i).lPos = ⟨(s.received i).length + 1, msg⟩) :
    shmReceiveNonBlocking s.shm i (s.readers i) = (some msg,
      { s.shm with
        readersPos := Function.update s.shm.readersPos i (published ((s.received i).length + 1)) },
      { s.readers i with
        lPos := next (slots R) ((s.received i).length % slots R)
        nextSeq := (s.received i).length + 2 }) := by
  have hside := h.readers i
  have hlt := h.reader_lPos i
  have hpos : (s.readers i).lPos = (s.received i).length % slots R := by
    rw [← hside.lPos, Nat.mod_eq_of_lt hlt]
  rw [shmReceiveNonBlocking, hslot, if_pos hside.nextSeq]
  have hnum := hside.numSlots
  have hshm : (if (s.readers i).nextSeq + 1 &&& 0xF = 0 then
        { s.shm with
          readersPos := Function.update s.shm.readersPos i ((s.readers i).nextSeq + 1 - 1) }
      else s.shm) = { s.shm with
        readersPos :=
          Function.update s.shm.readersPos i (published ((s.received i).length + 1)) } := by
    have hmod : (s.readers i).nextSeq + 1 &&& 0xF = ((s.received i).length + 2) % 16 := by
      rw [hside.nextSeq]
      exact Nat.and_two_pow_sub_one_eq_mod _ 4
    rw [hmod, published_succ, hside.nextSeq]
    split
    · rfl
    · rw [← h.readersPos i, Function.update_eq_self]
  have hnext : (if (s.readers i).lPos + 1 = (s.readers i).numSlots then 0
      else (s.readers i).lPos + 1) = next (slots R) ((s.received i).length % slots R) := by
    rw [hnum, ← hpos]
    exact (Ring.next_eq hlt).symm
  dsimp only
  rw [hshm, hnext, hside.nextSeq]

/-- A receive that does not find its sequence number does nothing. -/
theorem receive_none (h : Consistent s) (i : Fin R)
    (hslot : (s.shm.data (s.readers i).lPos).seq ≠ (s.received i).length + 1) :
    shmReceiveNonBlocking s.shm i (s.readers i) = (none, s.shm, s.readers i) := by
  have hne : ¬ (s.readers i).nextSeq = (s.shm.data (s.readers i).lPos).seq := by
    rw [(h.readers i).nextSeq]
    exact Ne.symm hslot
  rw [shmReceiveNonBlocking, if_neg hne]

/-- What a receive does: it takes the next message or nothing, in any order of steps. -/
theorem receive_cases (h : Consistent s) (i : Fin R) :
    shmReceiveNonBlocking s.shm i (s.readers i) = (none, s.shm, s.readers i) ∨
    ∃ msg, s.sent[(s.received i).length]? = some msg ∧
      shmReceiveNonBlocking s.shm i (s.readers i) = (some msg,
        { s.shm with
          readersPos := Function.update s.shm.readersPos i (published ((s.received i).length + 1)) },
        { s.readers i with
          lPos := next (slots R) ((s.received i).length % slots R)
          nextSeq := (s.received i).length + 2 }) := by
  by_cases hseq : (s.shm.data (s.readers i).lPos).seq = (s.received i).length + 1
  · right
    rcases h.slot_cases (h.reader_lPos i) with ⟨-, hzero⟩ | ⟨k, msg, hmsg, -, -, hdata⟩
    · omega
    · rw [hdata] at hseq
      obtain rfl : k = (s.received i).length := Nat.succ.inj hseq
      exact ⟨msg, hmsg, h.receive_next i hdata⟩
  · exact .inl (h.receive_none i hseq)

/-- A reader that is at most a lap behind takes the next message, if there is one. -/
theorem receive_within (h : Consistent s) (i : Fin R)
    (hlap : s.sent.length ≤ (s.received i).length + slots R) :
    ((s.received i).length = s.sent.length ∧
      shmReceiveNonBlocking s.shm i (s.readers i) = (none, s.shm, s.readers i)) ∨
    ∃ msg, s.sent[(s.received i).length]? = some msg ∧
      shmReceiveNonBlocking s.shm i (s.readers i) = (some msg,
        { s.shm with
          readersPos := Function.update s.shm.readersPos i (published ((s.received i).length + 1)) },
        { s.readers i with
          lPos := next (slots R) ((s.received i).length % slots R)
          nextSeq := (s.received i).length + 2 }) := by
  have hlt := h.reader_lPos i
  rcases Nat.lt_or_ge (s.received i).length s.sent.length with hmore | hnone
  · right
    have hmsg := List.getElem?_eq_getElem hmore
    have hslot := h.slot_of_lap hmsg hlap
    rw [← (h.readers i).lPos, Nat.mod_eq_of_lt hlt] at hslot
    exact ⟨_, hmsg, h.receive_next i hslot⟩
  · left
    have hseq := h.seq_le hlt
    exact ⟨Nat.le_antisymm (h.received_le i) hnone, h.receive_none i (by omega)⟩

/-- The state after a receive that returns a message. -/
theorem receive (h : Consistent s) {i : Fin R} {msg : α}
    (hmsg : s.sent[(s.received i).length]? = some msg) :
    Consistent { s with
      shm := { s.shm with
        readersPos := Function.update s.shm.readersPos i (published ((s.received i).length + 1)) }
      readers := Function.update s.readers i { s.readers i with
        lPos := next (slots R) ((s.received i).length % slots R)
        nextSeq := (s.received i).length + 2 }
      received := Function.update s.received i (s.received i ++ [msg]) } := by
  have hslots := h.slots_pos i
  have hlen : (s.received i ++ [msg]).length = (s.received i).length + 1 := List.length_append
  constructor
  · exact h.writer
  · exact h.lPos_le
  · intro j
    by_cases hj : j = i
    · subst hj
      simp only [Function.update_self]
      refine ⟨(h.readers j).numSlots, ?_, ?_⟩
      · rw [hlen]
      · rw [hlen]
        show next (slots R) ((s.received j).length % slots R) % slots R = _
        rw [next_mod, Nat.mod_mod]
    · simp only [Function.update_of_ne hj]
      exact h.readers j
  · intro j
    by_cases hj : j = i
    · subst hj
      simp only [Function.update_self]
      exact Nat.mod_lt _ hslots
    · simp only [Function.update_of_ne hj]
      exact h.reader_lPos j
  · intro j
    by_cases hj : j = i
    · subst hj
      simp only [Function.update_self]
      rw [hlen]
    · simp only [Function.update_of_ne hj]
      exact h.readersPos j
  · intro j
    by_cases hj : j = i
    · subst hj
      simp only [Function.update_self]
      exact prefix_next (h.in_order j) hmsg
    · simp only [Function.update_of_ne hj]
      exact h.in_order j
  · exact h.holds
  · exact h.untouched
  · exact h.scan_lPos

end Consistent

theorem consistent_step (hR : R ≤ 60) (h : Consistent s) {a : Step α R}
    (hstep : step s a = some s') : Consistent s' := by
  rcases step_cases hstep with ⟨msg, -, hscan, -, rfl⟩ | ⟨msg, -, -, -, rfl⟩ |
    ⟨scan, hi, -, hscan, rfl⟩ | ⟨scan, -, hscan, -, -, rfl⟩ | ⟨scan, -, hscan, -, -, rfl⟩ |
    ⟨i, -, rfl⟩
  · obtain ⟨hwrap, hlt⟩ := h.wrap hR
    exact hwrap.put hscan hlt msg
  · obtain ⟨hwrap, hlt⟩ := h.wrap hR
    exact hwrap.limit s.writer.wrap.nextSync _ fun _ => hlt
  · exact h.limit s.writer.nextSync _ fun _ => h.scan_lPos scan hscan
  · exact h.limit s.writer.nextSync _ fun _ => h.scan_lPos scan hscan
  · exact (h.limit (scan.min + (s.writer.numSlots - 1)) none (nomatch ·)).put rfl (h.scan_lPos scan hscan) scan.msg
  · rcases h.receive_cases i with hnone | ⟨msg, hmsg, hsome⟩
    · rw [hnone]
      simp only [Option.toList_none, List.append_nil, Function.update_eq_self]
      exact h
    · rw [hsome]
      exact h.receive hmsg

theorem consistent (hR : R ≤ 60) {zero : α} (h : Reachable step (init R zero) s) : Consistent s :=
  h.invariant (.init hR zero) fun _ _ _ hI hstep => consistent_step hR hI hstep

namespace Limited

theorem init (hR : R ≤ 60) (zero : α) : Limited (init R zero) := by
  have hslots := slots_eq R
  constructor
  · show 1 ≤ slots R - 1
    omega
  · exact Nat.le_add_left _ _
  · exact fun _ => Nat.le_add_left _ _
  · intro scan hscan
    cases hscan

theorem wrap (h : Limited s) : Limited { s with writer := s.writer.wrap } := by
  obtain ⟨hseq, hsync, -, -⟩ := wrap_eq s.writer
  constructor
  · exact hseq.trans_le (h.limit_seq.trans hsync.ge)
  · exact hsync.trans_le h.limit_le
  · exact fun i => hsync.trans_le (h.limit_pos i)
  · intro scan hscan
    have hscanning := h.scanning scan hscan
    exact {
      at_limit := (hseq.trans hscanning.at_limit).trans hsync.symm
      start := hscanning.start
      min_published := hscanning.min_published
      min_ge := hsync.trans_le hscanning.min_ge
      min_le := hscanning.min_le
      passed := hscanning.passed
      below := fun hbelow => by
        obtain ⟨r, hlt, hge⟩ := hscanning.below hbelow
        exact ⟨r, hlt, hsync.trans_le hge⟩ }

/-- A message written below the limit. -/
theorem put (h : Limited s) (hscan : s.scan = none) (hbelow : s.writer.nextSeq < s.writer.nextSync)
    (msg : α) : Limited (s.put msg) := by
  refine ⟨hbelow, h.limit_le, h.limit_pos, fun scan hsome => ?_⟩
  rw [show (s.put msg).scan = s.scan from rfl, hscan] at hsome
  cases hsome

/-- The start of a scan. -/
theorem scanStart (h : Limited s) (hlimit : s.writer.nextSeq = s.writer.nextSync) (msg : α) :
    Limited { s with scan := some (Sequence.scanStart msg) } := by
  refine { h with scanning := ?_ }
  intro scan hsome
  obtain rfl := Option.some.inj hsome
  exact {
    at_limit := hlimit
    start := fun _ => rfl
    min_published := ⟨0xFFFFFFFF, rfl⟩
    min_ge := h.limit_le
    min_le := Nat.le_refl _
    passed := fun i hi => absurd hi (Nat.not_lt_zero _)
    below := fun hbelow => by cases hbelow }

/-- One more load, unless it raises the minimum. -/
theorem poll (h : Limited s) (hc : Consistent s) {scan : Scan α} (hscan : s.scan = some scan)
    (hi : scan.i < R)
    (hover : scan.below = true → s.shm.readersPos ⟨scan.i, hi⟩ ≤ scan.min) :
    Limited { s with scan := some (scan.load (s.shm.readersPos ⟨scan.i, hi⟩)) } := by
  have hscanning := h.scanning scan hscan
  have hpos := h.limit_pos ⟨scan.i, hi⟩
  -- the positions that are passed when `scan.i` is
  have hpassed : ∀ min, min ≤ scan.min → min ≤ s.shm.readersPos ⟨scan.i, hi⟩ →
      ∀ j : Fin R, (j : Nat) < scan.i + 1 → min ≤ s.shm.readersPos j := by
    intro min hmin hthis j hj
    rcases Nat.lt_succ_iff_lt_or_eq.mp hj with hlt | heq
    · exact hmin.trans (hscanning.passed j hlt)
    · obtain rfl : j = ⟨scan.i, hi⟩ := Fin.ext heq
      exact hthis
  refine { h with scanning := ?_ }
  intro scan' hsome
  obtain rfl := Option.some.inj hsome
  unfold Scan.load
  split
  · -- the assignment
    rename_i hbelow
    exact {
      at_limit := hscanning.at_limit
      start := fun hzero => absurd hzero (Nat.succ_ne_zero _)
      min_published := ⟨_, hc.readersPos _⟩
      min_ge := hpos
      min_le := (hover hbelow).trans hscanning.min_le
      passed := hpassed _ (hover hbelow) (Nat.le_refl _)
      below := fun hbelow => by cases hbelow }
  · split
    · -- the comparison finds a position below the minimum
      rename_i hlt
      refine { hscanning with below := fun _ => ⟨(s.received ⟨scan.i, hi⟩).length, ?_, ?_⟩ }
      · rw [← hc.readersPos]
        exact hlt
      · rw [← hc.readersPos]
        exact hpos
    · rename_i hbelow hge
      exact {
        at_limit := hscanning.at_limit
        start := fun hzero => absurd hzero (Nat.succ_ne_zero _)
        min_published := hscanning.min_published
        min_ge := hscanning.min_ge
        min_le := hscanning.min_le
        passed := hpassed _ (Nat.le_refl _) (Nat.le_of_not_lt hge)
        below := fun hset => absurd hset hbelow }

/-- The limit that a scan of all positions leads to, and the send that it allows. -/
theorem sync (h : Limited s) (hnum : s.writer.numSlots = slots R) {scan : Scan α}
    (hscan : s.scan = some scan) (hi : R ≤ scan.i)
    (hne : s.writer.nextSeq ≠ scan.min + (s.writer.numSlots - 1)) :
    Limited ({ s with
      writer := { s.writer with nextSync := scan.min + (s.writer.numSlots - 1) }
      scan := none }.put scan.msg) := by
  have hscanning := h.scanning scan hscan
  have hlimit := hscanning.at_limit
  have hmin := hscanning.min_ge
  have hconst := hscanning.min_le
  rw [hnum] at hne ⊢
  apply put
  · constructor
    · show s.writer.nextSeq ≤ scan.min + (slots R - 1)
      omega
    · show scan.min + (slots R - 1) ≤ _
      omega
    · intro j
      have hread := hscanning.passed j (j.isLt.trans_le hi)
      show scan.min + (slots R - 1) ≤ s.shm.readersPos j + (slots R - 1)
      omega
    · intro scan' hsome
      cases hsome
  · rfl
  · show s.writer.nextSeq < scan.min + (slots R - 1)
    omega

/-- Positions that only grow. -/
theorem receive (h : Limited s) {readersPos : Fin R → Nat}
    (hgrow : ∀ j, s.shm.readersPos j ≤ readersPos j) (readers : Fin R → ShmQueue)
    (received : Fin R → List α) : Limited { s with
      shm := { s.shm with readersPos := readersPos }
      readers := readers
      received := received } where
  limit_seq := h.limit_seq
  limit_le := h.limit_le
  limit_pos j := (h.limit_pos j).trans (Nat.add_le_add_right (hgrow j) _)
  scanning scan hscan :=
    have hscanning := h.scanning scan hscan
    { hscanning with passed := fun j hj => (hscanning.passed j hj).trans (hgrow j) }

end Limited

theorem invariant_init (hR : R ≤ 60) (zero : α) : Invariant (init R zero) :=
  { Consistent.init hR zero, Limited.init hR zero with }

theorem invariant_step (hR : R ≤ 60) (h : Invariant s) {a : Step α R} (hover : NotOvertaken s a)
    (hstep : step s a = some s') : Invariant s' := by
  refine { consistent_step hR h.toConsistent hstep, (?_ : Limited s') with }
  have hlim := h.toLimited
  obtain ⟨hseq, hsync, -, -⟩ := wrap_eq s.writer
  rcases step_cases hstep with ⟨msg, -, hscan, hne, rfl⟩ | ⟨msg, -, hscan, heq, rfl⟩ |
    ⟨scan, hi, ha, hscan, rfl⟩ | ⟨scan, -, hscan, hi, heq, rfl⟩ | ⟨scan, -, hscan, hi, hne, rfl⟩ |
    ⟨i, -, rfl⟩
  · apply hlim.wrap.put hscan
    show s.writer.wrap.nextSeq < s.writer.wrap.nextSync
    rw [hseq, hsync]
    exact Nat.lt_of_le_of_ne h.limit_seq hne
  · exact hlim.wrap.scanStart ((hseq.trans heq).trans hsync.symm) msg
  · exact hlim.poll h.toConsistent hscan hi fun hbelow => hover ha scan hscan hbelow hi
  · exact hlim.scanStart (h.scanning scan hscan).at_limit scan.msg
  · exact hlim.sync h.writer.numSlots hscan hi hne
  · rcases h.receive_cases i with hnone | ⟨msg, hmsg, hsome⟩
    · rw [hnone]
      simp only [Option.toList_none, List.append_nil, Function.update_eq_self]
      exact hlim
    · rw [hsome]
      apply hlim.receive
      intro j
      by_cases hj : j = i
      · rw [hj, Function.update_self, h.readersPos i]
        exact published_mono (Nat.le_succ _)
      · rw [Function.update_of_ne hj]

theorem invariant_of_run (hR : R ≤ 60) {zero : α} {as : List (Step α R)}
    (hg : Guarded step NotOvertaken (init R zero) as) (hrun : run step (init R zero) as = some s) :
    Invariant s :=
  Machine.guarded_invariant (fun _ _ _ hI hover hstep => invariant_step hR hI hover hstep)
    (invariant_init hR zero) hg hrun

namespace Invariant

/-- The writer is within the ring of every reader. -/
theorem within (h : Invariant s) (i : Fin R) :
    s.sent.length + 2 ≤ (s.received i).length + slots R := by
  have hseq := h.limit_seq
  have hpos := h.limit_pos i
  have hpub := published_le (s.received i).length
  rw [h.writer.nextSeq] at hseq
  rw [h.readersPos i] at hpos
  have hlt := h.reader_lPos i
  omega

/-- The slot of a message that a reader has yet to receive. -/
theorem kept (h : Invariant s) (i : Fin R) {k : Nat} {msg : α}
    (hk : (s.received i).length ≤ k) (hmsg : s.sent[k]? = some msg) :
    s.shm.data (k % slots R) = ⟨k + 1, msg⟩ := by
  have hwithin := h.within i
  exact h.slot_of_lap hmsg (by omega)

/-- What a receive does: it takes the next message, if there is one. -/
theorem receive_cases (h : Invariant s) (i : Fin R) :
    ((s.received i).length = s.sent.length ∧
      shmReceiveNonBlocking s.shm i (s.readers i) = (none, s.shm, s.readers i)) ∨
    ∃ msg, s.sent[(s.received i).length]? = some msg ∧
      shmReceiveNonBlocking s.shm i (s.readers i) = (some msg,
        { s.shm with
          readersPos := Function.update s.shm.readersPos i (published ((s.received i).length + 1)) },
        { s.readers i with
          lPos := next (slots R) ((s.received i).length % slots R)
          nextSeq := (s.received i).length + 2 }) := by
  have hwithin := h.within i
  exact h.receive_within i (by omega)

/-- The slot that the writer takes next has a message that all readers have received. -/
theorem reused (h : Invariant s) (hlt : s.writer.lPos < slots R) (i : Fin R) :
    (s.shm.data s.writer.lPos).seq ≤ (s.received i).length := by
  rw [← Nat.mod_eq_of_lt hlt, h.writer.lPos]
  have hwithin := h.within i
  rcases h.slot_cases (Nat.mod_lt s.sent.length (h.slots_pos i)) with
    ⟨-, hzero⟩ | ⟨k, msg, hmsg, hlap, heq, hdata⟩
  · rw [hzero]
    exact Nat.zero_le _
  · -- it was used a whole lap ago
    have hk := (List.getElem?_eq_some_iff.mp hmsg).1
    have hage : s.sent.length = k + slots R := by
      by_contra hne
      exact mod_ne hk (by omega) heq
    rw [hdata]
    show k + 1 ≤ _
    omega

end Invariant

/-- Only the slot at the writer's position changes. -/
theorem put_changes {msg : α} {j : Nat} (hj : (s.put msg).shm.data j ≠ s.shm.data j) :
    j = s.writer.lPos := by
  by_contra hne
  exact hj (Function.update_of_ne hne _ _)

/-- A slot that changes has a message that all readers have received. -/
theorem overwritten (hR : R ≤ 60) (h : Invariant s) {a : Step α R} (hstep : step s a = some s')
    {j : Nat} (hj : s'.shm.data j ≠ s.shm.data j) (i : Fin R) :
    (s.shm.data j).seq ≤ (s.received i).length := by
  rcases step_cases hstep with ⟨msg, -, -, -, rfl⟩ | ⟨msg, -, -, -, rfl⟩ | ⟨scan, hi, -, -, rfl⟩ |
    ⟨scan, -, -, -, -, rfl⟩ | ⟨scan, -, hscan, -, -, rfl⟩ | ⟨k, -, rfl⟩
  · obtain ⟨hwrap, hlt⟩ := h.toConsistent.wrap hR
    have hI : Invariant { s with writer := s.writer.wrap } := { hwrap, h.toLimited.wrap with }
    rw [put_changes hj]
    exact hI.reused hlt i
  · exact absurd rfl hj
  · exact absurd rfl hj
  · exact absurd rfl hj
  · rw [put_changes hj]
    exact h.reused (h.scan_lPos scan hscan) i
  · rcases h.receive_cases k with ⟨-, hnone⟩ | ⟨msg, -, hsome⟩
    · rw [hnone] at hj
      exact absurd rfl hj
    · rw [hsome] at hj
      exact absurd rfl hj

/-- Receives alone bring a reader that is at most a lap behind all messages that are sent, and
leave the others alone. -/
theorem received_all (i : Fin R) (k : Nat) (s : State α R) (h : Consistent s)
    (hlap : s.sent.length ≤ (s.received i).length + slots R)
    (hk : (s.received i).length + k = s.sent.length) :
    ∃ s', run step s (List.replicate k (.receive i)) = some s' ∧ s'.sent = s.sent ∧
      s'.scan = s.scan ∧ s'.received = Function.update s.received i s.sent := by
  induction k generalizing s with
  | zero =>
    refine ⟨s, rfl, rfl, rfl, ?_⟩
    rw [← (h.in_order i).eq_of_length hk, Function.update_eq_self]
  | succ k ih =>
    rcases h.receive_within i hlap with ⟨hlen, -⟩ | ⟨msg, hmsg, hsome⟩
    · omega
    · have hstep := h.receive hmsg
      obtain ⟨s', hrun, hsent, hscan, hreceived⟩ := ih _ hstep (by
        simp only [Function.update_self, List.length_append, List.length_singleton]
        omega) (by
        simp only [Function.update_self, List.length_append, List.length_singleton]
        omega)
      refine ⟨s', ?_, hsent, hscan, ?_⟩
      · rw [List.replicate_succ, Machine.run_cons, step, hsome]
        exact hrun
      · rw [hreceived, Function.update_idem]

/-- The sequence-number queue over a whole run. -/
structure Broadcast (s : State α R) : Prop where
  /-- Each reader has received the first messages sent, each once. -/
  in_order : ∀ i, s.received i <+: s.sent
  /-- A receive returns the next message sent and fails only if there is none. -/
  receives : ∀ i, (shmReceiveNonBlocking s.shm i (s.readers i)).1 =
    s.sent[(s.received i).length]?
  /-- Receives alone bring a reader all messages sent. -/
  received_all : ∀ i, ∃ as s', (∀ a ∈ as, a = .receive i) ∧ run step s as = some s' ∧
    s'.sent = s.sent ∧ s'.received i = s.sent
  /-- A message that a reader has yet to receive is in its slot. -/
  kept : ∀ i k msg, (s.received i).length ≤ k → s.sent[k]? = some msg →
    s.shm.data (k % slots R) = ⟨k + 1, msg⟩
  /-- A slot that the next step changes has a message that all readers have received. -/
  not_overwritten : ∀ a s', step s a = some s' → ∀ j, s'.shm.data j ≠ s.shm.data j →
    ∀ i, (s.shm.data j).seq ≤ (s.received i).length

theorem Invariant.broadcast (hR : R ≤ 60) (h : Invariant s) : Broadcast s := by
  constructor
  · exact h.in_order
  · intro i
    rcases h.receive_cases i with ⟨hlen, hnone⟩ | ⟨msg, hmsg, hsome⟩
    · rw [hnone, List.getElem?_eq_none hlen.ge]
    · rw [hsome, hmsg]
  · intro i
    have hle := h.received_le i
    have hwithin := h.within i
    obtain ⟨s', hrun, hsent, -, hall⟩ := SequenceDelivery.received_all i
      (s.sent.length - (s.received i).length) s h.toConsistent (by omega) (by omega)
    refine ⟨_, s', fun a ha => List.eq_of_mem_replicate ha, hrun, hsent, ?_⟩
    rw [hall, Function.update_self]
  · exact fun i k msg hk hmsg => h.kept i hk hmsg
  · exact fun a s' hstep j hj i => overwritten hR h hstep hj i

/-- The queue delivers in every run in which no reader overtakes the minimum between the two
loads of its position, for any number of readers that leaves it two slots. -/
theorem sequence_broadcast (hR : R ≤ 60) (zero : α) (as : List (Step α R)) (s : State α R)
    (hg : Guarded step NotOvertaken (init R zero) as) (hrun : run step (init R zero) as = some s) :
    Broadcast s :=
  (invariant_of_run hR hg hrun).broadcast hR

/-- Two messages, and the third send has loaded the position of the first reader twice. -/
private def thirdSend (i : Fin 58) : List (Step Nat 58) :=
  [.send 7, .receive i, .send 8, .receive i, .send 9, .poll, .poll]

theorem sequence_broadcast_run : ∃ s : State Nat 58, s.sent = [7, 8] ∧
    s.received ⟨0, by decide⟩ = [7, 8] ∧ s.received ⟨1, by decide⟩ = [] ∧
      s.scan.map Scan.i = some 1 ∧ Broadcast s :=
  ⟨(run step (init 58 0) (thirdSend ⟨0, by decide⟩)).get rfl, by decide, by decide, by decide,
    by decide, sequence_broadcast (by decide) 0 (thirdSend ⟨0, by decide⟩) _ (by decide +kernel)
      (Option.some_get _).symm⟩

/-- With one reader, or with 32 slots or fewer, the minimum is never raised. -/
theorem not_overtaken (hR : R = 1 ∨ 30 ≤ R) (h : Invariant s)
    (hbound : s.sent.length < 2 ^ 32 - 64) (a : Step α R) : NotOvertaken s a := by
  rintro - scan hscan hbelow hi
  have hscanning := h.scanning scan hscan
  have hle := h.received_le ⟨scan.i, hi⟩
  have hpos := h.readersPos ⟨scan.i, hi⟩
  rcases hR with rfl | hR
  · have hmin := hscanning.start (by omega)
    have hpub := published_le (s.received ⟨scan.i, hi⟩).length
    omega
  · obtain ⟨r, hlt, hge⟩ := hscanning.below hbelow
    obtain ⟨q, hq⟩ := hscanning.min_published
    have hslots := slots_eq R
    have hseq := h.writer.nextSeq
    have hlimit := hscanning.at_limit
    unfold published at *
    omega

/-- Messages are only added. -/
theorem sent_step {a : Step α R} (h : step s a = some s') : s.sent <+: s'.sent := by
  rcases step_cases h with ⟨msg, -, -, -, rfl⟩ | ⟨msg, -, -, -, rfl⟩ | ⟨scan, hi, -, -, rfl⟩ |
    ⟨scan, -, -, -, -, rfl⟩ | ⟨scan, -, -, -, -, rfl⟩ | ⟨i, -, rfl⟩
  · exact List.prefix_append _ _
  · exact List.prefix_refl _
  · exact List.prefix_refl _
  · exact List.prefix_refl _
  · exact List.prefix_append _ _
  · exact List.prefix_refl _

/-- So every run keeps the invariant. -/
theorem invariant (hR : R = 1 ∨ 30 ≤ R) (h60 : R ≤ 60) {zero : α}
    (h : Reachable step (init R zero) s) (hbound : s.sent.length < 2 ^ 32 - 64) :
    Invariant s := by
  refine h.invariant (I := fun s => s.sent.length < 2 ^ 32 - 64 → Invariant s)
    (fun _ => invariant_init h60 zero) ?_ hbound
  intro s a s' hI hstep hbound'
  have hlt := (sent_step hstep).length_le.trans_lt hbound'
  exact invariant_step h60 (hI hlt) (not_overtaken hR (hI hlt) hlt a) hstep

/-- Between the two loads of its position the second reader publishes 31, past the 15 of the
first one, who has not received the messages from 16 on. -/
private def overtaken (i j : Fin 2) : List (Step Nat 2) :=
  List.replicate 15 (.send 7) ++ List.replicate 15 (.receive i) ++ List.replicate 44 (.send 7) ++
    [.poll, .poll, .poll] ++ List.replicate 31 (.receive j) ++ [.poll, .sync] ++
    List.replicate 17 (.send 7)

/-- Two readers; the slot of message 16 has message 76 in it. -/
theorem overwrites_unread : ¬ ∀ R, 1 ≤ R → R ≤ 60 → ∀ s : State Nat R,
    Reachable step (init R 0) s → s.sent.length < 2 ^ 32 - 64 → Broadcast s := by
  intro hall
  have hend : ((run step (init 2 0) (overtaken ⟨0, by decide⟩ ⟨1, by decide⟩)).map fun s =>
      (s.sent.length, s.sent[15]?, (s.received ⟨0, by decide⟩).length, (s.shm.data 15).seq)) =
        some (76, some 7, 15, 76) := by decide +kernel
  obtain ⟨s, hrun, hs⟩ := Option.map_eq_some_iff.mp hend
  simp only [Prod.mk.injEq] at hs
  obtain ⟨hlen, hmsg, hreceived, hseq⟩ := hs
  have hbroadcast := hall 2 (by decide) (by decide) s ⟨_, hrun⟩ (by omega)
  have hkept := hbroadcast.kept ⟨0, by decide⟩ 15 7 (by omega) hmsg
  have hslot : 15 % slots 2 = 15 := by decide
  rw [hslot] at hkept
  rw [hkept] at hseq
  exact absurd hseq (by decide)

end SmeltConsensus.BroadcastQueue.SequenceDelivery
