import Mathlib.Algebra.BigOperators.Group.Finset.Piecewise
import Mathlib.Algebra.Order.BigOperators.Group.Finset
import Mathlib.Data.Fintype.Card
import SmeltConsensus.BroadcastQueue.BitMaskDelivery
import SmeltConsensus.Foundation.Account

/-!
How long the bit-mask queue takes. The compare-and-swap of a reader fails only if another
reader has cleared its bit of the same slot since the load, so each of the others makes it
fail at most once for a message.
-/

set_option autoImplicit false
set_option relaxedAutoImplicit false

namespace SmeltConsensus.BroadcastQueue.BitMaskProgress

open SmeltConsensus.Foundation
open SmeltConsensus.Foundation.Account
open SmeltConsensus.Foundation.Flags
open SmeltConsensus.Foundation.Machine (Reachable run)
open SmeltConsensus.BroadcastQueue.Shm (SHMQ_SIZE)
open SmeltConsensus.BroadcastQueue.BitMask
open SmeltConsensus.BroadcastQueue.BitMaskDelivery

variable {α : Type} {R : Nat} {s s' : State α R}

/-- The readers other than `i` with a bit in a header. -/
def others (i : Fin R) (header : BitVec 64) : Finset (Fin R) :=
  (Finset.univ.erase i).filter fun j => header.getLsbD j = true

theorem mem_others {i j : Fin R} {header : BitVec 64} :
    j ∈ others i header ↔ j ≠ i ∧ header.getLsbD j = true := by
  rw [others, Finset.mem_filter, Finset.mem_erase]
  simp only [Finset.mem_univ, and_true]

theorem card_others_lt (i : Fin R) (header : BitVec 64) : (others i header).card < R := by
  have hle : (others i header).card ≤ (Finset.univ.erase i).card :=
    Finset.card_le_card (Finset.filter_subset _ _)
  rw [Finset.card_erase_of_mem (Finset.mem_univ i), Finset.card_univ, Fintype.card_fin] at hle
  have hpos := i.pos
  omega

theorem card_others_mono {i : Fin R} {x y : BitVec 64} (h : Within x y) :
    (others i x).card ≤ (others i y).card := by
  apply Finset.card_le_card
  intro j hj
  obtain ⟨hne, hbit⟩ := mem_others.mp hj
  exact mem_others.mpr ⟨hne, h j hbit⟩

/-- The bits of a header belong to readers. -/
def OfReaders (R : Nat) (header : BitVec 64) : Prop := ∀ b, header.getLsbD b = true → b < R

/-- A header that has changed under a reader has lost the bit of another one. -/
theorem card_others_lt_of_ne {i : Fin R} {x y : BitVec 64} (h : Within x y) (hne : x ≠ y)
    (hy : OfReaders R y) (hi : x.getLsbD i = true) : (others i x).card < (others i y).card := by
  obtain ⟨b, hb, hlost⟩ : ∃ b, y.getLsbD b = true ∧ x.getLsbD b = false := by
    by_contra hall
    refine hne (h.antisymm fun b hb => ?_)
    by_contra hlost
    exact hall ⟨b, hb, Bool.of_not_eq_true hlost⟩
  have hbi : (⟨b, hy b hb⟩ : Fin R) ≠ i := by
    rintro rfl
    rw [hi] at hlost
    cases hlost
  apply Finset.card_lt_card
  refine Finset.ssubset_iff_subset_ne.mpr ⟨?_, ?_⟩
  · intro j hj
    obtain ⟨hj, hbit⟩ := mem_others.mp hj
    exact mem_others.mpr ⟨hj, h j hbit⟩
  · intro heq
    have hmem : (⟨b, hy b hb⟩ : Fin R) ∈ others i y := mem_others.mpr ⟨hbi, hb⟩
    rw [← heq] at hmem
    rw [(mem_others.mp hmem).2] at hlost
    cases hlost

/-- How many steps of its own a reader needs at most to the end of its receive, if its slot has
`header`: three for each of the others that may come first, and three for its own swap. -/
def remaining (i : Fin R) (header : BitVec 64) : ReaderPc → Nat
  | .idle => 3 * R + 2
  | .payload => 3 * (others i header).card + 4
  | .loadOld => 3 * (others i header).card + 3
  | .loadNew old => 3 * (others i old).card + 2
  | .cas old _ => 3 * (others i old).card + 1

/-- The same for reader `i` in a state. -/
def left (s : State α R) (i : Fin R) : Nat :=
  remaining i (s.header (taken s i % SHMQ_SIZE)) (s.readerPc i)

theorem remaining_pos (i : Fin R) (header : BitVec 64) (pc : ReaderPc) :
    0 < remaining i header pc := by
  cases pc <;> simp only [remaining] <;> omega

theorem remaining_le (i : Fin R) (header : BitVec 64) (pc : ReaderPc) :
    remaining i header pc ≤ 3 * R + 2 := by
  have hheader := card_others_lt i header
  cases pc with
  | idle => exact Nat.le_refl _
  | payload => simp only [remaining]; omega
  | loadOld => simp only [remaining]; omega
  | loadNew old =>
    have hold := card_others_lt i old
    simp only [remaining]
    omega
  | cas old newV =>
    have hold := card_others_lt i old
    simp only [remaining]
    omega

theorem remaining_mono {i : Fin R} {x y : BitVec 64} (h : Within x y) (pc : ReaderPc) :
    remaining i x pc ≤ remaining i y pc := by
  have hle := card_others_mono (i := i) h
  cases pc <;> simp only [remaining] <;> omega

/-- The value that a reader has loaded for its swap. -/
def loaded : ReaderPc → Option (BitVec 64)
  | .loadNew old => some old
  | .cas old _ => some old
  | _ => none

/-- What every step keeps: the delivery invariant, and loaded values have no bits but those of
readers. -/
structure Timed (s : State α R) : Prop where
  inv : Invariant s
  loaded : ∀ i old, loaded (s.readerPc i) = some old → OfReaders R old

theorem timed_init (R : Nat) (zero : α) : Timed (init R zero) where
  inv := invariant_init R zero
  loaded i old hold := by cases hold

/-- The steps of reader `i`. -/
def ofReader (i : Fin R) : Step α R → Nat
  | .send _ => 0
  | .writer => 0
  | .reader j => if j = i then 1 else 0

/-- The steps inside of `shm_send_raw`. -/
def ofWriter : Step α R → Nat
  | .send _ => 0
  | .writer => 1
  | .reader _ => 0

/-- The calls of `shm_send_raw`. -/
def ofSend : Step α R → Nat
  | .send _ => 1
  | .writer => 0
  | .reader _ => 0

section Reader

variable {i : Fin R}

theorem Timed.position (h : Timed s) (i : Fin R) :
    (s.readers i).lPos = taken s i % SHMQ_SIZE := by rw [h.inv.reader i]

theorem Timed.mask (h : Timed s) (i : Fin R) : (s.readers i).rMask = 1#64 <<< (i : Nat) := by
  rw [h.inv.reader i]
  rfl

/-- The header in the slot of a reader past its test has the bits of readers only. -/
theorem Timed.ofReaders (h : Timed s) (hpc : s.readerPc i ≠ .idle) :
    OfReaders R (s.header (taken s i % SHMQ_SIZE)) := by
  have hlt := (h.inv.reader_ok i).cleared_lt hpc
  have hroom := h.inv.room i
  have hle := visible_le s.writerPc s.sent.length
  intro b hb
  obtain ⟨hbR, -⟩ := (h.inv.flags (taken s i) hlt (hle.trans hroom) b).mp hb
  exact hbR

theorem Timed.own_bit (h : Timed s) (hpc : s.readerPc i ≠ .idle) :
    (s.header (taken s i % SHMQ_SIZE)).getLsbD i = true :=
  h.inv.own_bit ((h.inv.reader_ok i).cleared_lt hpc)

/-- A swap that fails is due to another reader. -/
theorem Timed.failed_swap (h : Timed s) {old newV : BitVec 64} (hpc : s.readerPc i = .cas old newV)
    (hne : s.header (taken s i % SHMQ_SIZE) ≠ old) :
    (others i (s.header (taken s i % SHMQ_SIZE))).card < (others i old).card := by
  have hidle : s.readerPc i ≠ .idle := by
    rw [hpc]
    exact fun hidle => by cases hidle
  have hok := h.inv.reader_ok i
  rw [hpc] at hok
  obtain ⟨-, mid, -, hmid, hold⟩ := hok
  refine card_others_lt_of_ne (hmid.trans hold) hne ?_ (h.own_bit hidle)
  exact h.loaded i old (by rw [hpc]; rfl)

/-- The end of a receive. -/
structure Finished (s s' : State α R) (i : Fin R) : Prop where
  header : ∃ header', Within header' (s.header (taken s i % SHMQ_SIZE)) ∧
    s'.header = Function.update s.header (taken s i % SHMQ_SIZE) header'
  move : s'.readerPc = Function.update s.readerPc i .idle
  own : taken s' i = taken s i + 1
  rest : ∀ j, j ≠ i → taken s' j = taken s j

/-- A step towards it. -/
structure Advanced (s s' : State α R) (i : Fin R) (pc : ReaderPc) : Prop where
  header : s'.header = s.header
  move : s'.readerPc = Function.update s.readerPc i pc
  taken : ∀ j, taken s' j = taken s j
  left : remaining i (s.header (BitMaskDelivery.taken s i % SHMQ_SIZE)) pc < left s i
  loaded : ∀ old, loaded pc = some old → OfReaders R old

/-- A step that changes just where the reader is. -/
theorem advanced_of (pc : ReaderPc)
    (htaken : cleared pc (s.received i).length = taken s i)
    (hleft : remaining i (s.header (taken s i % SHMQ_SIZE)) pc < left s i)
    (hloaded : ∀ old, BitMaskProgress.loaded pc = some old → OfReaders R old) :
    Advanced s { s with readerPc := Function.update s.readerPc i pc } i pc := by
  refine ⟨rfl, rfl, fun j => ?_, hleft, hloaded⟩
  show cleared (Function.update s.readerPc i pc j) (s.received j).length = taken s j
  by_cases hj : j = i
  · rw [hj, Function.update_self]
    exact htaken
  · rw [Function.update_of_ne hj]
    rfl

/-- Every step of a reader ends its receive or brings it closer to the end. -/
theorem Timed.reader_step (h : Timed s) (hstep : readerStep s i = some s') :
    Finished s s' i ∨ ∃ pc, Advanced s s' i pc := by
  have hpos := h.position i
  have hcard := card_others_lt i (s.header (taken s i % SHMQ_SIZE))
  have hok := h.inv.reader_ok i
  unfold readerStep at hstep
  cases hpc : s.readerPc i with
  | idle =>
    simp only [hpc] at hstep
    split at hstep
    · obtain rfl := Option.some.inj hstep
      refine .inr ⟨.payload, advanced_of .payload ?_ ?_ fun old hold => by cases hold⟩
      · rw [taken, hpc]
        rfl
      · rw [left, hpc]
        simp only [remaining]
        omega
    · cases hstep
  | payload =>
    simp only [hpc] at hstep
    obtain rfl := Option.some.inj hstep
    refine .inr ⟨.loadOld, rfl, rfl, fun j => ?_, ?_, fun old hold => by cases hold⟩
    · show cleared (Function.update s.readerPc i .loadOld j)
        (Function.update s.received i (s.received i ++ [s.data (s.readers i).lPos]) j).length = _
      by_cases hj : j = i
      · rw [hj, Function.update_self, Function.update_self, List.length_append, taken, hpc]
        rfl
      · rw [Function.update_of_ne hj, Function.update_of_ne hj]
        rfl
    · rw [left, hpc]
      simp only [remaining]
      omega
  | loadOld =>
    simp only [hpc] at hstep
    obtain rfl := Option.some.inj hstep
    rw [hpos]
    refine .inr ⟨_, advanced_of (.loadNew (s.header (taken s i % SHMQ_SIZE))) ?_ ?_ ?_⟩
    · rw [taken, hpc]
      rfl
    · rw [left, hpc]
      simp only [remaining]
      omega
    · intro old hold
      obtain rfl := Option.some.inj hold
      exact h.ofReaders (by rw [hpc]; exact fun hidle => by cases hidle)
  | loadNew old =>
    simp only [hpc] at hstep
    obtain rfl := Option.some.inj hstep
    refine .inr ⟨_, advanced_of (.cas old _) ?_ ?_ ?_⟩
    · rw [taken, hpc]
      rfl
    · rw [left, hpc]
      simp only [remaining]
      omega
    · intro old' hold
      obtain rfl := Option.some.inj hold
      exact h.loaded i old (by rw [hpc]; rfl)
  | cas old newV =>
    simp only [hpc] at hstep
    rw [hpos] at hstep
    have hidle : s.readerPc i ≠ .idle := by
      rw [hpc]
      exact fun hidle => by cases hidle
    split at hstep
    · rename_i hsame
      obtain rfl := Option.some.inj hstep
      have hnew := h.inv.swapped hpc hsame
      refine .inl ⟨⟨newV, ?_, rfl⟩, rfl, ?_, fun j hj => ?_⟩
      · rw [hnew]
        exact xor_within (h.own_bit hidle)
      · show cleared (Function.update s.readerPc i .idle i) (s.received i).length = _
        rw [hpc] at hok
        rw [Function.update_self, taken, hpc]
        exact (Nat.sub_add_cancel hok.1.1).symm
      · show cleared (Function.update s.readerPc i .idle j) (s.received j).length = _
        rw [Function.update_of_ne hj]
        rfl
    · rename_i hchanged
      obtain rfl := Option.some.inj hstep
      have hfewer := h.failed_swap hpc hchanged
      refine .inr ⟨_, advanced_of .loadOld ?_ ?_ fun old hold => by cases hold⟩
      · rw [taken, hpc]
        rfl
      · rw [left, hpc]
        simp only [remaining]
        omega

end Reader

/-- What a step of the writer leaves to the readers. -/
structure Untouched (s s' : State α R) : Prop where
  readerPc : s'.readerPc = s.readerPc
  taken : ∀ i, taken s' i = taken s i
  header : ∀ i, s.readerPc i ≠ .idle →
    s'.header (BitMaskDelivery.taken s i % SHMQ_SIZE) =
      s.header (BitMaskDelivery.taken s i % SHMQ_SIZE)

/-- The writer stays away from the slots of readers past their test. -/
theorem Timed.writer_step (h : Timed s) (hstep : writerStep s = some s') : Untouched s s' := by
  rcases writerStep_cases hstep with ⟨msg, -, -, rfl⟩ | ⟨msg, -, rfl⟩ | ⟨slot, hpc, rfl⟩
  · exact ⟨rfl, fun _ => rfl, fun _ _ => rfl⟩
  · exact ⟨rfl, fun _ => rfl, fun _ _ => rfl⟩
  · refine ⟨rfl, fun _ => rfl, fun i hidle => ?_⟩
    apply Function.update_of_ne
    intro heq
    have hbit := h.own_bit hidle
    rw [heq, h.inv.slot_free hpc, zero_bit] at hbit
    cases hbit

theorem send_step {msg : α} (hstep : step s (.send msg) = some s') : Untouched s s' := by
  obtain ⟨-, rfl⟩ := send_cases hstep
  exact ⟨rfl, fun _ => rfl, fun _ _ => rfl⟩

theorem Untouched.left_eq (h : Untouched s s') (i : Fin R) : left s' i = left s i := by
  by_cases hidle : s.readerPc i = .idle
  · rw [left, left, h.readerPc, hidle]
    rfl
  · rw [left, left, h.readerPc, h.taken, h.header i hidle]

theorem timed_step (hR1 : 1 ≤ R) (hR : R ≤ 64) (h : Timed s) {a : Step α R}
    (hstep : step s a = some s') : Timed s' := by
  refine ⟨invariant_step hR1 hR h.inv hstep, fun i old hold => ?_⟩
  cases a with
  | send msg =>
    rw [(send_step hstep).readerPc] at hold
    exact h.loaded i old hold
  | writer =>
    rw [(h.writer_step hstep).readerPc] at hold
    exact h.loaded i old hold
  | reader j =>
    rcases h.reader_step hstep with hend | ⟨pc, hnext⟩
    · rw [hend.move] at hold
      by_cases hi : i = j
      · rw [hi, Function.update_self] at hold
        cases hold
      · rw [Function.update_of_ne hi] at hold
        exact h.loaded i old hold
    · rw [hnext.move] at hold
      by_cases hi : i = j
      · rw [hi, Function.update_self] at hold
        exact hnext.loaded old hold
      · rw [Function.update_of_ne hi] at hold
        exact h.loaded i old hold

theorem reachable_timed (hR1 : 1 ≤ R) (hR : R ≤ 64) {zero : α}
    (hr : Reachable step (init R zero) s) : Timed s :=
  hr.invariant (timed_init R zero) fun _ _ _ hs ha => timed_step hR1 hR hs ha

/-- The receive of another reader, which may take a bit out of the header, does not set a
reader back. -/
theorem Finished.left_le {i j : Fin R} (h : Finished s s' j) (hi : i ≠ j) :
    left s' i ≤ left s i := by
  obtain ⟨header', hwithin, hheader⟩ := h.header
  rw [left, left, h.move, Function.update_of_ne hi, h.rest i hi, hheader]
  apply remaining_mono
  by_cases hslot : taken s i % SHMQ_SIZE = taken s j % SHMQ_SIZE
  · rw [hslot, Function.update_self]
    exact hwithin
  · rw [Function.update_of_ne hslot]
    exact Within.refl _

/-- Every step of a reader is paid for: by what is left of its receive, or by its end. -/
theorem Timed.reader_account (h : Timed s) {a : Step α R} (hstep : step s a = some s')
    (i : Fin R) :
    ofReader i a + left s' i + (3 * R + 2) * taken s i ≤
      left s i + (3 * R + 2) * taken s' i := by
  have huntouched : Untouched s s' →
      left s' i + (3 * R + 2) * taken s i ≤ left s i + (3 * R + 2) * taken s' i := by
    intro hu
    rw [hu.left_eq, hu.taken]
  cases a with
  | send msg =>
    rw [ofReader, Nat.zero_add]
    exact huntouched (send_step hstep)
  | writer =>
    rw [ofReader, Nat.zero_add]
    exact huntouched (h.writer_step hstep)
  | reader j =>
    by_cases hi : i = j
    · subst hi
      have hpos : 0 < left s i := remaining_pos _ _ _
      rw [ofReader, if_pos rfl]
      rcases h.reader_step hstep with hend | ⟨pc, hnext⟩
      · have hfull : left s' i = 3 * R + 2 := by
          rw [left, hend.move, Function.update_self]
          rfl
        rw [hfull, hend.own, Nat.mul_succ]
        omega
      · have hleft := hnext.left
        have hless : left s' i = remaining i (s.header (taken s i % SHMQ_SIZE)) pc := by
          rw [left, hnext.move, Function.update_self, hnext.header, hnext.taken]
        rw [hless, hnext.taken]
        omega
    · rw [ofReader, if_neg fun heq => hi heq.symm, Nat.zero_add]
      rcases h.reader_step hstep with hend | ⟨pc, hnext⟩
      · rw [hend.rest i hi]
        exact Nat.add_le_add_right (hend.left_le hi) _
      · have hsame : left s' i = left s i := by
          rw [left, left, hnext.move, Function.update_of_ne hi, hnext.header, hnext.taken]
        rw [hsame, hnext.taken]

/-- What a run costs a reader. -/
theorem reader_total (hR1 : 1 ≤ R) (hR : R ≤ 64) (h : Timed s) {as : List (Step α R)}
    (hrun : run step s as = some s') (i : Fin R) :
    total (ofReader i) as + left s' i + (3 * R + 2) * taken s i ≤
      left s i + (3 * R + 2) * taken s' i := by
  have hle := run_le (ofReader i) (fun _ => 0) (fun t => left t i)
    (fun t => (3 * R + 2) * taken t i)
    (fun t a u ht hu => ⟨timed_step hR1 hR ht hu, ht.reader_account hu i⟩) h hrun
  rw [total_zero] at hle
  exact hle

/-- A receive does not wait: whatever the others do, a reader that has taken `3 * R + 2` steps
has finished one. -/
theorem receive_wait_free (hR1 : 1 ≤ R) (hR : R ≤ 64) (zero : α) (s : State α R)
    (hr : Reachable step (init R zero) s) (as : List (Step α R)) (s' : State α R)
    (hrun : run step s as = some s') (i : Fin R) (hown : 3 * R + 2 ≤ total (ofReader i) as) :
    taken s i < taken s' i := by
  have hle := reader_total hR1 hR (reachable_timed hR1 hR hr) hrun i
  have hpos : 0 < left s' i := remaining_pos _ _ _
  have hleft : left s i ≤ 3 * R + 2 := remaining_le _ _ _
  by_contra hnot
  have hsame : (3 * R + 2) * taken s' i ≤ (3 * R + 2) * taken s i :=
    Nat.mul_le_mul_left _ (Nat.le_of_not_lt hnot)
  omega

private def first : Fin 2 := ⟨0, Nat.two_pos⟩

private def second : Fin 2 := ⟨1, Nat.one_lt_two⟩

/-- One message to two readers; the first one swaps between the loads and the swap of the
second one. -/
private def lostSwap : List (Step Nat 2) :=
  [.send 7, .writer, .writer, .writer, .reader first, .reader second, .reader first,
    .reader second, .reader first, .reader second, .reader first, .reader second, .reader first,
    .reader second, .reader second, .reader second, .reader second]

/-- The second reader takes all of its eight steps. -/
theorem receive_wait_free_lost : ∃ s : State Nat 2, run step (init 2 0) lostSwap = some s ∧
    total (ofReader second) lostSwap = 3 * 2 + 2 ∧
      taken (init 2 0 : State Nat 2) second < taken s second :=
  ⟨(run step (init 2 0) lostSwap).get rfl, rfl, rfl,
    receive_wait_free (by decide) (by decide) 0 _ (.refl _) lostSwap _ rfl second (by decide)⟩

/-- How many steps are left of a call of `shm_send_raw`. -/
def toSend : WriterPc α → Nat
  | .idle => 0
  | .test _ => 3
  | .payload _ => 2
  | .header _ => 1

/-- Whether a call has yet to write its message. -/
def unwritten : WriterPc α → Nat
  | .idle => 0
  | .test _ => 1
  | .payload _ => 1
  | .header _ => 0

/-- A reader changes nothing of the writer's. -/
theorem reader_frame {i : Fin R} (hstep : readerStep s i = some s') :
    s'.writerPc = s.writerPc ∧ s'.sent = s.sent := by
  rcases readerStep_cases hstep with ⟨old, newV, -, -, rfl⟩ | ⟨-, -, rfl⟩ | ⟨-, rfl⟩ |
    ⟨-, rfl⟩ | ⟨old, -, rfl⟩ | ⟨old, newV, -, rfl⟩
  all_goals exact ⟨rfl, rfl⟩

/-- A call of `shm_send_raw` takes three steps and writes one message. -/
theorem writer_account {a : Step α R} (hstep : step s a = some s') :
    ofWriter a + toSend s'.writerPc ≤ toSend s.writerPc + 3 * ofSend a ∧
      0 + (s'.sent.length + unwritten s'.writerPc) ≤
        s.sent.length + unwritten s.writerPc + ofSend a := by
  rw [Nat.zero_add]
  cases a with
  | send msg =>
    obtain ⟨hpc, rfl⟩ := send_cases hstep
    rw [hpc]
    exact ⟨Nat.le_refl _, Nat.le_refl _⟩
  | writer =>
    rcases writerStep_cases hstep with ⟨msg, hpc, -, rfl⟩ | ⟨msg, hpc, rfl⟩ | ⟨slot, hpc, rfl⟩
    · rw [hpc]
      exact ⟨Nat.le_refl _, Nat.le_refl _⟩
    · rw [hpc, List.length_append]
      exact ⟨Nat.le_refl _, Nat.le_refl _⟩
    · rw [hpc]
      exact ⟨Nat.le_refl _, Nat.le_refl _⟩
  | reader i =>
    obtain ⟨hpc, hsent⟩ := reader_frame hstep
    rw [hpc, hsent, ofWriter, ofSend]
    exact ⟨by omega, by omega⟩

/-- What a run costs the writer, and how much it sends. -/
theorem writer_total {zero : α} {as : List (Step α R)}
    (hrun : run step (init R zero) as = some s) :
    total ofWriter as ≤ 3 * total ofSend as ∧ s.sent.length ≤ total ofSend as := by
  have htriple : total (fun a : Step α R => 3 * ofSend a) as = 3 * total ofSend as :=
    total_mul 3 ofSend as
  have hcost := run_le (I := fun _ => True) ofWriter (fun a => 3 * ofSend a)
    (fun t => toSend t.writerPc) (fun _ => 0)
    (fun t a u _ hu => ⟨trivial, (writer_account hu).1⟩) trivial hrun
  have hsent := run_le (I := fun _ => True) (fun _ => 0) ofSend
    (fun t => t.sent.length + unwritten t.writerPc) (fun _ => 0)
    (fun t a u _ hu => ⟨trivial, (writer_account hu).2⟩) trivial hrun
  have hstart : (init R zero).sent.length + unwritten (init R zero).writerPc = 0 := rfl
  have hidle : toSend (init R zero).writerPc = 0 := rfl
  rw [total_zero] at hsent
  omega

/-- A receive is of a message that has its header. -/
theorem Timed.cost_le_shown (h : Timed s) {i : Fin R} {n : Nat}
    (hn : n + left s i ≤ 3 * R + 2 + (3 * R + 2) * taken s i) : n ≤ (3 * R + 2) * shown s := by
  by_cases hidle : s.readerPc i = .idle
  · have hle : (3 * R + 2) * taken s i ≤ (3 * R + 2) * shown s :=
      Nat.mul_le_mul_left _ (h.inv.reader_ok i).cleared_le
    have hfull : left s i = 3 * R + 2 := by
      rw [left, hidle]
      rfl
    omega
  · have hle : (3 * R + 2) * (taken s i + 1) ≤ (3 * R + 2) * shown s :=
      Nat.mul_le_mul_left _ ((h.inv.reader_ok i).cleared_lt hidle)
    rw [Nat.mul_succ] at hle
    omega

/-- Every step of a schedule is a call, a step inside of one, or a step of some reader. -/
theorem length_eq_total (as : List (Step α R)) :
    as.length = total ofSend as + total ofWriter as + ∑ i, total (ofReader i) as := by
  induction as with
  | nil => simp only [total_nil, List.length_nil, Finset.sum_const_zero, Nat.add_zero]
  | cons a as ih =>
    have hone : ofSend a + ofWriter a + ∑ i, ofReader i a = 1 := by
      cases a with
      | send msg => simp only [ofSend, ofWriter, ofReader, Finset.sum_const_zero, Nat.add_zero]
      | writer => simp only [ofSend, ofWriter, ofReader, Finset.sum_const_zero, Nat.add_zero,
          Nat.zero_add]
      | reader j =>
        simp only [ofSend, ofWriter, ofReader, Finset.sum_ite_eq, Finset.mem_univ, if_true,
          Nat.zero_add]
    simp only [total_cons, Finset.sum_add_distrib, List.length_cons, ih]
    omega

/-- No party can take a step, except for a new call. -/
def Quiet (s : State α R) : Prop := step s .writer = none ∧ ∀ i, step s (.reader i) = none

/-- Every call is over and every reader has received and released every message. -/
def Drained (s : State α R) : Prop :=
  s.writerPc = .idle ∧ ∀ i, s.readerPc i = .idle ∧ s.received i = s.sent

/-- Only a reader without a message stops. -/
theorem Timed.reader_stops (hR : R ≤ 64) (h : Timed s) (i : Fin R) :
    step s (.reader i) = none ↔ s.readerPc i = .idle ∧ taken s i = shown s := by
  have hle := (h.inv.reader_ok i).cleared_le
  have hid : (s.readers i).id = i := by
    rw [h.inv.reader i]
    rfl
  have hbit : bitIsSet (s.readers i).id (s.header (s.readers i).lPos) = true ↔
      taken s i < shown s := by
    rw [hid, h.position i, bitIsSet_eq (i.isLt.trans_le hR), h.inv.bit_iff hle]
  show readerStep s i = none ↔ _
  unfold readerStep
  cases hpc : s.readerPc i with
  | idle =>
    simp only [true_and, ite_eq_right_iff, reduceCtorEq, imp_false, hbit]
    have htaken : taken s i ≤ shown s := hle
    omega
  | payload => simp only [reduceCtorEq, false_and]
  | loadOld => simp only [reduceCtorEq, false_and]
  | loadNew old => simp only [reduceCtorEq, false_and]
  | cas old newV =>
    simp only [reduceCtorEq, false_and, iff_false]
    split <;> simp only [reduceCtorEq, not_false_eq_true]

/-- The writer waits for readers only. -/
theorem Timed.writer_stops (h : Timed s) (hreaders : ∀ i, taken s i = shown s) :
    step s .writer = none ↔ s.writerPc = .idle := by
  show writerStep s = none ↔ _
  unfold writerStep
  cases hpc : s.writerPc with
  | idle => simp only
  | test msg =>
    have hshown : shown s = s.sent.length := by
      rw [shown, hpc]
      rfl
    have hzero : s.header s.writer.lPos = 0 := by
      rw [h.inv.writer]
      show s.header (s.sent.length % SHMQ_SIZE) = 0
      rw [← hshown]
      apply h.inv.header_zero
      intro i
      rw [hreaders i]
      exact Nat.lt_add_of_pos_right (by decide)
    simp only [hzero, if_true, reduceCtorEq]
  | payload msg => simp only [reduceCtorEq]
  | header slot => simp only [reduceCtorEq]

/-- The queue stops just where nothing is left to do. -/
theorem Timed.quiet_iff (hR : R ≤ 64) (h : Timed s) : Quiet s ↔ Drained s := by
  have htaken : ∀ i, s.readerPc i = .idle → taken s i = (s.received i).length := by
    intro i hidle
    rw [taken, hidle]
    rfl
  constructor
  · rintro ⟨hwriter, hreaders⟩
    have hall : ∀ i, s.readerPc i = .idle ∧ taken s i = shown s := fun i =>
      (h.reader_stops hR i).mp (hreaders i)
    have hidle := (h.writer_stops fun i => (hall i).2).mp hwriter
    have hshown : shown s = s.sent.length := by
      rw [shown, hidle]
      rfl
    refine ⟨hidle, fun i => ⟨(hall i).1, (h.inv.in_order i).eq_of_length ?_⟩⟩
    rw [← htaken i (hall i).1, (hall i).2, hshown]
  · rintro ⟨hidle, hall⟩
    have hshown : shown s = s.sent.length := by
      rw [shown, hidle]
      rfl
    have hreaders : ∀ i, taken s i = shown s := by
      intro i
      rw [htaken i (hall i).1, (hall i).2, hshown]
    exact ⟨(h.writer_stops hreaders).mpr hidle, fun i =>
      (h.reader_stops hR i).mpr ⟨(hall i).1, hreaders i⟩⟩

/-- Every schedule comes to an end, at which every message is with every reader. -/
theorem bit_mask_drains (hR1 : 1 ≤ R) (hR : R ≤ 64) (zero : α) (as : List (Step α R))
    (s : State α R) (hrun : run step (init R zero) as = some s) :
    as.length ≤ (4 + R * (3 * R + 2)) * total ofSend as ∧ (Quiet s ↔ Drained s) := by
  have htimed : Timed s := reachable_timed hR1 hR ⟨as, hrun⟩
  refine ⟨?_, htimed.quiet_iff hR⟩
  obtain ⟨hwriter, hsent⟩ := writer_total hrun
  have hreader : ∀ i : Fin R, total (ofReader i) as ≤ (3 * R + 2) * total ofSend as := by
    intro i
    have hle := reader_total hR1 hR (timed_init R zero) hrun i
    have hstart : left (init R zero) i = 3 * R + 2 := rfl
    have hnone : taken (init R zero) i = 0 := rfl
    rw [hstart, hnone] at hle
    have hcost : total (ofReader i) as ≤ (3 * R + 2) * shown s := htimed.cost_le_shown (by omega)
    exact hcost.trans (Nat.mul_le_mul_left _ ((visible_le _ _).trans hsent))
  have hreaders : ∑ i, total (ofReader i) as ≤ R * ((3 * R + 2) * total ofSend as) := by
    calc ∑ i, total (ofReader i) as
        ≤ ∑ _i : Fin R, (3 * R + 2) * total ofSend as := Finset.sum_le_sum fun i _ => hreader i
      _ = R * ((3 * R + 2) * total ofSend as) := by
        rw [Finset.sum_const, Finset.card_univ, Fintype.card_fin, Nat.nsmul_eq_mul]
  rw [length_eq_total, Nat.add_mul, Nat.mul_assoc]
  omega

/-- After the lost swap nothing is left to do. -/
theorem bit_mask_drains_lost : ∃ s : State Nat 2, s.received second = [7] ∧
    lostSwap.length ≤ (4 + 2 * (3 * 2 + 2)) * total ofSend lostSwap ∧ (Quiet s ↔ Drained s) :=
  ⟨(run step (init 2 0) lostSwap).get rfl, by decide,
    bit_mask_drains (by decide) (by decide) 0 lostSwap _ rfl⟩

end SmeltConsensus.BroadcastQueue.BitMaskProgress
