import SmeltConsensus.Foundation.Machine
import SmeltConsensus.TwoTier.SharedMemory

/-!
The layout of the shared page in the arithmetic of `size_t`: the position pointers
of the writer and of the readers first, then the slots. The number of slots is a
quotient less one and cut to 16 bits, and nothing checks the number of readers or
the size of a slot.

The positions are kept apart from the slots. This is what the page is like for
as long as each slot is where it should be, which is all that is asked here.
-/

set_option autoImplicit false
set_option relaxedAutoImplicit false

namespace SmeltConsensus.SharedQueue.Layout

open SmeltConsensus.Foundation.Machine
open SmeltConsensus.TwoTier.SharedMemory (SHM_SIZE posPointerSize ShmQueueT)

/-- The difference of two `size_t`. -/
def sizeSub (a b : Nat) : Nat := (a + 2 ^ 64 - b) % 2 ^ 64

/-- `num_slots` with `k` position pointers before the slots. -/
def numSlotsAfter (k slotSize : Nat) : Nat :=
  sizeSub (sizeSub SHM_SIZE (k * posPointerSize) / slotSize) 1 % 2 ^ 16

def setupMemory (q : ShmQueueT) : ShmQueueT :=
  { q with
    numSlots := numSlotsAfter (q.numReaders + 1) q.slotSize
    shm := (q.numReaders + 1) * posPointerSize }

/-- What `num_slots` is set to here is overwritten by `setup_memory`. -/
def initShmWriter (numReaders slotSize : Nat) : ShmQueueT :=
  setupMemory
    { shmId := 0
      numReaders := numReaders
      slotSize := slotSize
      numSlots := numSlotsAfter (numReaders + 2) slotSize
      shm := 0 }

def initShmReader (id numReaders slotSize : Nat) : ShmQueueT :=
  setupMemory
    { shmId := id
      numReaders := numReaders
      slotSize := slotSize
      numSlots := 0
      shm := 0 }

/-- The offset in the page of the slot at `pos`. -/
def slotAt (q : ShmQueueT) (pos : Nat) : Nat := (q.shm + pos * q.slotSize) % 2 ^ 64

/-- The positions in the page. -/
structure Positions where
  writePos : Nat
  readersPos : Nat → Nat

/-- A call of `shm_write`, or of `shm_read` by reader `i`. -/
inductive Step
  | write
  | read (i : Nat)

variable (R slotSize : Nat)

def checkReadersEnd (p : Positions) : Bool :=
  (List.range R).all fun i => p.readersPos i == 0

/-- The slot that a call addresses, if it comes to that. -/
def addressed (p : Positions) : Step → Option Nat
  | .write =>
    if p.writePos = 0 ∧ checkReadersEnd R p = false then none
    else some (slotAt (initShmWriter R slotSize) p.writePos)
  | .read i =>
    if R ≤ i ∨ p.readersPos i = p.writePos then none
    else some (slotAt (initShmReader i R slotSize) (p.readersPos i))

/-- `pos + 1` modulo the number of slots; there is no division by zero. -/
def advance (numSlots pos : Nat) : Option Nat :=
  if numSlots = 0 then none else some ((pos + 1) % 2 ^ 64 % numSlots)

/-- The positions after a call that addresses a slot. -/
def step (p : Positions) (a : Step) : Option Positions :=
  (addressed R slotSize p a).bind fun _ =>
    match a with
    | .write =>
      (advance (initShmWriter R slotSize).numSlots p.writePos).map fun pos =>
        { p with writePos := pos }
    | .read i =>
      (advance (initShmReader i R slotSize).numSlots (p.readersPos i)).map fun pos =>
        { p with readersPos := Function.update p.readersPos i pos }

/-- A slot from `offset` on is behind the position pointers and ends inside of the page. -/
def Inside (offset : Nat) : Prop :=
  (R + 1) * posPointerSize ≤ offset ∧ offset + slotSize ≤ SHM_SIZE

/-- The positions when the writer has set its own one to 0. -/
def start (page : Nat → Nat) : Positions := ⟨0, page⟩

/-- The layout is sound on every run from a page with the reader positions `page`. -/
structure Sound (page : Nat → Nat) : Prop where
  writer_slots : 1 ≤ (initShmWriter R slotSize).numSlots
  reader_slots : ∀ i < R, 1 ≤ (initShmReader i R slotSize).numSlots
  pointers : ∀ k ≤ R, k * posPointerSize + posPointerSize ≤ SHM_SIZE
  slots : ∀ p, Reachable (step R slotSize) (start page) p →
    ∀ a offset, addressed R slotSize p a = some offset → Inside R slotSize offset

variable {R slotSize} {page : Nat → Nat}

/-- The writer and all readers agree on the layout. -/
theorem slotAt_reader (i pos : Nat) :
    slotAt (initShmReader i R slotSize) pos = slotAt (initShmWriter R slotSize) pos := rfl

theorem sizeSub_of_le {a b : Nat} (ha : a < 2 ^ 64) (h : b ≤ a) : sizeSub a b = a - b := by
  unfold sizeSub
  omega

/-- The bytes behind the position pointers. -/
def room (R : Nat) : Nat := SHM_SIZE - (R + 1) * posPointerSize

theorem numSlots_eq (h : (R + 1) * posPointerSize ≤ SHM_SIZE) :
    (initShmWriter R slotSize).numSlots = sizeSub (room R / slotSize) 1 % 2 ^ 16 := by
  have hsize : SHM_SIZE < 2 ^ 64 := by decide
  show numSlotsAfter (R + 1) slotSize = _
  rw [numSlotsAfter, sizeSub_of_le hsize h, room]

/-- With room for a slot, nothing is below 0. -/
theorem setupMemory_eq {q : ShmQueueT} (hs : 1 ≤ q.slotSize)
    (hfit : (q.numReaders + 1) * posPointerSize + q.slotSize ≤ SHM_SIZE) :
    setupMemory q = TwoTier.SharedMemory.setupMemory q := by
  have hsize : SHM_SIZE < 2 ^ 64 := by decide
  have hsub : sizeSub SHM_SIZE ((q.numReaders + 1) * posPointerSize) = room q.numReaders :=
    sizeSub_of_le hsize (by omega)
  have hpos : 1 ≤ room q.numReaders / q.slotSize := by
    refine Nat.div_pos ?_ hs
    rw [room]
    omega
  have hle : room q.numReaders / q.slotSize ≤ SHM_SIZE :=
    Nat.le_trans (Nat.div_le_self _ _) (Nat.sub_le _ _)
  rw [setupMemory, TwoTier.SharedMemory.setupMemory, numSlotsAfter, hsub,
    sizeSub_of_le (Nat.lt_of_le_of_lt hle hsize) hpos, room]

/-- Two slots fit: the number of slots is the quotient less one. -/
theorem numSlots_of_two_fit (hs : 1 ≤ slotSize)
    (hfit : (R + 1) * posPointerSize + 2 * slotSize ≤ SHM_SIZE) :
    (initShmWriter R slotSize).numSlots = room R / slotSize - 1 ∧ 2 ≤ room R / slotSize := by
  have htwo : 2 ≤ room R / slotSize := by
    rw [Nat.le_div_iff_mul_le hs, room]
    omega
  have hle : room R / slotSize ≤ SHM_SIZE :=
    Nat.le_trans (Nat.div_le_self _ _) (Nat.sub_le _ _)
  have hsize : SHM_SIZE = 4096 := rfl
  refine ⟨?_, htwo⟩
  rw [numSlots_eq (by omega), sizeSub_of_le (by omega) (by omega)]
  exact Nat.mod_eq_of_lt (by omega)

/-- A position below the number of slots is that of a slot inside of the page. -/
theorem inside_slotAt (hs : 1 ≤ slotSize)
    (hfit : (R + 1) * posPointerSize + 2 * slotSize ≤ SHM_SIZE) {pos : Nat}
    (hpos : pos < (initShmWriter R slotSize).numSlots) :
    Inside R slotSize (slotAt (initShmWriter R slotSize) pos) := by
  obtain ⟨hnum, -⟩ := numSlots_of_two_fit hs hfit
  have hlast : (pos + 1) * slotSize ≤ room R := by
    refine Nat.le_trans (Nat.mul_le_mul_right _ ?_) (Nat.div_mul_le_self (room R) slotSize)
    omega
  rw [Nat.succ_mul, room] at hlast
  have hsize : SHM_SIZE = 4096 := rfl
  have hoffset : slotAt (initShmWriter R slotSize) pos =
      (R + 1) * posPointerSize + pos * slotSize := Nat.mod_eq_of_lt (by
    show (R + 1) * posPointerSize + pos * slotSize < 2 ^ 64
    omega)
  rw [hoffset]
  exact ⟨Nat.le_add_right _ _, by omega⟩

/-- The writer is below the number of slots; a reader is, too, unless it has not moved yet. -/
structure InRing (R slotSize : Nat) (page : Nat → Nat) (p : Positions) : Prop where
  writer : p.writePos < (initShmWriter R slotSize).numSlots
  readers : ∀ i < R, p.readersPos i < (initShmWriter R slotSize).numSlots ∨
    p.readersPos i = page i

theorem advance_lt {numSlots pos pos' : Nat} (h : advance numSlots pos = some pos') :
    pos' < numSlots := by
  unfold advance at h
  split at h
  · cases h
  · rename_i hne
    obtain rfl := Option.some.inj h
    exact Nat.mod_lt _ (Nat.pos_of_ne_zero hne)

theorem inRing_step (p : Positions) (a : Step) (p' : Positions) (h : InRing R slotSize page p)
    (hstep : step R slotSize p a = some p') : InRing R slotSize page p' := by
  obtain ⟨offset, -, hmove⟩ := Option.bind_eq_some_iff.mp hstep
  cases a with
  | write =>
    obtain ⟨pos, hpos, rfl⟩ := Option.map_eq_some_iff.mp hmove
    exact ⟨advance_lt hpos, h.readers⟩
  | read i =>
    obtain ⟨pos, hpos, rfl⟩ := Option.map_eq_some_iff.mp hmove
    refine ⟨h.writer, fun j hj => ?_⟩
    rcases eq_or_ne j i with rfl | hne
    · left
      dsimp only
      rw [Function.update_self]
      exact advance_lt hpos
    · dsimp only
      rw [Function.update_of_ne hne]
      exact h.readers j hj

/-- What a call addresses is the slot of a position. -/
theorem addressed_eq {p : Positions} {a : Step} {offset : Nat}
    (h : addressed R slotSize p a = some offset) :
    offset = slotAt (initShmWriter R slotSize) p.writePos ∨
      ∃ i < R, offset = slotAt (initShmWriter R slotSize) (p.readersPos i) := by
  cases a with
  | write =>
    rw [addressed] at h
    split at h
    · cases h
    · exact Or.inl (Option.some.inj h).symm
  | read i =>
    rw [addressed] at h
    split at h
    · cases h
    · rename_i hcall
      rw [not_or] at hcall
      exact Or.inr ⟨i, Nat.lt_of_not_le hcall.1, (Option.some.inj h).symm⟩

theorem addressed_read {p : Positions} {i : Nat} (hi : i < R) (h : p.readersPos i ≠ p.writePos) :
    addressed R slotSize p (.read i) =
      some (slotAt (initShmWriter R slotSize) (p.readersPos i)) := by
  have hcall : ¬ (R ≤ i ∨ p.readersPos i = p.writePos) :=
    not_or.mpr ⟨Nat.not_le.mpr hi, h⟩
  rw [addressed, if_neg hcall, slotAt_reader]

theorem addressed_write {p : Positions} (h : ∀ i < R, p.readersPos i = 0) :
    addressed R slotSize p .write = some (slotAt (initShmWriter R slotSize) p.writePos) := by
  have hend : checkReadersEnd R p = true := by
    rw [checkReadersEnd, List.all_eq_true]
    exact fun i hi => beq_iff_eq.mpr (h i (List.mem_range.mp hi))
  have hcall : ¬ (p.writePos = 0 ∧ checkReadersEnd R p = false) := by
    rw [hend]
    exact fun h => Bool.noConfusion h.2
  rw [addressed, if_neg hcall]

/-- Some call addresses a slot at once. -/
theorem first_addressed (R slotSize : Nat) (page : Nat → Nat) :
    ∃ a offset, addressed R slotSize (start page) a = some offset := by
  by_cases hzero : ∀ i < R, page i = 0
  · exact ⟨.write, _, addressed_write hzero⟩
  · simp only [not_forall] at hzero
    obtain ⟨i, hi, hne⟩ := hzero
    exact ⟨.read i, _, addressed_read hi hne⟩

theorem two_fit_of_sound (hs : 1 ≤ slotSize) (h : Sound R slotSize page) :
    (R + 1) * posPointerSize + 2 * slotSize ≤ SHM_SIZE := by
  have hpointers := h.pointers R (Nat.le_refl R)
  rw [← Nat.succ_mul] at hpointers
  obtain ⟨a, offset, haddr⟩ := first_addressed R slotSize page
  have hinside := h.slots _ (Reachable.refl _) a offset haddr
  have hroom : slotSize ≤ room R := by
    have hlow := hinside.1
    have hhigh := hinside.2
    rw [room]
    omega
  have hslots := h.writer_slots
  rw [numSlots_eq hpointers] at hslots
  have hpos : 1 ≤ room R / slotSize := Nat.div_pos hroom hs
  -- a quotient of one leaves no slot
  have htwo : 2 ≤ room R / slotSize := by
    by_contra hone
    have hq : room R / slotSize = 1 := by omega
    rw [hq] at hslots
    exact absurd hslots (by decide)
  rw [Nat.le_div_iff_mul_le hs, room] at htwo
  omega

/-- The layout is sound exactly when two slots fit behind the position pointers, and each
reader starts at a slot inside of the page. -/
theorem sound_iff (hs : 1 ≤ slotSize) (page : Nat → Nat) :
    Sound R slotSize page ↔
      (R + 1) * posPointerSize + 2 * slotSize ≤ SHM_SIZE ∧
        ∀ i < R, Inside R slotSize (slotAt (initShmWriter R slotSize) (page i)) := by
  constructor
  · intro h
    have hfit := two_fit_of_sound hs h
    obtain ⟨hnum, htwo⟩ := numSlots_of_two_fit hs hfit
    refine ⟨hfit, fun i hi => ?_⟩
    rcases Nat.eq_zero_or_pos (page i) with hzero | hpos
    · rw [hzero]
      exact inside_slotAt hs hfit (by omega)
    · exact h.slots _ (Reachable.refl _) (.read i) _ (addressed_read hi (Nat.ne_of_gt hpos))
  · rintro ⟨hfit, hpage⟩
    obtain ⟨hnum, htwo⟩ := numSlots_of_two_fit hs hfit
    have hslots : 1 ≤ (initShmWriter R slotSize).numSlots := by omega
    refine ⟨hslots, fun i _ => hslots, fun k hk => ?_, fun p hp a offset haddr => ?_⟩
    · have hle : (k + 1) * posPointerSize ≤ (R + 1) * posPointerSize :=
        Nat.mul_le_mul_right _ (Nat.succ_le_succ hk)
      rw [Nat.succ_mul] at hle
      omega
    · have hring : InRing R slotSize page p :=
        hp.invariant ⟨hslots, fun i _ => Or.inr rfl⟩ inRing_step
      rcases addressed_eq haddr with rfl | ⟨i, hi, rfl⟩
      · exact inside_slotAt hs hfit hring.writer
      · rcases hring.readers i hi with hlt | hsame
        · exact inside_slotAt hs hfit hlt
        · rw [hsame]
          exact hpage i hi

/-- On the cleared page of `com_layer_core_init`. -/
theorem sound_cleared_iff (hs : 1 ≤ slotSize) :
    Sound R slotSize (fun _ => 0) ↔ (R + 1) * posPointerSize + 2 * slotSize ≤ SHM_SIZE := by
  rw [sound_iff hs]
  refine ⟨fun h => h.1, fun hfit => ⟨hfit, fun i _ => inside_slotAt hs hfit ?_⟩⟩
  obtain ⟨hnum, htwo⟩ := numSlots_of_two_fit hs hfit
  omega

/-- Three readers of commands of three words. -/
theorem sound_three_readers : Sound 3 24 (fun _ => 0) :=
  (sound_iff (by decide) _).mpr ⟨by decide, fun _ _ => ⟨by decide, by decide⟩⟩

/-- The first slot behind 64 position pointers starts where the page ends. -/
theorem not_sound_of_63_readers : ¬ Sound 63 24 (fun _ => 0) := by
  intro h
  have hwrite : addressed 63 24 (start fun _ => 0) .write = some 4096 := by decide
  exact absurd (h.slots _ (Reachable.refl _) .write 4096 hwrite).2 (by decide)

end SmeltConsensus.SharedQueue.Layout
