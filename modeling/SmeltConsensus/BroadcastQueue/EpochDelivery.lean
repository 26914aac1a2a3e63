import SmeltConsensus.BroadcastQueue.Epoch
import SmeltConsensus.Foundation.Machine
import SmeltConsensus.Foundation.RingLog

/-!
What the epoch-bit queue delivers. Between the flip of an epoch and the reset of the
position the pair reads as a place a whole lap away. A check that succeeds on the
strength of it loses or repeats a lap; in all other runs the queue delivers.
-/

set_option autoImplicit false
set_option relaxedAutoImplicit false

namespace SmeltConsensus.BroadcastQueue.EpochDelivery

open SmeltConsensus.Foundation
open SmeltConsensus.Foundation.Machine (Guarded Reachable run)
open SmeltConsensus.Foundation.RingLog
open SmeltConsensus.BroadcastQueue.Shm (slots slots_eq)
open SmeltConsensus.BroadcastQueue.Epoch

variable {α : Type} {R : Nat}

/-- The position of a party that has handled `k` messages. -/
def place (n k : Nat) : PosPointer := ⟨k % n, parity n k⟩

/-- The writer's position after `k` messages. -/
def WriterAt (n k : Nat) (p : PosPointer) : WriterPc α → Prop
  | .idle => p = place n k
  | .check _ _ => p = place n k
  | .move => 0 < k ∧ p = place n (k - 1)
  | .reset => k % n = 0 ∧ p = ⟨n - 1, parity n k⟩

/-- A reader's position after `k` messages. -/
def ReaderAt (n k : Nat) (p : PosPointer) : ReaderPc → Prop
  | .idle => p = place n k
  | .read => p = place n k
  | .increment => 0 < k ∧ p = place n (k - 1)
  | .flip => 0 < k ∧ k % n = 0 ∧ p = ⟨n, parity n (k - 1)⟩
  | .reset => k % n = 0 ∧ p = ⟨n, parity n k⟩

/-- How many of `k` written messages the writer's position counts. -/
def visible : WriterPc α → Nat → Nat
  | .move, k => k - 1
  | _, k => k

/-- How many of `k` read messages a reader's position counts. -/
def counted : ReaderPc → Nat → Nat
  | .increment, k => k - 1
  | _, k => k

/-- How many messages a reader has read or has found to be there. -/
def claimed : ReaderPc → Nat → Nat
  | .read, k => k + 1
  | _, k => k

/-- What holds along a run without a misleading check. -/
structure Invariant (s : State α R) : Prop where
  writer : WriterAt (slots R) s.sent.length s.shm.writePos s.writer
  readers : ∀ i, ReaderAt (slots R) (s.received i).length (s.shm.readersPos i) (s.readers i)
  in_order : ∀ i, s.received i <+: s.sent
  seen : ∀ i, claimed (s.readers i) (s.received i).length ≤ visible s.writer s.sent.length
  room : ∀ i, s.sent.length ≤ counted (s.readers i) (s.received i).length + slots R
  checked : ∀ msg k, s.writer = .check msg k → ∀ i : Fin R, i < k →
    s.sent.length < counted (s.readers i) (s.received i).length + slots R
  holds : Holds (slots R) s.shm.data s.sent

/-- No check succeeds by mistaking a party between its flip and its reset: neither the
writer's check of such a reader nor, by equal epochs, a reader's check of such a writer. -/
def Clear (s : State α R) : Step α R → Prop
  | .send _ => True
  | .writer => ∀ msg k, s.writer = .check msg k → ∀ h : k < R,
      s.readers ⟨k, h⟩ = .reset → canWrite s.shm ⟨k, h⟩ = false
  | .reader i => s.readers i = .idle → s.writer = .reset →
      s.shm.writePos.epoch = (s.shm.readersPos i).epoch → canRead s.shm i = false

instance (pc : WriterPc α) : Decidable (pc = .reset) :=
  match pc with
  | .reset => isTrue rfl
  | .idle | .check _ _ | .move => isFalse nofun

instance (s : State α R) (a : Step α R) : Decidable (Clear s a) :=
  match a with
  | .send _ => isTrue trivial
  | .writer =>
    match hpc : s.writer with
    | .check _ k => decidable_of_iff (∀ h : k < R, s.readers ⟨k, h⟩ = .reset →
        canWrite s.shm ⟨k, h⟩ = false)
      ⟨fun h msg k' heq => by obtain ⟨-, rfl⟩ := WriterPc.check.inj (hpc.symm.trans heq); exact h,
        fun h => h _ k hpc⟩
    | .idle | .move | .reset => isTrue fun _ _ heq => nomatch hpc.symm.trans heq
  | .reader i => inferInstanceAs (Decidable (s.readers i = .idle → s.writer = .reset →
      s.shm.writePos.epoch = (s.shm.readersPos i).epoch → canRead s.shm i = false))

theorem visible_le (pc : WriterPc α) (k : Nat) : visible pc k ≤ k := by
  cases pc <;> simp only [visible] <;> omega

theorem flip_parity {n k : Nat} (hn : 0 < n) (hlast : k % n + 1 = n) :
    flipEpoch (parity n k) = parity n (k + 1) := by
  obtain ⟨-, hdiv⟩ := last_of_lap hn hlast
  unfold flipEpoch parity
  rw [hdiv]
  split <;> omega

theorem place_succ {n k : Nat} (hlt : k % n + 1 < n) :
    place n (k + 1) = ⟨k % n + 1, parity n k⟩ := by
  obtain ⟨hmod, hdiv⟩ := within_lap hlt
  rw [place, parity, hmod, hdiv, parity]

theorem invariant_init (R : Nat) (zero : α) : Invariant (init R zero) := by
  have hplace : (⟨0, 0⟩ : PosPointer) = place (slots R) 0 := by
    rw [place, parity, Nat.zero_mod, Nat.zero_div]
  constructor
  · exact hplace
  · exact fun _ => hplace
  · exact fun _ => List.nil_prefix
  · exact fun _ => Nat.le_refl _
  · exact fun _ => Nat.zero_le _
  · intro msg k hk
    cases hk
  · exact holds_nil _

section Checks

variable {s : State α R}

theorem canRead_iff_behind {i : Fin R} {w : Nat} (hR : R ≤ 61)
    (hr : s.shm.readersPos i = place (slots R) (s.received i).length)
    (hw : s.shm.writePos = place (slots R) w) (hle : (s.received i).length ≤ w)
    (hlap : w ≤ (s.received i).length + slots R) :
    canRead s.shm i = true ↔ (s.received i).length < w := by
  have hslots := slots_eq R
  rw [canRead, hr, hw, decide_eq_true_eq]
  exact behind_iff (by omega) hle hlap

/-- A reader that may read has a message to read. -/
theorem canRead_sound (hR : R ≤ 61) (h : Invariant s) {i : Fin R} (hidle : s.readers i = .idle)
    (hclear : Clear s (.reader i)) (hcan : canRead s.shm i = true) :
    (s.received i).length < visible s.writer s.sent.length := by
  have hslots := slots_eq R
  have hreader := h.readers i
  have hseen := h.seen i
  have hroom := h.room i
  have hwriter := h.writer
  rw [hidle] at hreader hseen hroom
  cases hpc : s.writer with
  | idle =>
    rw [hpc] at hwriter hseen
    exact (canRead_iff_behind hR hreader hwriter hseen hroom).mp hcan
  | check msg k =>
    rw [hpc] at hwriter hseen
    exact (canRead_iff_behind hR hreader hwriter hseen hroom).mp hcan
  | move =>
    rw [hpc] at hwriter hseen
    have hsent := hwriter.1
    have hlap : s.sent.length - 1 ≤ (s.received i).length + slots R := by
      have hroom : s.sent.length ≤ (s.received i).length + slots R := hroom
      omega
    exact (canRead_iff_behind hR hreader hwriter.2 hseen hlap).mp hcan
  | reset =>
    rw [hpc] at hwriter hseen
    have hne : ¬ s.shm.writePos.epoch = (s.shm.readersPos i).epoch := by
      intro heq
      rw [hclear hidle hpc heq] at hcan
      cases hcan
    -- the epochs differ, so the reader does not have the last lap yet
    have hneq : (s.received i).length ≠ s.sent.length := by
      intro heq
      apply hne
      have hreader : s.shm.readersPos i = _ := hreader
      rw [hwriter.2, hreader, heq]
      rfl
    exact Nat.lt_of_le_of_ne hseen hneq

/-- A reader that has a message to read may read, but between the flip and the reset. -/
theorem canRead_complete (hR : R ≤ 61) (h : Invariant s) {i : Fin R} (hidle : s.readers i = .idle)
    (hreset : s.writer ≠ .reset)
    (hlt : (s.received i).length < visible s.writer s.sent.length) : canRead s.shm i = true := by
  have hreader := h.readers i
  have hroom := h.room i
  have hwriter := h.writer
  rw [hidle] at hreader hroom
  have hroom : s.sent.length ≤ (s.received i).length + slots R := hroom
  cases hpc : s.writer with
  | idle =>
    rw [hpc] at hwriter hlt
    exact (canRead_iff_behind hR hreader hwriter hlt.le hroom).mpr hlt
  | check msg k =>
    rw [hpc] at hwriter hlt
    exact (canRead_iff_behind hR hreader hwriter hlt.le hroom).mpr hlt
  | move =>
    rw [hpc] at hwriter hlt
    exact (canRead_iff_behind hR hreader hwriter.2 hlt.le (by omega)).mpr hlt
  | reset => exact absurd hpc hreset

theorem canWrite_iff_room {i : Fin R} {r : Nat} (hR : R ≤ 61)
    (hr : s.shm.readersPos i = place (slots R) r)
    (hw : s.shm.writePos = place (slots R) s.sent.length) (hle : r ≤ s.sent.length)
    (hlap : s.sent.length ≤ r + slots R) :
    canWrite s.shm i = true ↔ s.sent.length < r + slots R := by
  have hslots := slots_eq R
  rw [canWrite, hr, hw, decide_eq_true_eq]
  exact room_iff (by omega) hle hlap

/-- The writer may write only where there is room. -/
theorem canWrite_sound (hR : R ≤ 61) (h : Invariant s) {i : Fin R}
    (hw : s.shm.writePos = place (slots R) s.sent.length) (hreset : s.readers i ≠ .reset)
    (hcan : canWrite s.shm i = true) :
    s.sent.length < counted (s.readers i) (s.received i).length + slots R := by
  have hslots := slots_eq R
  have hreader := h.readers i
  have hroom := h.room i
  have hle := (h.in_order i).length_le
  cases hpc : s.readers i with
  | idle =>
    rw [hpc] at hreader hroom
    exact (canWrite_iff_room hR hreader hw hle hroom).mp hcan
  | read =>
    rw [hpc] at hreader hroom
    exact (canWrite_iff_room hR hreader hw hle hroom).mp hcan
  | increment =>
    rw [hpc] at hreader hroom
    exact (canWrite_iff_room hR hreader.2 hw (by omega) hroom).mp hcan
  | flip =>
    rw [hpc] at hreader hroom
    obtain ⟨hpos, hend, hp⟩ := hreader
    have hroom : s.sent.length ≤ (s.received i).length + slots R := hroom
    apply Nat.lt_of_le_of_ne hroom
    -- at a distance of two laps the epochs agree
    intro hfull
    rw [canWrite, hw, hp, decide_eq_true_eq] at hcan
    have hwlt := Nat.mod_lt s.sent.length (show 0 < slots R by omega)
    rcases hcan with ⟨hle, -⟩ | ⟨-, hne⟩
    · have hle : slots R ≤ s.sent.length % slots R := hle
      omega
    · apply hne
      show parity _ _ = parity _ _
      rw [hfull]
      exact parity_pred (by omega) hpos hend
  | reset => exact absurd hpc hreset

end Checks

section Steps

variable {s s' : State α R}

/-- A step of a reader that keeps its own part of the invariant. -/
theorem Invariant.setReader (h : Invariant s) (i : Fin R) (p : PosPointer) (pc : ReaderPc)
    (read : List α) (hat : ReaderAt (slots R) read.length p pc) (horder : read <+: s.sent)
    (hclaim : claimed pc read.length ≤ visible s.writer s.sent.length)
    (hcount : counted (s.readers i) (s.received i).length ≤ counted pc read.length) :
    Invariant { s with
      shm := { s.shm with readersPos := Function.update s.shm.readersPos i p }
      readers := Function.update s.readers i pc
      received := Function.update s.received i read } := by
  have hgrow : ∀ j, counted (s.readers j) (s.received j).length ≤
      counted (Function.update s.readers i pc j) (Function.update s.received i read j).length := by
    intro j
    by_cases hj : j = i
    · subst hj
      simp only [Function.update_self]
      exact hcount
    · simp only [Function.update_of_ne hj]
      exact Nat.le_refl _
  constructor
  · exact h.writer
  · intro j
    by_cases hj : j = i
    · subst hj
      simp only [Function.update_self]
      exact hat
    · simp only [Function.update_of_ne hj]
      exact h.readers j
  · intro j
    by_cases hj : j = i
    · subst hj
      simp only [Function.update_self]
      exact horder
    · simp only [Function.update_of_ne hj]
      exact h.in_order j
  · intro j
    by_cases hj : j = i
    · subst hj
      simp only [Function.update_self]
      exact hclaim
    · simp only [Function.update_of_ne hj]
      exact h.seen j
  · exact fun j => (h.room j).trans (Nat.add_le_add_right (hgrow j) _)
  · exact fun msg k hk j hj => (h.checked msg k hk j hj).trans_le (Nat.add_le_add_right (hgrow j) _)
  · exact h.holds

/-- A reader that stores its position and reads nothing. -/
theorem Invariant.storeReader (h : Invariant s) (i : Fin R) (p : PosPointer) (pc : ReaderPc)
    (hat : ReaderAt (slots R) (s.received i).length p pc)
    (hclaim : claimed pc (s.received i).length ≤ visible s.writer s.sent.length)
    (hcount : counted (s.readers i) (s.received i).length ≤ counted pc (s.received i).length) :
    Invariant (s.storeReader i p pc) := by
  have hset := h.setReader i p pc (s.received i) hat (h.in_order i) hclaim hcount
  rw [Function.update_eq_self] at hset
  exact hset

/-- The message at the reader's position is the next one. -/
theorem Invariant.copy (h : Invariant s) {i : Fin R} (hpc : s.readers i = .read) :
    Invariant { s with
      readers := Function.update s.readers i .increment
      received := Function.update s.received i
        (s.received i ++ [s.shm.data (s.shm.readersPos i).pos]) } := by
  have hat := h.readers i
  have hseen := h.seen i
  have hroom := h.room i
  rw [hpc] at hat hseen hroom
  have hmore : (s.received i).length < s.sent.length := hseen.trans (visible_le _ _)
  have hmsg := List.getElem?_eq_getElem hmore
  have hslot : s.shm.data (s.shm.readersPos i).pos = s.sent[(s.received i).length] := by
    rw [show s.shm.readersPos i = _ from hat]
    exact h.holds _ _ hmsg hroom
  have hset := h.setReader i (s.shm.readersPos i) .increment
    (s.received i ++ [s.shm.data (s.shm.readersPos i).pos]) ?_ ?_ ?_ ?_
  · rw [Function.update_eq_self] at hset
    exact hset
  · rw [List.length_append, List.length_singleton]
    exact ⟨Nat.succ_pos _, hat⟩
  · apply prefix_next (h.in_order i)
    rw [hslot]
    exact hmsg
  · rw [List.length_append, List.length_singleton]
    exact hseen
  · rw [hpc, List.length_append, List.length_singleton]
    exact Nat.le_refl _

/-- The position moves on, within the lap or to its end. -/
theorem Invariant.increment (hpos : 0 < slots R) (h : Invariant s) {i : Fin R}
    (hpc : s.readers i = .increment) : Invariant (s.storeReader i
      { s.shm.readersPos i with pos := (s.shm.readersPos i).pos + 1 }
      (if (s.shm.readersPos i).pos + 1 = slots R then .flip else .idle)) := by
  have hat := h.readers i
  have hseen := h.seen i
  rw [hpc] at hat hseen
  obtain ⟨hone, hp⟩ := hat
  obtain ⟨k, hk⟩ := Nat.exists_eq_succ_of_ne_zero (Nat.ne_of_gt hone)
  rw [hk, Nat.succ_sub_one] at hp
  have hlt := Nat.mod_lt k hpos
  rw [hp]
  apply h.storeReader
  · rw [hk]
    show ReaderAt (slots R) (k + 1) ⟨k % slots R + 1, parity (slots R) k⟩
      (if k % slots R + 1 = slots R then .flip else .idle)
    split
    · rename_i hlast
      obtain ⟨hmod, -⟩ := last_of_lap hpos hlast
      exact ⟨Nat.succ_pos _, hmod, by rw [hlast]; rfl⟩
    · exact (place_succ (by omega)).symm
  · split <;> exact hseen
  · rw [hpc]
    split <;> exact Nat.sub_le _ _

/-- At the end of a lap the epoch changes and then the position. -/
theorem Invariant.flip (hpos : 0 < slots R) (h : Invariant s) {i : Fin R}
    (hpc : s.readers i = .flip) : Invariant (s.storeReader i
      { s.shm.readersPos i with epoch := flipEpoch (s.shm.readersPos i).epoch } .reset) := by
  have hat := h.readers i
  have hseen := h.seen i
  rw [hpc] at hat hseen
  obtain ⟨hone, hend, hp⟩ := hat
  rw [hp]
  apply h.storeReader i _ .reset _ hseen
  · rw [hpc]
    exact Nat.le_refl _
  · obtain ⟨k, hk⟩ := Nat.exists_eq_succ_of_ne_zero (Nat.ne_of_gt hone)
    rw [hk] at hend ⊢
    dsimp only
    rw [Nat.succ_sub_one, flip_parity hpos (last_of_mod_succ hpos hend)]
    exact ⟨hend, rfl⟩

theorem Invariant.reset (h : Invariant s) {i : Fin R} (hpc : s.readers i = .reset) :
    Invariant (s.storeReader i { s.shm.readersPos i with pos := 0 } .idle) := by
  have hat := h.readers i
  have hseen := h.seen i
  rw [hpc] at hat hseen
  obtain ⟨hend, hp⟩ := hat
  rw [hp]
  apply h.storeReader i _ .idle _ hseen
  · rw [hpc]
    exact Nat.le_refl _
  · show _ = place _ _
    rw [place, hend]

theorem Invariant.reader (hR : R ≤ 61) (h : Invariant s) {i : Fin R}
    (hclear : Clear s (.reader i)) (hstep : readerStep s i = some s') : Invariant s' := by
  have hslots := slots_eq R
  have hpos : 0 < slots R := by omega
  unfold readerStep at hstep
  cases hpc : s.readers i with
  | idle =>
    simp only [hpc] at hstep
    split at hstep
    · rename_i hcan
      obtain rfl := Option.some.inj hstep
      have hat := h.readers i
      rw [hpc] at hat
      have hlt := canRead_sound hR h hpc hclear hcan
      have hset := h.setReader i (s.shm.readersPos i) .read (s.received i) hat (h.in_order i) hlt
        (by rw [hpc]; exact Nat.le_refl _)
      rw [Function.update_eq_self, Function.update_eq_self] at hset
      exact hset
    · cases hstep
  | read =>
    simp only [hpc] at hstep
    obtain rfl := Option.some.inj hstep
    exact h.copy hpc
  | increment =>
    simp only [hpc] at hstep
    obtain rfl := Option.some.inj hstep
    exact h.increment hpos hpc
  | flip =>
    simp only [hpc] at hstep
    obtain rfl := Option.some.inj hstep
    exact h.flip hpos hpc
  | reset =>
    simp only [hpc] at hstep
    obtain rfl := Option.some.inj hstep
    exact h.reset hpc

/-- The memory and the program of the writer after a step that writes nothing. -/
theorem Invariant.setWriter (h : Invariant s) (p : PosPointer) (pc : WriterPc α)
    (hat : WriterAt (slots R) s.sent.length p pc)
    (hvisible : visible s.writer s.sent.length ≤ visible pc s.sent.length)
    (hchecked : ∀ msg k, pc = .check msg k → ∀ i : Fin R, i < k →
      s.sent.length < counted (s.readers i) (s.received i).length + slots R) :
    Invariant (s.storeWriter p pc) where
  writer := hat
  readers := h.readers
  in_order := h.in_order
  seen i := (h.seen i).trans hvisible
  room := h.room
  checked := hchecked
  holds := h.holds

/-- The slot write, with room in the ring of every reader. -/
theorem Invariant.write (h : Invariant s) {msg : α} {k : Nat} (hpc : s.writer = .check msg k)
    (hk : R ≤ k) : Invariant { s with
      shm := { s.shm with data := Function.update s.shm.data s.shm.writePos.pos msg }
      writer := .move
      sent := s.sent ++ [msg] } := by
  have hat := h.writer
  rw [hpc] at hat
  have hat : s.shm.writePos = place (slots R) s.sent.length := hat
  have hlen : (s.sent ++ [msg]).length = s.sent.length + 1 := List.length_append
  constructor
  · rw [hlen]
    exact ⟨Nat.succ_pos _, hat⟩
  · exact h.readers
  · exact fun i => (h.in_order i).trans (List.prefix_append _ _)
  · intro i
    have hseen := h.seen i
    rw [hpc] at hseen
    rw [hlen]
    exact hseen
  · intro i
    rw [hlen]
    exact h.checked msg k hpc i (i.isLt.trans_le hk)
  · intro msg' k' hk'
    cases hk'
  · have hpush := h.holds.push msg
    rw [hat]
    exact hpush

theorem Invariant.writerStep (hR : R ≤ 61) (h : Invariant s) (hclear : Clear s .writer)
    (hstep : Epoch.writerStep s = some s') : Invariant s' := by
  have hslots := slots_eq R
  have hpos : 0 < slots R := by omega
  have hat := h.writer
  unfold Epoch.writerStep at hstep
  cases hpc : s.writer with
  | idle => simp only [hpc, reduceCtorEq] at hstep
  | check msg k =>
    simp only [hpc] at hstep
    rw [hpc] at hat
    split at hstep
    · rename_i hk
      split at hstep
      · rename_i hcan
        obtain rfl := Option.some.inj hstep
        have hreset : s.readers ⟨k, hk⟩ ≠ .reset := by
          intro heq
          rw [hclear msg k hpc hk heq] at hcan
          cases hcan
        have hroom := canWrite_sound hR h hat hreset hcan
        apply h.setWriter s.shm.writePos (.check msg (k + 1)) hat (by rw [hpc]; exact Nat.le_refl _)
        intro msg' k' heq i hi
        obtain ⟨-, rfl⟩ := WriterPc.check.inj heq
        rcases Nat.lt_succ_iff_lt_or_eq.mp hi with hlt | heq
        · exact h.checked msg k hpc i hlt
        · obtain rfl : i = ⟨k, hk⟩ := Fin.ext heq
          exact hroom
      · cases hstep
    · rename_i hk
      obtain rfl := Option.some.inj hstep
      exact h.write hpc (Nat.le_of_not_lt hk)
  | move =>
    simp only [hpc] at hstep
    rw [hpc] at hat
    obtain ⟨hone, hp⟩ := hat
    obtain ⟨k, hk⟩ := Nat.exists_eq_succ_of_ne_zero (Nat.ne_of_gt hone)
    rw [hk, Nat.succ_sub_one] at hp
    have hlt := Nat.mod_lt k hpos
    rw [hp] at hstep
    have hvisible : visible s.writer s.sent.length ≤ s.sent.length := visible_le _ _
    split at hstep
    · rename_i hlast
      have hlast : k % slots R + 1 = slots R := hlast
      obtain rfl := Option.some.inj hstep
      obtain ⟨hmod, -⟩ := last_of_lap hpos hlast
      apply h.setWriter _ .reset _ hvisible
      · intro msg' k' heq
        cases heq
      · rw [hk]
        refine ⟨hmod, ?_⟩
        show (⟨k % slots R, flipEpoch (parity (slots R) k)⟩ : PosPointer) = _
        rw [flip_parity hpos hlast]
        congr 1
        omega
    · rename_i hnot
      have hnot : ¬ k % slots R + 1 = slots R := hnot
      obtain rfl := Option.some.inj hstep
      apply h.setWriter _ .idle _ hvisible
      · intro msg' k' heq
        cases heq
      · rw [hk]
        exact (place_succ (by omega)).symm
  | reset =>
    simp only [hpc] at hstep
    rw [hpc] at hat
    obtain ⟨hend, hp⟩ := hat
    obtain rfl := Option.some.inj hstep
    apply h.setWriter _ .idle _ (by rw [hpc]; exact Nat.le_refl _)
    · intro msg' k' heq
      cases heq
    · rw [hp]
      show _ = place _ _
      rw [place, hend]

theorem invariant_step (hR : R ≤ 61) (h : Invariant s) {a : Step α R} (hclear : Clear s a)
    (hstep : step s a = some s') : Invariant s' := by
  cases a with
  | send msg =>
    have hat := h.writer
    unfold step at hstep
    cases hpc : s.writer with
    | idle =>
      simp only [hpc] at hstep
      obtain rfl := Option.some.inj hstep
      rw [hpc] at hat
      apply h.setWriter s.shm.writePos (.check msg 0) hat (by rw [hpc]; exact Nat.le_refl _)
      intro msg' k' heq i hi
      obtain ⟨-, rfl⟩ := WriterPc.check.inj heq
      cases hi
    | check msg' k => simp only [hpc, reduceCtorEq] at hstep
    | move => simp only [hpc, reduceCtorEq] at hstep
    | reset => simp only [hpc, reduceCtorEq] at hstep
  | writer => exact h.writerStep hR hclear hstep
  | reader i => exact h.reader hR hclear hstep

end Steps

/-- All operations are completed. -/
def Completed (s : State α R) : Prop := s.writer = .idle ∧ ∀ i, s.readers i = .idle

/-- The epoch-bit queue delivers every message to every reader, once and in order. -/
structure Delivered (s : State α R) : Prop where
  in_order : ∀ i, s.received i <+: s.sent
  /-- A reader may read if and only if a message is left for it. -/
  readable : Completed s → ∀ i,
    (canRead s.shm i = true ↔ (s.received i).length < s.sent.length)
  progress : Completed s → (∀ i, canWrite s.shm i = true) ∨ ∃ i, canRead s.shm i = true

theorem Invariant.delivered {s : State α R} (hR : R ≤ 61) (h : Invariant s) : Delivered s := by
  have hslots := slots_eq R
  have hreadable : Completed s → ∀ i,
      (canRead s.shm i = true ↔ (s.received i).length < s.sent.length) := by
    rintro ⟨hwriter, hreaders⟩ i
    have hvisible : visible s.writer s.sent.length = s.sent.length := by
      rw [hwriter]
      rfl
    constructor
    · intro hcan
      rw [← hvisible]
      apply canRead_sound hR h (hreaders i) _ hcan
      intro _ hreset
      rw [hwriter] at hreset
      cases hreset
    · intro hlt
      apply canRead_complete hR h (hreaders i)
      · rw [hwriter]
        exact fun heq => by cases heq
      · rwa [hvisible]
  refine ⟨h.in_order, hreadable, fun hdone => ?_⟩
  by_cases hall : ∀ i, canWrite s.shm i = true
  · exact .inl hall
  · -- the ring of some reader is full, so it has something to read
    obtain ⟨i, hi⟩ := not_forall.mp hall
    right
    refine ⟨i, (hreadable hdone i).mpr ?_⟩
    obtain ⟨hwriter, hreaders⟩ := hdone
    have hat := h.writer
    have hreader := h.readers i
    have hroom := h.room i
    rw [hwriter] at hat
    rw [hreaders i] at hreader hroom
    rw [canWrite_iff_room hR hreader hat (h.in_order i).length_le hroom] at hi
    omega

/-- In every run in which no check succeeds by mistaking a party between its flip and its
reset, the queue delivers. -/
theorem epoch_delivered (hR : R ≤ 61) (zero : α) (as : List (Step α R)) (s : State α R)
    (hclear : Guarded step Clear (init R zero) as) (hrun : run step (init R zero) as = some s) :
    Delivered s := by
  apply Invariant.delivered hR
  apply Machine.guarded_invariant _ (invariant_init R zero) hclear hrun
  intro s a s' hI hclear hstep
  exact invariant_step hR hI hclear hstep

/-- A message through the only slot: the writer checks every reader, writes and begins the
next lap. -/
private def sendLap (msg : Nat) : List (Step Nat 61) := .send msg :: List.replicate 64 .writer

/-- Every reader reads it and begins the next lap. -/
private def readLap : List (Step Nat 61) :=
  (List.finRange 61).flatMap fun i => List.replicate 5 (.reader i)

private def twoLaps : List (Step Nat 61) := sendLap 7 ++ readLap ++ sendLap 8 ++ readLap

/-- Every message is a lap of its own, and the epochs change with it. -/
theorem epoch_delivered_laps : ∃ s : State Nat 61, s.sent = [7, 8] ∧
    (∀ i, s.received i = [7, 8]) ∧ Delivered s := by
  have hend : ((run step (init 61 0) twoLaps).map fun s =>
      (s.sent, decide (∀ i, s.received i = [7, 8]))) = some ([7, 8], true) := by decide +kernel
  obtain ⟨s, hrun, hs⟩ := Option.map_eq_some_iff.mp hend
  obtain ⟨hsent, hreceived⟩ := Prod.mk.inj hs
  exact ⟨s, hsent, of_decide_eq_true hreceived,
    epoch_delivered (by decide) 0 twoLaps s (by decide +kernel) hrun⟩

private def sendAlone (msg : Nat) : List (Step Nat 1) := [.send msg, .writer, .writer, .writer]

private def readAlone : List (Step Nat 1) := [.reader 0, .reader 0, .reader 0]

/-- The reader reads a lap and stops before the flip of its epoch; the writer fills the next
lap and writes once more while the reader is between its flip and its reset. -/
private def overtaking : List (Step Nat 1) :=
  (List.range 61).flatMap sendAlone ++ [.writer] ++
  (List.range 61).flatMap (fun _ => readAlone) ++
  (List.range 61).flatMap (fun k => sendAlone (61 + k)) ++ [.writer] ++
  [.reader 0, .send 122, .writer, .writer, .reader 0, .reader 0, .reader 0]

/-- The reader gets message 122 in place of message 61. -/
theorem lap_lost : ¬ ∀ R, 1 ≤ R → R ≤ 61 → ∀ (as : List (Step Nat R)) (s : State Nat R),
    run step (init R 0) as = some s → Delivered s := by
  intro hall
  have hmap : (run step (init 1 0) overtaking).map
      (fun s => ((s.received 0)[61]?, s.sent[61]?)) = some (some 122, some 61) := by
    decide +kernel
  obtain ⟨s, hrun, heq⟩ := Option.map_eq_some_iff.mp hmap
  obtain ⟨hread, hsent⟩ := Prod.mk.inj heq
  obtain ⟨zs, hprefix⟩ := (hall 1 (by decide) (by decide) overtaking s hrun).in_order 0
  have hlt := (List.getElem?_eq_some_iff.mp hread).1
  rw [← hprefix, List.getElem?_append_left hlt, hread] at hsent
  cases hsent

end SmeltConsensus.BroadcastQueue.EpochDelivery
