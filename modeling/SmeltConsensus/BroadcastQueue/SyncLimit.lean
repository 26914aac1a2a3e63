import Mathlib.Order.Lattice.Nat
import SmeltConsensus.BroadcastQueue.SequenceProgress

/-!
The limit that `get_next_sync` computes. The minimum starts from a constant of 32
bits and the positions have 64, so the limit stops at that constant, and with it
the writer.
-/

set_option autoImplicit false
set_option relaxedAutoImplicit false

namespace SmeltConsensus.BroadcastQueue.SyncLimit

open SmeltConsensus.Foundation
open SmeltConsensus.Foundation.Machine (Guarded run)
open SmeltConsensus.BroadcastQueue.Shm (slots slots_eq)
open SmeltConsensus.BroadcastQueue.Sequence
open SmeltConsensus.BroadcastQueue.SequenceDelivery
open SmeltConsensus.BroadcastQueue.SequenceProgress

variable {α : Type} {R : Nat}

/-- The `uint64_t` limit is `numSlots - 1` above the position of the slowest reader. -/
def FollowsSlowest (shm : Shm α R) (numSlots : Nat) : Prop :=
  ∃ m, IsLeast (Set.range shm.readersPos) m ∧
    getNextSync shm numSlots % 2 ^ 64 = m + (numSlots - 1)

theorem foldl_lower_eq {shm : Shm α R} {m : Nat} (hm : IsLeast (Set.range shm.readersPos) m)
    (start : Nat) :
    ((List.finRange R).map shm.readersPos).foldl lower start = min start m := by
  obtain ⟨⟨i, hi⟩, hle⟩ := hm
  have hfold (ps : List Nat) : ps.foldl lower start ≤ start ∧
      ∀ p ∈ ps, ps.foldl lower start ≤ p := foldl_lower_le
  obtain ⟨hstart, hpos⟩ := hfold ((List.finRange R).map shm.readersPos)
  apply Nat.le_antisymm
  · refine Nat.le_min.mpr ⟨hstart, ?_⟩
    rw [← hi]
    exact hpos _ (List.mem_map_of_mem (List.mem_finRange i))
  · apply le_foldl_lower (Nat.min_le_left _ _)
    intro p hp
    obtain ⟨j, -, rfl⟩ := List.mem_map.mp hp
    exact (Nat.min_le_right _ _).trans (hle ⟨j, rfl⟩)

theorem getNextSync_eq {shm : Shm α R} {m : Nat} (hm : IsLeast (Set.range shm.readersPos) m)
    (numSlots : Nat) : getNextSync shm numSlots = min 0xFFFFFFFF m + (numSlots - 1) := by
  rw [getNextSync, foldl_lower_eq hm]

/-- The limit follows the slowest reader as far as the constant goes, and no further. -/
theorem follows_slowest_iff (hR : 1 ≤ R) (shm : Shm α R) :
    FollowsSlowest shm (slots R) ↔ ∃ i, shm.readersPos i ≤ 0xFFFFFFFF := by
  have hslots := slots_eq R
  have hne : (Set.range shm.readersPos).Nonempty := ⟨_, ⟨0, hR⟩, rfl⟩
  constructor
  · rintro ⟨m, hm, heq⟩
    obtain ⟨i, hi⟩ := hm.1
    refine ⟨i, ?_⟩
    rw [hi]
    rw [getNextSync_eq hm, Nat.mod_eq_of_lt (by omega)] at heq
    omega
  · rintro ⟨i, hi⟩
    have hm := isLeast_csInf hne
    have hle : sInf (Set.range shm.readersPos) ≤ 0xFFFFFFFF := (hm.2 ⟨i, rfl⟩).trans hi
    refine ⟨_, hm, ?_⟩
    rw [getNextSync_eq hm, Nat.min_eq_right hle, Nat.mod_eq_of_lt (by omega)]

/-- Three readers, the second of them past the constant. -/
theorem follows_slowest_three :
    FollowsSlowest (⟨fun i => if i = 1 then 2 ^ 32 + 15 else 31, fun _ => ⟨0, 0⟩⟩ : Shm Nat 3)
      (slots 3) :=
  (follows_slowest_iff (by decide) _).mpr ⟨0, by decide⟩

/-- One reader, whose published position needs more than 32 bits. -/
theorem not_follows_slowest_past_32_bits : ¬ ∀ (R : Nat) (shm : Shm Nat R), 1 ≤ R → R ≤ 60 →
    (∀ i, shm.readersPos i + 64 < 2 ^ 64) → FollowsSlowest shm (slots R) := by
  intro h
  have hfollows := h 1 ⟨fun _ => 2 ^ 32, fun _ => ⟨0, 0⟩⟩ le_rfl (by decide) (by decide)
  obtain ⟨m, ⟨⟨i, hi⟩, -⟩, heq⟩ := hfollows
  have hm : 2 ^ 32 = m := hi
  rw [← hm] at heq
  exact absurd heq (by decide)

/-- However long a run in which the writer keeps to its limit, it sends no more messages than the
constant allows. -/
theorem sent_le (hR : R ≤ 60) {zero : α} {as : List (Step α R)} {s : State α R}
    (hg : Guarded step NotOvertaken (init R zero) as) (hrun : run step (init R zero) as = some s) :
    s.sent.length + 2 ≤ 0xFFFFFFFF + slots R := by
  have h := invariant_of_run hR hg hrun
  have hslots := slots_eq R
  have hseq := h.writer.nextSeq
  have hle := h.limit_seq
  have hmax := h.limit_le
  omega

end SmeltConsensus.BroadcastQueue.SyncLimit
