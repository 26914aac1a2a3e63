import Mathlib.Data.List.Basic
import Mathlib.Logic.Function.Basic

/-!
A ring of slots between a read and a write position. Equal positions stand for
an empty ring, so a write that makes them equal loses the whole ring.
-/

set_option autoImplicit false
set_option relaxedAutoImplicit false

namespace SmeltConsensus.Foundation.Ring

variable {α : Type}

/-- The position after `p`. -/
def next (n p : Nat) : Nat := (p + 1) % n

/-- How many slots lie from `r` up to `w`. -/
def distance (n r w : Nat) : Nat := if r ≤ w then w - r else w + n - r

/-- The slot `k` positions after `r`. -/
def slotAt (n r k : Nat) : Nat := if r + k < n then r + k else r + k - n

/-- The contents of the slots from `r` up to `w`. -/
def window (n : Nat) (slots : Nat → α) (r w : Nat) : List α :=
  (List.range (distance n r w)).map fun k => slots (slotAt n r k)

variable {n r w : Nat}

theorem next_eq (h : w < n) : next n w = if w + 1 = n then 0 else w + 1 := by
  unfold next
  split
  · rename_i heq
    rw [heq, Nat.mod_self]
  · exact Nat.mod_eq_of_lt (by omega)

theorem next_lt (h : w < n) : next n w < n := Nat.mod_lt _ (by omega)

@[simp] theorem window_self (slots : Nat → α) : window n slots r r = [] := by
  simp [window, distance]

@[simp] theorem window_length (slots : Nat → α) :
    (window n slots r w).length = distance n r w := by
  simp [window]

theorem distance_next (hr : r < n) (hw : w < n) (h : next n w ≠ r) :
    distance n r (next n w) = distance n r w + 1 := by
  rw [next_eq hw] at h ⊢
  unfold distance
  split_ifs at h ⊢ <;> omega

theorem slotAt_distance (hr : r < n) (hw : w < n) : slotAt n r (distance n r w) = w := by
  unfold slotAt distance
  split_ifs <;> omega

theorem slotAt_ne (hr : r < n) {k : Nat} (hk : k < distance n r w) :
    slotAt n r k ≠ w := by
  unfold distance at hk
  unfold slotAt
  split_ifs at hk ⊢ <;> omega

/-- A write that does not catch up with the reader appends to what it will read. -/
theorem window_push (slots : Nat → α) (x : α) (hr : r < n) (hw : w < n) (h : next n w ≠ r) :
    window n (Function.update slots w x) r (next n w) = window n slots r w ++ [x] := by
  rw [window, distance_next hr hw h, List.range_succ, List.map_append, List.map_singleton,
    slotAt_distance hr hw, Function.update_self]
  congr 1
  refine List.map_congr_left fun k hk => ?_
  exact Function.update_of_ne (slotAt_ne hr (List.mem_range.mp hk)) _ _

/-- The reader takes the first slot of the window. -/
theorem window_pop (slots : Nat → α) (hr : r < n) (hw : w < n) (h : r ≠ w) :
    window n slots r w = slots r :: window n slots (next n r) w := by
  have hdist : distance n r w = distance n (next n r) w + 1 := by
    rw [next_eq hr]
    unfold distance
    split_ifs <;> omega
  have hzero : slotAt n r 0 = r := by
    unfold slotAt
    split_ifs <;> omega
  rw [window, hdist, List.range_succ_eq_map, List.map_cons, hzero, List.map_map, window]
  congr 1
  refine List.map_congr_left fun k hk => ?_
  have hk := List.mem_range.mp hk
  have hslot : slotAt n r (k + 1) = slotAt n (next n r) k := by
    rw [next_eq hr] at hk ⊢
    unfold distance at hk
    unfold slotAt
    split_ifs at hk ⊢ <;> omega
  rw [Function.comp_apply, ← hslot]

end SmeltConsensus.Foundation.Ring
