import Mathlib.Data.Nat.Basic

/-! Words whose bits are flags: the test, the clearing of one flag, and the words below another. -/

set_option autoImplicit false
set_option relaxedAutoImplicit false

namespace SmeltConsensus.Foundation.Flags

variable {w : Nat}

/-- Every flag of `x` is one of `y`. -/
def Within (x y : BitVec w) : Prop := ∀ b, x.getLsbD b = true → y.getLsbD b = true

theorem Within.refl (x : BitVec w) : Within x x := fun _ hb => hb

theorem Within.trans {x y z : BitVec w} (hxy : Within x y) (hyz : Within y z) : Within x z :=
  fun b hb => hyz b (hxy b hb)

theorem Within.antisymm {x y : BitVec w} (hxy : Within x y) (hyx : Within y x) : x = y := by
  apply BitVec.eq_of_getLsbD_eq
  intro b _
  exact Bool.eq_iff_iff.mpr ⟨hxy b, hyx b⟩

theorem Within.eq_zero {x : BitVec w} (h : Within x 0) : x = 0 := by
  refine h.antisymm fun b hb => ?_
  have hzero : (0 : BitVec w).getLsbD b = false := BitVec.getLsbD_zero
  rw [hzero] at hb
  cases hb

/-- The test of a flag by a mask. -/
theorem and_shiftLeft_ne_zero {x : BitVec w} {i : Nat} (hi : i < w) :
    x &&& (1#w <<< i) ≠ 0 ↔ x.getLsbD i = true := by
  rw [← BitVec.twoPow_eq, BitVec.and_twoPow]
  split
  · rename_i hbit
    refine ⟨fun _ => hbit, fun _ hzero => ?_⟩
    have hflag := BitVec.getLsbD_twoPow (w := w) i i
    rw [hzero] at hflag
    simp [hi] at hflag
  · rename_i hbit
    exact ⟨fun hne => absurd rfl hne, fun hset => absurd hset hbit⟩

/-- A flag that is set is cleared by its mask, and no other one changes. -/
theorem getLsbD_xor_shiftLeft {x : BitVec w} {i b : Nat} (hset : x.getLsbD i = true) :
    (x ^^^ (1#w <<< i)).getLsbD b = (x.getLsbD b && decide (b ≠ i)) := by
  rw [← BitVec.twoPow_eq, BitVec.getLsbD_xor, BitVec.getLsbD_twoPow]
  by_cases hb : b = i
  · subst hb
    have hlt : b < w := BitVec.lt_of_getLsbD hset
    simp [hset, hlt]
  · have hne : ¬ i = b := fun heq => hb heq.symm
    simp [hb, hne]

theorem xor_within {x : BitVec w} {i : Nat} (hset : x.getLsbD i = true) :
    Within (x ^^^ (1#w <<< i)) x := by
  intro b hb
  rw [getLsbD_xor_shiftLeft hset, Bool.and_eq_true] at hb
  exact hb.1

/-- Doubling a mask of low flags `k` times adds `k` flags to it. -/
theorem getLsbD_doubled (hw : 0 < w) (k b : Nat) :
    ((List.range k).foldl (fun (m : BitVec w) _ => m ||| (m <<< 1)) 1#w).getLsbD b =
      (decide (b < w) && decide (b ≤ k)) := by
  induction k generalizing b with
  | zero =>
    rw [List.range_zero, List.foldl_nil, BitVec.getLsbD_one]
    by_cases hb : b = 0
    · simp [hb, hw]
    · simp [hb]
  | succ k ih =>
    rw [List.range_succ, List.foldl_append, List.foldl_cons, List.foldl_nil, BitVec.getLsbD_or,
      BitVec.getLsbD_shiftLeft, ih, ih]
    rw [Bool.eq_iff_iff]
    simp only [Bool.or_eq_true, Bool.and_eq_true, decide_eq_true_eq, Bool.not_eq_true',
      decide_eq_false_iff_not]
    omega

end SmeltConsensus.Foundation.Flags
