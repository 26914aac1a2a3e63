import Mathlib.Algebra.Order.Group.Nat
import Mathlib.Tactic.Ring

/-!
Byte memory, little-endian loads and stores of any number of bytes, and arrays of
differently typed elements over the same bytes.
-/

set_option autoImplicit false
set_option relaxedAutoImplicit false

namespace SmeltConsensus.Foundation.Views

/-- Bytes by address. -/
abbrev Memory := Nat → BitVec 8

/-- The value of the `n` bytes from `a` on, the lowest one first. -/
def load (mem : Memory) : Nat → Nat → Nat
  | 0, _ => 0
  | n + 1, a => (mem a).toNat + 2 ^ 8 * load mem n (a + 1)

/-- The `n` bytes from `a` on become those of `v`. -/
def store (mem : Memory) (n a v : Nat) : Memory := fun b =>
  if a ≤ b ∧ b < a + n then BitVec.ofNat 8 (v / 2 ^ (8 * (b - a))) else mem b

/-- `((T *) base)[i]`, for a `T` of `size` bytes. -/
def view (mem : Memory) (size base i : Nat) : Nat := load mem size (base + size * i)

/-- `((T *) base)[i] = v` -/
def setView (mem : Memory) (size base i v : Nat) : Memory := store mem size (base + size * i) v

variable {mem mem' : Memory} {m n a b : Nat}

theorem load_congr (h : ∀ b, a ≤ b → b < a + n → mem b = mem' b) :
    load mem n a = load mem' n a := by
  induction n generalizing a with
  | zero => rfl
  | succ n ih =>
    rw [load, load, h a le_rfl (by omega), ih fun b hle hlt => h b (by omega) (by omega)]

theorem load_lt (mem : Memory) (n a : Nat) : load mem n a < 2 ^ (8 * n) := by
  induction n generalizing a with
  | zero => exact Nat.one_pos
  | succ n ih =>
    have hbyte : (mem a).toNat < 2 ^ 8 := (mem a).isLt
    have hrest := ih (a + 1)
    have hpow : 2 ^ (8 * (n + 1)) = 2 ^ 8 * 2 ^ (8 * n) := by ring
    rw [load, hpow]
    omega

/-- Consecutive bytes in two parts. -/
theorem load_add (mem : Memory) (m n a : Nat) :
    load mem (m + n) a = load mem m a + 2 ^ (8 * m) * load mem n (a + m) := by
  induction m generalizing a with
  | zero =>
    rw [load, Nat.zero_add, Nat.zero_add, Nat.mul_zero, Nat.pow_zero, Nat.one_mul, Nat.add_zero]
  | succ m ih =>
    have haddr : a + 1 + m = a + (m + 1) := by omega
    rw [Nat.add_right_comm, load, load, ih, haddr]
    ring

theorem store_of_inside (mem : Memory) (v : Nat) (h : a ≤ b ∧ b < a + n) :
    store mem n a v b = BitVec.ofNat 8 (v / 2 ^ (8 * (b - a))) := if_pos h

/-- A store changes its own bytes only. -/
theorem store_of_outside (mem : Memory) (v : Nat) (h : b < a ∨ a + n ≤ b) :
    store mem n a v b = mem b := if_neg (by omega)

theorem load_store_self (mem : Memory) (n a v : Nat) :
    load (store mem n a v) n a = v % 2 ^ (8 * n) := by
  induction n generalizing a v with
  | zero => exact (Nat.mod_one v).symm
  | succ n ih =>
    have hfirst : store mem (n + 1) a v a = BitVec.ofNat 8 v := by
      rw [store_of_inside _ v (by omega), Nat.sub_self, Nat.mul_zero, Nat.pow_zero, Nat.div_one]
    have hrest : load (store mem (n + 1) a v) n (a + 1) =
        load (store mem n (a + 1) (v / 2 ^ 8)) n (a + 1) := by
      apply load_congr
      intro b hle hlt
      have hpow : 2 ^ (8 * (b - a)) = 2 ^ 8 * 2 ^ (8 * (b - (a + 1))) := by
        rw [← Nat.pow_add]
        congr 1
        omega
      rw [store_of_inside _ v (by omega), store_of_inside _ _ ⟨hle, hlt⟩, hpow,
        Nat.div_div_eq_div_mul]
    have hpow : 2 ^ (8 * (n + 1)) = 2 ^ 8 * 2 ^ (8 * n) := by ring
    rw [load, hfirst, hrest, ih, BitVec.toNat_ofNat, hpow, Nat.mod_mul]

theorem load_store_of_disjoint (mem : Memory) (v : Nat) (h : a + m ≤ b ∨ b + n ≤ a) :
    load (store mem n b v) m a = load mem m a := by
  apply load_congr
  intro c hle hlt
  exact store_of_outside mem v (by omega)

theorem store_comm (mem : Memory) (v v' : Nat) (h : a + m ≤ b ∨ b + n ≤ a) :
    store (store mem n b v') m a v = store (store mem m a v) n b v' := by
  funext c
  by_cases ha : a ≤ c ∧ c < a + m
  · rw [store_of_inside _ v ha, store_of_outside _ v' (by omega), store_of_inside _ v ha]
  · rw [store_of_outside _ v (by omega)]
    by_cases hb : b ≤ c ∧ c < b + n
    · rw [store_of_inside _ v' hb, store_of_inside _ v' hb]
    · rw [store_of_outside _ v' (by omega), store_of_outside _ v' (by omega),
        store_of_outside _ v (by omega)]

section Views

variable {s t i j base : Nat}

theorem view_setView_self (mem : Memory) (s base i v : Nat) :
    view (setView mem s base i v) s base i = v % 2 ^ (8 * s) := load_store_self _ _ _ _

/-- Elements of two views that share no byte. -/
theorem view_setView_of_disjoint (mem : Memory) (v : Nat)
    (h : s * i + s ≤ t * j ∨ t * j + t ≤ s * i) :
    view (setView mem t base j v) s base i = view mem s base i :=
  load_store_of_disjoint mem v (by omega)

theorem setView_comm (mem : Memory) (v v' : Nat) (h : s * i + s ≤ t * j ∨ t * j + t ≤ s * i) :
    setView (setView mem t base j v') s base i v = setView (setView mem s base i v) t base j v' :=
  store_comm mem v v' (by omega)

end Views

end SmeltConsensus.Foundation.Views
