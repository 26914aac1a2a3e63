import Mathlib.Data.List.Infix
import SmeltConsensus.Foundation.Ring

/-!
A ring of `n` slots that holds the newest entries of a log: entry `k`, counted
from 0, is put into slot `k % n`.
-/

set_option autoImplicit false
set_option relaxedAutoImplicit false

namespace SmeltConsensus.Foundation.RingLog

open SmeltConsensus.Foundation.Ring (next)

variable {α : Type} {n : Nat}

/-- The last `n` entries of the log are in their slots. -/
def Holds (n : Nat) (slots : Nat → α) (log : List α) : Prop :=
  ∀ k x, log[k]? = some x → log.length ≤ k + n → slots (k % n) = x

/-- Entries less than a lap apart have different slots. -/
theorem mod_ne {j k : Nat} (hlt : j < k) (hlap : k < j + n) : j % n ≠ k % n := by
  intro heq
  have hdvd : n ∣ k - j := Nat.dvd_of_mod_eq_zero (Nat.sub_mod_eq_zero_of_mod_eq heq.symm)
  have hle := Nat.le_of_dvd (by omega) hdvd
  omega

theorem next_mod (k : Nat) : next n (k % n) = (k + 1) % n := Nat.mod_add_mod k n 1

theorem holds_nil (slots : Nat → α) : Holds n slots [] := by
  intro k x hx
  cases hx

/-- The next entry takes the slot of the oldest one. -/
theorem Holds.push {slots : Nat → α} {log : List α} (h : Holds n slots log) (x : α) :
    Holds n (Function.update slots (log.length % n) x) (log ++ [x]) := by
  intro k y hk hlap
  rw [List.length_append, List.length_singleton] at hlap
  rcases Nat.lt_trichotomy k log.length with hlt | rfl | hgt
  · rw [Function.update_of_ne (mod_ne hlt (by omega))]
    rw [List.getElem?_append_left hlt] at hk
    exact h k y hk (by omega)
  · rw [Function.update_self]
    rw [List.getElem?_concat_length] at hk
    exact Option.some.inj hk
  · rw [List.getElem?_eq_none (by rw [List.length_append, List.length_singleton]; omega)] at hk
    cases hk

/-- A slot that an entry was put into has one of the last lap. -/
theorem exists_newest {j k : Nat} (hj : j < n) (hlt : j < k) :
    ∃ i, i < k ∧ k ≤ i + n ∧ i % n = j := by
  have hdiv := Nat.div_add_mod (k - 1 - j) n
  have hmod := Nat.mod_lt (k - 1 - j) (Nat.zero_lt_of_lt hj)
  refine ⟨j + n * ((k - 1 - j) / n), by omega, by omega, ?_⟩
  rw [Nat.add_mul_mod_self_left, Nat.mod_eq_of_lt hj]

/-- A reader that has the first entries of a log takes the next one. -/
theorem prefix_next {xs ys : List α} {x : α} (h : ys <+: xs) (hx : xs[ys.length]? = some x) :
    ys ++ [x] <+: xs := by
  obtain ⟨zs, rfl⟩ := h
  rw [List.getElem?_append_right (Nat.le_refl _), Nat.sub_self] at hx
  cases zs with
  | nil => cases hx
  | cons z zs =>
    obtain rfl := Option.some.inj hx
    exact ⟨zs, by rw [List.append_assoc, List.singleton_append]⟩

section Laps

variable {r w : Nat}

/-- Counts at most a lap apart are in the same lap or in successive ones. -/
theorem lap_cases (hn : 0 < n) (hle : r ≤ w) (hlap : w ≤ r + n) :
    (w / n = r / n ∧ w % n + r = w + r % n) ∨
      (w / n = r / n + 1 ∧ w % n + n + r = w + r % n) := by
  have hr := Nat.div_add_mod r n
  have hw := Nat.div_add_mod w n
  have hlow : r / n ≤ w / n := Nat.div_le_div_right hle
  have hhigh : w / n ≤ r / n + 1 := by
    rw [← Nat.add_div_right r hn]
    exact Nat.div_le_div_right hlap
  rcases Nat.eq_or_lt_of_le hlow with heq | hlt
  · rw [← heq] at hw
    exact .inl ⟨heq.symm, by omega⟩
  · have hnext : w / n = r / n + 1 := by omega
    rw [hnext, Nat.mul_succ] at hw
    exact .inr ⟨hnext, by omega⟩

/-- The parity of the lap that a count is in. -/
def parity (n k : Nat) : Nat := k / n % 2

/-- Positions and parities tell whether the reader is behind. -/
theorem behind_iff (hn : 0 < n) (hle : r ≤ w) (hlap : w ≤ r + n) :
    (w % n > r % n ∧ parity n w = parity n r) ∨ (w % n ≤ r % n ∧ parity n w ≠ parity n r) ↔
      r < w := by
  unfold parity
  rcases lap_cases hn hle hlap with ⟨hdiv, hmod⟩ | ⟨hdiv, hmod⟩
  · rw [hdiv]
    omega
  · have hr := Nat.mod_lt r hn
    have hw := Nat.mod_lt w hn
    rw [hdiv]
    omega

/-- They tell as well whether the ring has room. -/
theorem room_iff (hn : 0 < n) (hle : r ≤ w) (hlap : w ≤ r + n) :
    (r % n ≤ w % n ∧ parity n r = parity n w) ∨ (r % n > w % n ∧ parity n r ≠ parity n w) ↔
      w < r + n := by
  unfold parity
  rcases lap_cases hn hle hlap with ⟨hdiv, hmod⟩ | ⟨hdiv, hmod⟩
  · have hw := Nat.mod_lt w hn
    rw [hdiv]
    omega
  · rw [hdiv]
    omega

/-- The last position of a lap, and what follows it. -/
theorem last_of_lap (hn : 0 < n) {k : Nat} (hlast : k % n + 1 = n) :
    (k + 1) % n = 0 ∧ (k + 1) / n = k / n + 1 := by
  have hk := Nat.div_add_mod k n
  have hsucc : k + 1 = n * (k / n + 1) := by
    rw [Nat.mul_succ]
    omega
  constructor
  · rw [hsucc, Nat.mul_mod_right]
  · rw [hsucc, Nat.mul_div_cancel_left _ hn]

/-- The parity of the lap before, at its end. -/
theorem parity_pred (hn : 0 < n) {k : Nat} (hpos : 0 < k) (hend : k % n = 0) :
    parity n (k - 1) = parity n (k + n) := by
  have hk := Nat.div_add_mod k n
  obtain ⟨q, hq⟩ : ∃ q, k / n = q + 1 := by
    apply Nat.exists_eq_succ_of_ne_zero
    intro hzero
    rw [hzero, hend] at hk
    omega
  rw [hq, hend, Nat.mul_succ] at hk
  have hpred : k - 1 = n - 1 + n * q := by omega
  unfold parity
  rw [hpred, Nat.add_mul_div_left _ _ hn, Nat.div_eq_of_lt (by omega), Nat.add_div_right _ hn, hq]
  omega

/-- Within a lap. -/
theorem within_lap {k : Nat} (hlt : k % n + 1 < n) :
    (k + 1) % n = k % n + 1 ∧ (k + 1) / n = k / n := by
  have hk := Nat.div_add_mod k n
  have hsucc : k + 1 = k % n + 1 + n * (k / n) := by omega
  constructor
  · rw [hsucc, Nat.add_mul_mod_self_left, Nat.mod_eq_of_lt hlt]
  · rw [hsucc, Nat.add_mul_div_left _ _ (by omega), Nat.div_eq_of_lt hlt, Nat.zero_add]

/-- What comes before the start of a lap. -/
theorem last_of_mod_succ (hn : 0 < n) {k : Nat} (hend : (k + 1) % n = 0) : k % n + 1 = n := by
  have hlt := Nat.mod_lt k hn
  by_contra hne
  obtain ⟨hmod, -⟩ := within_lap (n := n) (k := k) (by omega)
  omega

end Laps

end SmeltConsensus.Foundation.RingLog
