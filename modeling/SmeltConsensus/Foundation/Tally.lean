import Mathlib.Data.List.Basic
import Mathlib.Logic.Function.Basic

/-!
Votes that are counted until one candidate has a quorum, and then anew. Votes for two
quorums can elect twice, but only if none of them is wasted.
-/

set_option autoImplicit false
set_option relaxedAutoImplicit false

namespace SmeltConsensus.Foundation.Tally

variable {ι : Type} [DecidableEq ι]

/-- The counters after a vote for `x`. -/
def tally (q : Nat) (votes : ι → Nat) (x : ι) : ι → Nat :=
  if votes x + 1 = q then fun _ => 0 else Function.update votes x (votes x + 1)

/-- How often some candidate reaches the quorum `q`. -/
def wins (q : Nat) : (ι → Nat) → List ι → Nat
  | _, [] => 0
  | votes, x :: xs => (if votes x + 1 = q then 1 else 0) + wins q (tally q votes x) xs

variable {q : Nat} {votes : ι → Nat}

/-- The votes that the winner had and got make up the quorum. -/
theorem exists_winner {xs : List ι} (h : 0 < wins q votes xs) :
    ∃ ys a zs, xs = ys ++ a :: zs ∧ votes a + ys.count a + 1 = q ∧
      wins q votes xs = 1 + wins q (fun _ => 0) zs := by
  induction xs generalizing votes with
  | nil => exact absurd h (Nat.lt_irrefl 0)
  | cons x xs ih =>
    rw [wins] at h ⊢
    by_cases hq : votes x + 1 = q
    · refine ⟨[], x, xs, rfl, hq, ?_⟩
      rw [if_pos hq, tally, if_pos hq]
    · rw [if_neg hq, Nat.zero_add] at h ⊢
      obtain ⟨ys, a, zs, rfl, hcount, hwins⟩ := ih h
      refine ⟨x :: ys, a, zs, rfl, ?_, hwins⟩
      rw [tally, if_neg hq] at hcount
      by_cases ha : a = x
      · subst ha
        rw [Function.update_self] at hcount
        rw [List.count_cons_self]
        omega
      · rw [Function.update_of_ne ha] at hcount
        rw [List.count_cons_of_ne (Ne.symm ha)]
        exact hcount

variable (votes) in
/-- Votes for one candidate elect it when the quorum is full. -/
theorem wins_replicate (a : ι) {k : Nat} (h : votes a + (k + 1) = q) (xs : List ι) :
    wins q votes (List.replicate (k + 1) a ++ xs) = 1 + wins q (fun _ => 0) xs := by
  induction k generalizing votes with
  | zero =>
    rw [List.replicate_one, List.singleton_append, wins, tally, if_pos h, if_pos h]
  | succ k ih =>
    have hne : ¬ votes a + 1 = q := by omega
    rw [List.replicate_succ, List.cons_append, wins, tally, if_neg hne, if_neg hne, Nat.zero_add]
    apply ih
    rw [Function.update_self]
    omega

/-- All of the first voters have to agree, and all of the others. -/
theorem two_wins_iff {xs : List ι} (hq : 0 < q) (hlen : xs.length ≤ 2 * q) :
    2 ≤ wins q (fun _ => 0) xs ↔ ∃ a b, xs = List.replicate q a ++ List.replicate q b := by
  constructor
  · intro h
    obtain ⟨ys, a, zs, rfl, hcount, hwins⟩ := exists_winner (Nat.zero_lt_of_lt h)
    have hmore : 0 < wins q (fun _ => 0) zs := by omega
    obtain ⟨ys', b, zs', rfl, hcount', -⟩ := exists_winner hmore
    have hle := List.count_le_length (a := a) (l := ys)
    have hle' := List.count_le_length (a := b) (l := ys')
    simp only [List.length_append, List.length_cons] at hlen
    have hys := List.eq_replicate_iff.mpr
      ⟨rfl, fun x hx => (List.count_eq_length.mp (show ys.count a = ys.length by omega) x hx).symm⟩
    have hys' := List.eq_replicate_iff.mpr
      ⟨rfl, fun x hx => (List.count_eq_length.mp (show ys'.count b = ys'.length by omega) x hx).symm⟩
    obtain rfl : zs' = [] := List.length_eq_zero_iff.mp (by omega)
    have hlength : ys.length + 1 = q := by omega
    have hlength' : ys'.length + 1 = q := by omega
    refine ⟨a, b, ?_⟩
    rw [List.append_cons, List.append_cons ys' b, List.append_nil]
    congr 1
    · rw [← hlength, List.replicate_succ', ← hys]
    · rw [← hlength', List.replicate_succ', ← hys']
  · rintro ⟨a, b, rfl⟩
    obtain ⟨k, rfl⟩ := Nat.exists_eq_add_of_le' hq
    rw [wins_replicate (fun _ => 0) a (Nat.zero_add _),
      ← List.append_nil (List.replicate (k + 1) b),
      wins_replicate (fun _ => 0) b (Nat.zero_add _)]
    omega

end SmeltConsensus.Foundation.Tally
