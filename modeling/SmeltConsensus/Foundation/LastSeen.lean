import Mathlib.Data.List.Infix
import Mathlib.Logic.Function.Basic

/-!
A duplicate filter with one number for each key: an element passes when its
number is above the number that passed last with the same key.
-/

set_option autoImplicit false
set_option relaxedAutoImplicit false

namespace SmeltConsensus.Foundation.LastSeen

variable {κ α : Type} [DecidableEq κ] (key : α → κ) (num : α → Nat)

/-- Whether `x` passes, given the numbers that passed last. -/
def passes (last : κ → Option Nat) (x : α) : Bool :=
  match last (key x) with
  | none => true
  | some n => decide (n < num x)

/-- The table after `x`. -/
def note (last : κ → Option Nat) (x : α) : κ → Option Nat :=
  if passes key num last x then Function.update last (key x) (some (num x)) else last

/-- The elements that pass. -/
def select (last : κ → Option Nat) : List α → List α
  | [] => []
  | x :: xs =>
    if passes key num last x then x :: select (note key num last x) xs
    else select (note key num last x) xs

/-- The table after a list. -/
def after (last : κ → Option Nat) (xs : List α) : κ → Option Nat :=
  xs.foldl (note key num) last

variable {key num}

@[simp] theorem after_nil (last : κ → Option Nat) : after key num last [] = last := rfl

theorem after_append (last : κ → Option Nat) (xs : List α) (x : α) :
    after key num last (xs ++ [x]) = note key num (after key num last xs) x := by
  simp [after]

@[simp] theorem select_nil (last : κ → Option Nat) : select key num last [] = [] := rfl

theorem select_append (last : κ → Option Nat) (xs ys : List α) :
    select key num last (xs ++ ys) =
      select key num last xs ++ select key num (after key num last xs) ys := by
  induction xs generalizing last with
  | nil => rfl
  | cons x xs ih =>
    have hrest := ih (note key num last x)
    have hafter : after key num (note key num last x) xs = after key num last (x :: xs) := rfl
    rw [hafter] at hrest
    by_cases h : passes key num last x = true
    · simp only [List.cons_append, select, h, if_true, hrest]
    · simp only [List.cons_append, select, h, Bool.false_eq_true, if_false, hrest]

theorem select_singleton (last : κ → Option Nat) (x : α) :
    select key num last [x] = if passes key num last x then [x] else [] := by
  simp [select]

theorem select_prefix (last : κ → Option Nat) {xs ys : List α} (h : xs <+: ys) :
    select key num last xs <+: select key num last ys := by
  obtain ⟨zs, rfl⟩ := h
  rw [select_append]
  exact List.prefix_append _ _

theorem select_sublist (last : κ → Option Nat) (xs : List α) :
    (select key num last xs).Sublist xs := by
  induction xs generalizing last with
  | nil => exact .slnil
  | cons x xs ih =>
    rw [select]
    split
    · exact (ih _).cons_cons x
    · exact (ih _).cons x

/-- Whatever passes is above what had passed before with its key. -/
theorem lt_of_mem_select {last : κ → Option Nat} {xs : List α} {x : α}
    (h : x ∈ select key num last xs) {n : Nat} (hn : last (key x) = some n) : n < num x := by
  induction xs generalizing last n with
  | nil => simp at h
  | cons y ys ih =>
    rw [select] at h
    by_cases hp : passes key num last y = true
    · have hnote : note key num last y = Function.update last (key y) (some (num y)) := if_pos hp
      rw [if_pos hp, List.mem_cons, hnote] at h
      rcases h with rfl | h
      · rw [passes, hn] at hp
        exact of_decide_eq_true hp
      · by_cases hk : key x = key y
        · have hy : n < num y := by
            rw [passes, ← hk, hn] at hp
            exact of_decide_eq_true hp
          have hx := ih h (n := num y) (by rw [hk, Function.update_self])
          exact hy.trans hx
        · exact ih h (by rw [Function.update_of_ne hk, hn])
    · have hnote : note key num last y = last := if_neg hp
      rw [if_neg hp, hnote] at h
      exact ih h hn

/-- The numbers that pass with one key increase strictly. -/
theorem select_pairwise (last : κ → Option Nat) (xs : List α) :
    (select key num last xs).Pairwise fun x y => key x = key y → num x < num y := by
  induction xs generalizing last with
  | nil => exact .nil
  | cons x xs ih =>
    rw [select]
    split
    · rename_i hp
      refine .cons (fun y hy hk => ?_) (ih _)
      refine lt_of_mem_select hy ?_
      rw [note, if_pos hp, ← hk, Function.update_self]
    · exact ih _

theorem note_of_ne {last : κ → Option Nat} {x : α} {k : κ} (h : k ≠ key x) :
    note key num last x k = last k := by
  unfold note
  split
  · exact Function.update_of_ne h _ _
  · rfl

/-- A key whose numbers increase loses no element, whatever the other keys do. -/
theorem filter_select_of_increasing (k : κ) (last : κ → Option Nat) (xs : List α)
    (hlast : ∀ n, last k = some n → ∀ x ∈ xs, key x = k → n < num x)
    (hinc : (xs.filter (key · = k)).Pairwise fun x y => num x < num y) :
    (select key num last xs).filter (key · = k) = xs.filter (key · = k) := by
  induction xs generalizing last with
  | nil => rfl
  | cons x xs ih =>
    by_cases hk : key x = k
    · have hpass : passes key num last x = true := by
        rw [passes, hk]
        cases hn : last k with
        | none => rfl
        | some n => exact decide_eq_true (hlast n hn x List.mem_cons_self hk)
      have hnote : note key num last x k = some (num x) := by
        rw [note, if_pos hpass, hk, Function.update_self]
      rw [List.filter_cons_of_pos (by simpa using hk)] at hinc ⊢
      obtain ⟨hhead, htail⟩ := List.pairwise_cons.mp hinc
      rw [select, if_pos hpass, List.filter_cons_of_pos (by simpa using hk), ih _ ?_ htail]
      intro n hn y hy hky
      rw [hnote] at hn
      obtain rfl := Option.some.inj hn
      exact hhead y (List.mem_filter.mpr ⟨hy, decide_eq_true hky⟩)
    · have hsame : note key num last x k = last k := note_of_ne (Ne.symm hk)
      rw [List.filter_cons_of_neg (by simpa using hk)] at hinc ⊢
      have hrest := ih (note key num last x) ?_ hinc
      · rw [select]
        split
        · rw [List.filter_cons_of_neg (by simpa using hk), hrest]
        · exact hrest
      · intro n hn y hy hky
        rw [hsame] at hn
        exact hlast n hn y (List.mem_cons_of_mem _ hy) hky

/-- The elements with one key pass as if there were no others. -/
theorem filter_select (k : κ) {last last' : κ → Option Nat} (hlast : last k = last' k)
    (xs : List α) :
    (select key num last xs).filter (key · = k) = select key num last' (xs.filter (key · = k)) := by
  induction xs generalizing last last' with
  | nil => rfl
  | cons x xs ih =>
    by_cases hk : key x = k
    · have hpass : passes key num last x = passes key num last' x := by
        rw [passes, passes, hk, hlast]
      have hnote : note key num last x k = note key num last' x k := by
        rw [note, note, hpass]
        split
        · rw [hk, Function.update_self, Function.update_self]
        · exact hlast
      rw [List.filter_cons_of_pos (by simpa using hk), select, select, hpass]
      split
      · rw [List.filter_cons_of_pos (by simpa using hk), ih hnote]
      · exact ih hnote
    · have hnote : note key num last x k = last' k := (note_of_ne (Ne.symm hk)).trans hlast
      rw [List.filter_cons_of_neg (by simpa using hk), select]
      split
      · rw [List.filter_cons_of_neg (by simpa using hk), ih hnote]
      · exact ih hnote

/-- A list whose numbers increase for each key passes as a whole. -/
theorem select_eq_self {last : κ → Option Nat} {xs : List α}
    (hlast : ∀ x ∈ xs, ∀ n, last (key x) = some n → n < num x)
    (hinc : xs.Pairwise fun x y => key x = key y → num x < num y) :
    select key num last xs = xs := by
  induction xs generalizing last with
  | nil => rfl
  | cons x xs ih =>
    obtain ⟨hhead, htail⟩ := List.pairwise_cons.mp hinc
    have hpass : passes key num last x = true := by
      rw [passes]
      cases hn : last (key x) with
      | none => rfl
      | some n => exact decide_eq_true (hlast x List.mem_cons_self n hn)
    rw [select, if_pos hpass, ih ?_ htail]
    intro y hy n hn
    rw [note, if_pos hpass] at hn
    by_cases hk : key y = key x
    · rw [hk, Function.update_self] at hn
      obtain rfl := Option.some.inj hn
      exact hhead y hy hk.symm
    · rw [Function.update_of_ne hk] at hn
      exact hlast y (List.mem_cons_of_mem _ hy) n hn

/-- Nothing is dropped exactly if the numbers increase for each key. -/
theorem select_length_iff {xs : List α} : (select key num (fun _ => none) xs).length = xs.length ↔
    xs.Pairwise fun x y => key x = key y → num x < num y := by
  constructor
  · intro hlen
    have heq := List.Sublist.eq_of_length (select_sublist _ xs) hlen
    rw [← heq]
    exact select_pairwise _ xs
  · intro hinc
    apply congrArg List.length
    apply select_eq_self _ hinc
    intro x _ n hn
    cases hn

/-- From an empty table, an element passes after `xs` exactly if its number is above those of
all elements of `xs` with its key. -/
theorem passes_after_iff (xs : List α) (x : α) :
    passes key num (after key num (fun _ => none) xs) x = true ↔
      ∀ y ∈ xs, key y = key x → num y < num x := by
  induction xs using List.reverseRecOn generalizing x with
  | nil => simp [passes]
  | append_singleton xs y ih =>
    have hsplit : (∀ z ∈ xs ++ [y], key z = key x → num z < num x) ↔
        (∀ z ∈ xs, key z = key x → num z < num x) ∧ (key y = key x → num y < num x) := by
      simp only [List.mem_append, List.mem_singleton, or_imp, forall_and, forall_eq]
    rw [after_append, hsplit, ← ih]
    by_cases hk : key y = key x
    · by_cases hp : passes key num (after key num (fun _ => none) xs) y = true
      · -- the table now has the number of `y`, which is above the others
        have hbelow := (ih y).mp hp
        rw [note, if_pos hp, passes, ← hk, Function.update_self]
        constructor
        · intro hlt
          have hlt := of_decide_eq_true hlt
          refine ⟨(ih x).mpr fun z hz hzk => ?_, fun _ => hlt⟩
          exact (hbelow z hz (hzk.trans hk.symm)).trans hlt
        · exact fun h => decide_eq_true (h.2 rfl)
      · rw [note, if_neg hp]
        constructor
        · intro h
          refine ⟨h, fun _ => ?_⟩
          by_contra hle
          apply hp
          rw [ih]
          intro z hz hzk
          have hlt := (ih x).mp h z hz (hzk.trans hk)
          omega
        · exact And.left
    · have hsame : passes key num (note key num (after key num (fun _ => none) xs) y) x =
          passes key num (after key num (fun _ => none) xs) x := by
        rw [passes, passes, note_of_ne (Ne.symm hk)]
      rw [hsame]
      exact ⟨fun h => ⟨h, fun heq => absurd heq hk⟩, And.left⟩

end SmeltConsensus.Foundation.LastSeen
