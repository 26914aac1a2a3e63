import Mathlib.Data.List.Induction

/-!
Machines that answer some of their inputs with a number and promise a lower bound for
what they answer next. The numbers stay in order exactly when every answer is promised.
-/

set_option autoImplicit false
set_option relaxedAutoImplicit false

namespace SmeltConsensus.Foundation.Promise

/-- A machine that keeps its promises. -/
structure Promiser (σ α : Type) where
  promise : σ → Nat
  next : σ → α → σ
  answer : σ → α → Option Nat
  promise_le : ∀ s a, promise s ≤ promise (next s a)
  promise_le_answer : ∀ {s a n}, answer s a = some n → promise s ≤ n

namespace Promiser

variable {σ α : Type} (P : Promiser σ α)

/-- The state after the inputs `as`. -/
def run (s : σ) (as : List α) : σ := as.foldl P.next s

/-- The answers to the inputs `as`. -/
def answers (s : σ) : List α → List Nat
  | [] => []
  | a :: as => (P.answer s a).toList ++ answers (P.next s a) as

/-- Wherever the run is, what comes next keeps the answers in order. -/
def InOrder (s : σ) (as : List α) : Prop :=
  ∀ done, done <+: as → ∀ a, (P.answers s (done ++ [a])).Pairwise (· ≤ ·)

/-- Every answer of the run becomes a promise. -/
def Kept (s : σ) (as : List α) : Prop :=
  ∀ done a, done ++ [a] <+: as → ∀ n, P.answer (P.run s done) a = some n →
    n ≤ P.promise (P.next (P.run s done) a)

variable {P} {s : σ} {as : List α}

theorem run_concat (a : α) : P.run s (as ++ [a]) = P.next (P.run s as) a :=
  List.foldl_append

theorem answers_concat (a : α) :
    P.answers s (as ++ [a]) = P.answers s as ++ (P.answer (P.run s as) a).toList := by
  induction as generalizing s with
  | nil => exact List.append_nil _
  | cons b as ih =>
    rw [List.cons_append, answers, ih, answers, List.append_assoc]
    rfl

theorem Kept.mono {bs : List α} (h : P.Kept s as) (hbs : bs <+: as) : P.Kept s bs :=
  fun done a hdone => h done a (hdone.trans hbs)

/-- The promise bounds the answers that became promises. -/
theorem Kept.le_promise (h : P.Kept s as) : ∀ n ∈ P.answers s as, n ≤ P.promise (P.run s as) := by
  induction as using List.reverseRecOn with
  | nil => exact fun n hn => absurd hn List.not_mem_nil
  | append_singleton as a ih =>
    intro n hn
    rw [answers_concat, List.mem_append] at hn
    rw [run_concat]
    rcases hn with hn | hn
    · exact Nat.le_trans (ih (h.mono (List.prefix_append as [a])) n hn) (P.promise_le _ a)
    · exact h as a (List.prefix_refl _) n (Option.mem_toList.mp hn)

/-- One more answer keeps the order. -/
theorem Kept.pairwise_concat (h : P.Kept s as) (hsorted : (P.answers s as).Pairwise (· ≤ ·))
    (a : α) : (P.answers s (as ++ [a])).Pairwise (· ≤ ·) := by
  rw [answers_concat, List.pairwise_append]
  refine ⟨hsorted, ?_, ?_⟩
  · cases P.answer (P.run s as) a with
    | none => exact List.Pairwise.nil
    | some n => exact List.pairwise_singleton _ n
  · intro m hm n hn
    exact Nat.le_trans (h.le_promise m hm) (P.promise_le_answer (Option.mem_toList.mp hn))

theorem Kept.pairwise (h : P.Kept s as) : (P.answers s as).Pairwise (· ≤ ·) := by
  induction as using List.reverseRecOn with
  | nil => exact List.Pairwise.nil
  | append_singleton as a ih =>
    have hkept := h.mono (List.prefix_append as [a])
    exact hkept.pairwise_concat (ih hkept) a

/-- An answer that is not promised can be followed by a smaller one, as some input is
always answered with the promise itself. -/
theorem inOrder_iff (hleast : ∀ s, ∃ a, P.answer s a = some (P.promise s)) :
    P.InOrder s as ↔ P.Kept s as := by
  constructor
  · intro h done a hdone n hn
    obtain ⟨b, hb⟩ := hleast (P.next (P.run s done) a)
    have hsorted := h (done ++ [a]) hdone b
    rw [answers_concat, answers_concat, hn, run_concat, hb, List.pairwise_append] at hsorted
    exact hsorted.2.2 n (List.mem_append_right _ List.mem_cons_self) _ List.mem_cons_self
  · intro h done hdone a
    have hkept := h.mono hdone
    exact hkept.pairwise_concat hkept.pairwise a

end Promiser

end SmeltConsensus.Foundation.Promise
