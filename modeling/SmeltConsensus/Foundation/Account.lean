import SmeltConsensus.Foundation.Machine

/-!
Amortised counting along a run: what the steps cost is paid from a potential of the
state, from what the state has gained, or from credit that comes with a step.
-/

set_option autoImplicit false
set_option relaxedAutoImplicit false

namespace SmeltConsensus.Foundation.Account

open SmeltConsensus.Foundation.Machine

variable {σ α : Type} {next : σ → α → Option σ}

/-- What the steps of a schedule amount to. -/
def total (cost : α → Nat) : List α → Nat
  | [] => 0
  | a :: as => cost a + total cost as

@[simp] theorem total_nil (cost : α → Nat) : total cost [] = 0 := rfl

theorem total_cons (cost : α → Nat) (a : α) (as : List α) :
    total cost (a :: as) = cost a + total cost as := rfl

@[simp] theorem total_zero (as : List α) : total (fun _ => 0) as = 0 := by
  induction as with
  | nil => rfl
  | cons a as ih => rw [total_cons, ih]

theorem total_snoc (cost : α → Nat) (as : List α) (a : α) :
    total cost (as ++ [a]) = total cost as + cost a := by
  induction as with
  | nil => exact Nat.add_comm _ _
  | cons b as ih =>
    rw [List.cons_append, total_cons, total_cons, ih]
    omega

theorem total_mul (k : Nat) (cost : α → Nat) (as : List α) :
    total (fun a => k * cost a) as = k * total cost as := by
  induction as with
  | nil => rfl
  | cons a as ih =>
    rw [total_cons, total_cons, ih, Nat.mul_add]

theorem total_le {f g : α → Nat} {as : List α} (h : ∀ a ∈ as, f a ≤ g a) :
    total f as ≤ total g as := by
  induction as with
  | nil => exact Nat.le_refl _
  | cons a as ih =>
    have hrest := ih fun b hb => h b (List.mem_cons_of_mem _ hb)
    exact Nat.add_le_add (h a List.mem_cons_self) hrest

theorem total_lt {f g : α → Nat} {as : List α} (h : ∀ a ∈ as, f a ≤ g a) {a : α} (ha : a ∈ as)
    (hlt : f a < g a) : total f as < total g as := by
  induction as with
  | nil => cases ha
  | cons b as ih =>
    have hrest : ∀ c ∈ as, f c ≤ g c := fun c hc => h c (List.mem_cons_of_mem _ hc)
    rcases List.mem_cons.mp ha with rfl | ha
    · exact Nat.add_lt_add_of_lt_of_le hlt (total_le hrest)
    · exact Nat.add_lt_add_of_le_of_lt (h b List.mem_cons_self) (ih hrest ha)

theorem total_le_mul {f : α → Nat} {k : Nat} {as : List α} (h : ∀ a ∈ as, f a ≤ k) :
    total f as ≤ as.length * k := by
  induction as with
  | nil => exact Nat.zero_le _
  | cons a as ih =>
    have hrest := ih fun b hb => h b (List.mem_cons_of_mem _ hb)
    rw [List.length_cons, Nat.succ_mul, Nat.add_comm]
    exact Nat.add_le_add (h a List.mem_cons_self) hrest

/-- If no step costs more than it sets free, neither does a run. -/
theorem run_le {I : σ → Prop} (cost credit : α → Nat) (potential gain : σ → Nat)
    (hstep : ∀ s a s', I s → next s a = some s' → I s' ∧
      cost a + potential s' + gain s ≤ potential s + gain s' + credit a)
    {s s' : σ} {as : List α} (h : I s) (hrun : run next s as = some s') :
    total cost as + potential s' + gain s ≤ potential s + gain s' + total credit as := by
  have hI : ∀ t u : σ, ∀ a, I t → next t a = some u → I u := fun t u a ht hu =>
    (hstep t a u ht hu).1
  induction as using List.reverseRecOn generalizing s' with
  | nil =>
    obtain rfl := Option.some.inj hrun
    rw [total_nil, total_nil]
    omega
  | append_singleton as a ih =>
    rw [run_snoc, Option.bind_eq_some_iff] at hrun
    obtain ⟨t, ht, hlast⟩ := hrun
    have hbefore := ih ht
    have ht' : I t := run_invariant (fun t a u hIt hu => hI t u a hIt hu) h ht
    have hafter := (hstep t a s' ht' hlast).2
    rw [total_snoc, total_snoc]
    omega

end SmeltConsensus.Foundation.Account
