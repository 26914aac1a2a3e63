import Mathlib.Data.List.Induction
import Mathlib.Data.List.Infix

/-!
Machines given by a step function that is not defined where a step is not
enabled, their runs, and what a run keeps.
-/

set_option autoImplicit false
set_option relaxedAutoImplicit false

namespace SmeltConsensus.Foundation.Machine

variable {σ α : Type} (next : σ → α → Option σ)

/-- The state after a list of steps; a step that is not enabled ends the run. -/
def run (s : σ) (as : List α) : Option σ := as.foldlM next s

/-- The states that some run reaches. -/
def Reachable (init s : σ) : Prop := ∃ as, run next init as = some s

/-- Every step of a run meets the condition `G`. -/
def Guarded (G : σ → α → Prop) (s : σ) (as : List α) : Prop :=
  ∀ as' a s', as' ++ [a] <+: as → run next s as' = some s' → G s' a

variable {next}

@[simp] theorem run_nil (s : σ) : run next s [] = some s := rfl

theorem run_cons (s : σ) (a : α) (as : List α) :
    run next s (a :: as) = (next s a).bind fun s' => run next s' as := by
  rw [run, List.foldlM_cons]
  rfl

theorem run_append (s : σ) (as bs : List α) :
    run next s (as ++ bs) = (run next s as).bind fun s' => run next s' bs := by
  rw [run, List.foldlM_append]
  rfl

theorem run_snoc (s : σ) (as : List α) (a : α) :
    run next s (as ++ [a]) = (run next s as).bind fun s' => next s' a := by
  rw [run_append]
  congr 1
  funext s'
  rw [run_cons]
  cases next s' a with
  | none => rfl
  | some t => rfl

theorem Guarded.of_append {G : σ → α → Prop} {s : σ} {as bs : List α}
    (h : Guarded next G s (as ++ bs)) : Guarded next G s as :=
  fun as' a s' hp => h as' a s' (hp.trans (List.prefix_append as bs))

theorem guarded_nil (G : σ → α → Prop) (s : σ) : Guarded next G s [] := by
  intro as' a s' hp
  have hlen := hp.length_le
  rw [List.length_append, List.length_singleton, List.length_nil] at hlen
  omega

theorem Guarded.snoc {G : σ → α → Prop} {s t : σ} {as : List α} {a : α} (h : Guarded next G s as)
    (hrun : run next s as = some t) (ha : G t a) : Guarded next G s (as ++ [a]) := by
  intro as' b s' hp hs'
  rcases List.prefix_concat_iff.mp hp with heq | hp
  · obtain ⟨rfl, hb⟩ := List.append_inj' heq rfl
    obtain rfl := List.singleton_inj.mp hb
    rw [hrun] at hs'
    obtain rfl := Option.some.inj hs'
    exact ha
  · exact h as' b s' hp hs'

theorem guarded_cons_iff {G : σ → α → Prop} {s : σ} {a : α} {as : List α} :
    Guarded next G s (a :: as) ↔ G s a ∧ ∀ t ∈ next s a, Guarded next G t as := by
  constructor
  · intro h
    refine ⟨h [] a s (List.prefix_append [a] as) rfl, fun t ht as' b s' hp hrun => ?_⟩
    apply h (a :: as') b s' ((List.prefix_cons_inj a).mpr hp)
    rw [run_cons, Option.mem_def.mp ht]
    exact hrun
  · rintro ⟨ha, h⟩ as' b s' hp hrun
    cases as' with
    | nil =>
      obtain ⟨rfl, -⟩ := List.cons_prefix_cons.mp hp
      obtain rfl := Option.some.inj hrun
      exact ha
    | cons c as' =>
      obtain ⟨rfl, hrest⟩ := List.cons_prefix_cons.mp hp
      rw [run_cons, Option.bind_eq_some_iff] at hrun
      obtain ⟨t, ht, hrun⟩ := hrun
      exact h t ht as' b s' hrest hrun

theorem Guarded.cons {G : σ → α → Prop} {s t : σ} {a : α} {as : List α} (ha : G s a)
    (hstep : next s a = some t) (h : Guarded next G t as) : Guarded next G s (a :: as) := by
  refine guarded_cons_iff.mpr ⟨ha, fun u hu => ?_⟩
  rw [hstep] at hu
  obtain rfl := Option.mem_some.mp hu
  exact h

/-- Whether the steps of a run meet a condition is found out by doing them. -/
instance decidableGuarded {G : σ → α → Prop} [∀ s a, Decidable (G s a)] :
    (s : σ) → (as : List α) → Decidable (Guarded next G s as)
  | s, [] => isTrue (guarded_nil G s)
  | s, a :: as =>
    have : Decidable (∀ t ∈ next s a, Guarded next G t as) :=
      match next s a with
      | none => isTrue fun _ ht => nomatch ht
      | some t => @decidable_of_iff _ (Guarded next G t as)
          ⟨fun h _ ht => Option.mem_some.mp ht ▸ h, fun h => h t rfl⟩ (decidableGuarded t as)
    decidable_of_iff _ guarded_cons_iff.symm

/-- An invariant of the steps that meet a condition holds along a run of such steps. -/
theorem guarded_invariant {I : σ → Prop} {G : σ → α → Prop}
    (hstep : ∀ s a s', I s → G s a → next s a = some s' → I s') {s s' : σ} {as : List α}
    (h : I s) (hg : Guarded next G s as) (hrun : run next s as = some s') : I s' := by
  induction as using List.reverseRecOn generalizing s' with
  | nil =>
    obtain rfl := Option.some.inj hrun
    exact h
  | append_singleton as a ih =>
    rw [run_snoc, Option.bind_eq_some_iff] at hrun
    obtain ⟨t, ht, hlast⟩ := hrun
    apply hstep t a s' (ih hg.of_append ht) _ hlast
    exact hg as a t (List.prefix_refl _) ht

/-- A run whose steps meet a condition goes on to its end, if the invariant and the
condition enable each step. -/
theorem guarded_total {I : σ → Prop} {G : σ → α → Prop}
    (hstep : ∀ s a, I s → G s a → ∃ s', next s a = some s' ∧ I s') {s : σ} {as : List α}
    (h : I s) (hg : Guarded next G s as) : ∃ s', run next s as = some s' ∧ I s' := by
  induction as using List.reverseRecOn with
  | nil => exact ⟨s, rfl, h⟩
  | append_singleton as a ih =>
    obtain ⟨t, ht, hI⟩ := ih hg.of_append
    obtain ⟨s', hs', hI'⟩ := hstep t a hI (hg as a t (List.prefix_refl _) ht)
    refine ⟨s', ?_, hI'⟩
    rw [run_snoc, ht]
    exact hs'

/-- An invariant of every step holds along every run. -/
theorem run_invariant {I : σ → Prop} (hstep : ∀ s a s', I s → next s a = some s' → I s')
    {s s' : σ} {as : List α} (h : I s) (hrun : run next s as = some s') : I s' := by
  apply guarded_invariant (G := fun _ _ => True) _ h _ hrun
  · intro t a t' ht _ ha
    exact hstep t a t' ht ha
  · intro as' a t _ _
    trivial

/-- An invariant that holds at first holds in every reachable state. -/
theorem Reachable.invariant {I : σ → Prop} {init s : σ} (hr : Reachable next init s)
    (hinit : I init) (hstep : ∀ s a s', I s → next s a = some s' → I s') : I s := by
  obtain ⟨as, has⟩ := hr
  exact run_invariant hstep hinit has

theorem Reachable.refl (init : σ) : Reachable next init init := ⟨[], rfl⟩

/-- The last state of a run. -/
theorem reachable_of_run {init : σ} (as : List α) (h : (run next init as).isSome) :
    Reachable next init ((run next init as).get h) := ⟨as, (Option.some_get h).symm⟩

theorem Reachable.step {init s s' : σ} {a : α} (hr : Reachable next init s)
    (ha : next s a = some s') : Reachable next init s' := by
  obtain ⟨as, has⟩ := hr
  refine ⟨as ++ [a], ?_⟩
  rw [run_snoc, has]
  exact ha

theorem Reachable.run {init s s' : σ} {as : List α} (hr : Reachable next init s)
    (has : run next s as = some s') : Reachable next init s' := by
  obtain ⟨bs, hbs⟩ := hr
  refine ⟨bs ++ as, ?_⟩
  rw [run_append, hbs]
  exact has

end SmeltConsensus.Foundation.Machine
