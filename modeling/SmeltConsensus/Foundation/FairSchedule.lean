import SmeltConsensus.Foundation.Machine

/-!
Schedules that give a turn to every party of a machine again and again. A party whose
step is not enabled spins. If in every state that is not done some party can bring the
state closer to the end, and nobody takes it back, then enough rounds get there.
-/

set_option autoImplicit false
set_option relaxedAutoImplicit false

namespace SmeltConsensus.Foundation.FairSchedule

variable {σ α P : Type}

/-- The turn of party `p`, whose next step is `act p`. -/
def turn (next : σ → α → Option σ) (act : P → α) (s : σ) (p : P) : σ :=
  (next s (act p)).getD s

/-- The state after the turns of a schedule. -/
def exec (next : σ → α → Option σ) (act : P → α) (s : σ) (ps : List P) : σ :=
  ps.foldl (turn next act) s

/-- A round has a turn for every party. -/
def Round (ps : List P) : Prop := ∀ p, p ∈ ps

/-- Progress towards `Done` as it is measured by `rank`; `Helps s p` says that the next step of `p`
brings it down. -/
structure Ranked (next : σ → α → Option σ) (act : P → α) (I Done : σ → Prop) (rank : σ → Nat)
    (Helps : σ → P → Prop) : Prop where
  invariant : ∀ s p s', I s → next s (act p) = some s' → I s'
  stable : ∀ s p s', I s → Done s → next s (act p) = some s' → Done s'
  le : ∀ s p s', I s → next s (act p) = some s' → rank s' ≤ rank s
  /-- A party that helps does so until it gets its turn, or another one has helped. -/
  keeps : ∀ s p q s', I s → Helps s p → p ≠ q → next s (act q) = some s' →
    rank s' < rank s ∨ Helps s' p
  helps : ∀ s p, I s → Helps s p → ∃ s', next s (act p) = some s' ∧ rank s' < rank s
  exists_helps : ∀ s, I s → ¬ Done s → ∃ p, Helps s p

variable {next : σ → α → Option σ} {act : P → α} {I Done : σ → Prop} {rank : σ → Nat}
  {Helps : σ → P → Prop}

theorem exec_cons (s : σ) (p : P) (ps : List P) :
    exec next act s (p :: ps) = exec next act (turn next act s p) ps := rfl

theorem exec_append (s : σ) (ps qs : List P) :
    exec next act s (ps ++ qs) = exec next act (exec next act s ps) qs := List.foldl_append

/-- What every step keeps, every turn keeps. -/
theorem turn_keeps {K : σ → Prop} {s : σ} {p : P}
    (hstep : ∀ s', next s (act p) = some s' → K s') (hs : K s) : K (turn next act s p) := by
  unfold turn
  cases h : next s (act p) with
  | none => exact hs
  | some s' => exact hstep s' h

namespace Ranked

theorem turn_invariant (h : Ranked next act I Done rank Helps) {s : σ} (hs : I s) (p : P) :
    I (turn next act s p) := turn_keeps (h.invariant s p · hs) hs

theorem exec_invariant (h : Ranked next act I Done rank Helps) {s : σ} (hs : I s) (ps : List P) :
    I (exec next act s ps) := by
  induction ps generalizing s with
  | nil => exact hs
  | cons p ps ih => exact ih (h.turn_invariant hs p)

theorem exec_stable (h : Ranked next act I Done rank Helps) {s : σ} (hs : I s) (hdone : Done s)
    (ps : List P) : Done (exec next act s ps) := by
  induction ps generalizing s with
  | nil => exact hdone
  | cons p ps ih =>
    exact ih (h.turn_invariant hs p) (turn_keeps (h.stable s p · hs hdone) hdone)

theorem turn_le (h : Ranked next act I Done rank Helps) {s : σ} (hs : I s) (p : P) :
    rank (turn next act s p) ≤ rank s :=
  turn_keeps (K := fun t => rank t ≤ rank s) (h.le s p · hs) (Nat.le_refl _)

theorem exec_le (h : Ranked next act I Done rank Helps) {s : σ} (hs : I s) (ps : List P) :
    rank (exec next act s ps) ≤ rank s := by
  induction ps generalizing s with
  | nil => exact Nat.le_refl _
  | cons p ps ih => exact (ih (h.turn_invariant hs p)).trans (h.turn_le hs p)

/-- The turn of a party that helps comes in every round that names it. -/
theorem exec_lt_of_helps (h : Ranked next act I Done rank Helps) {s : σ} (hs : I s) {p : P}
    (hp : Helps s p) {ps : List P} (hmem : p ∈ ps) : rank (exec next act s ps) < rank s := by
  induction ps generalizing s with
  | nil => cases hmem
  | cons q ps ih =>
    rw [exec_cons]
    by_cases hq : p = q
    · subst hq
      obtain ⟨s', hstep, hlt⟩ := h.helps s p hs hp
      have hturn : turn next act s p = s' := by
        rw [turn, hstep]
        rfl
      rw [hturn]
      exact Nat.lt_of_le_of_lt (h.exec_le (h.invariant s p s' hs hstep) ps) hlt
    · have hmem' : p ∈ ps := (List.mem_cons.mp hmem).resolve_left hq
      have hturn : rank (turn next act s q) < rank s ∨ Helps (turn next act s q) p :=
        turn_keeps (K := fun t => rank t < rank s ∨ Helps t p) (h.keeps s p q · hs hp hq) (.inr hp)
      have hI := h.turn_invariant hs q
      rcases hturn with hlt | hhelps
      · exact Nat.lt_of_le_of_lt (h.exec_le hI ps) hlt
      · exact Nat.lt_of_lt_of_le (ih hI hhelps hmem') (h.turn_le hs q)

/-- A round that does not finish brings the rank down. -/
theorem round_lt (h : Ranked next act I Done rank Helps) {s : σ} (hs : I s) {ps : List P}
    (hround : Round ps) (hdone : ¬ Done s) : rank (exec next act s ps) < rank s := by
  obtain ⟨p, hp⟩ := h.exists_helps s hs hdone
  exact h.exec_lt_of_helps hs hp (hround p)

/-- After as many rounds as the rank, everything is done. -/
theorem done_of_rounds (h : Ranked next act I Done rank Helps) {s : σ} (hs : I s)
    {rounds : List (List P)} (hrounds : ∀ ps ∈ rounds, Round ps) (hlen : rank s ≤ rounds.length) :
    Done (exec next act s rounds.flatten) := by
  induction rounds generalizing s with
  | nil =>
    by_contra hdone
    obtain ⟨p, hp⟩ := h.exists_helps s hs hdone
    obtain ⟨s', -, hlt⟩ := h.helps s p hs hp
    exact Nat.not_lt_zero _ (Nat.lt_of_lt_of_le hlt hlen)
  | cons ps rounds ih =>
    rw [List.flatten_cons, exec_append]
    have hps : Round ps := hrounds ps List.mem_cons_self
    by_cases hdone : Done s
    · exact h.exec_stable (h.exec_invariant hs ps) (h.exec_stable hs hdone ps) _
    · have hlt := h.round_lt hs hps hdone
      apply ih (h.exec_invariant hs ps) fun qs hqs => hrounds qs (List.mem_cons_of_mem _ hqs)
      rw [List.length_cons] at hlen
      omega

end Ranked

end SmeltConsensus.Foundation.FairSchedule
