import Mathlib.Data.List.Induction
import SmeltConsensus.SharedQueue.Queue

/-!
What the shared-memory queue delivers. The writer waits for the readers at slot
0 only, and a reader still at slot 0 when the last slot is written loses a lap;
that is the one way in which a run fails.
-/

set_option autoImplicit false
set_option relaxedAutoImplicit false

namespace SmeltConsensus.SharedQueue.Delivery

open SmeltConsensus.Foundation.Ring
open SmeltConsensus.SharedQueue.Queue

variable {α : Type} {R : Nat}

/-- What reader `i` executes if it now runs alone: the slot it holds, then the ring. -/
def outstanding (s : State α R) (i : Fin R) : List α :=
  ((s.cmd i).map s.queue.shm).toList ++
    window s.queue.numSlots s.queue.shm (s.queue.readersPos i) s.queue.writePos

/-- Every reader has executed the commands written, in order, up to those outstanding for it. -/
def Delivered (s : State α R) : Prop :=
  ∀ i, s.executed i ++ outstanding s i = s.written

/-- A command goes into the last slot only once every reader has left slot 0. -/
def Synced (s : State α R) : Step α R → Prop
  | .write _ => s.queue.writePos + 1 = s.queue.numSlots → ∀ i, s.queue.readersPos i ≠ 0
  | .read _ => True
  | .execute _ => True

/-- One turn of the loop of `poll_and_execute` with a command in the ring. -/
private theorem turn_eq {s : State α R} {i : Fin R} (hnone : s.cmd i = none)
    (hmore : s.queue.readersPos i ≠ s.queue.writePos) (as : List (Step α R)) :
    run s (.read i :: .execute i :: as) = run { s with
      queue := s.queue.advance i
      executed := Function.update s.executed i
        (s.executed i ++ [s.queue.shm (s.queue.readersPos i)]) } as := by
  have hread : step s (.read i) = some { s with
      queue := s.queue.advance i
      cmd := Function.update s.cmd i (some (s.queue.readersPos i)) } := by
    rw [step, if_pos hnone, shmRead, if_neg hmore]
  rw [run_cons, hread, Option.bind_some, run_cons, step]
  simp only [Function.update_self, Option.map_some, Option.bind_some, Function.update_idem]
  rw [← hnone, Function.update_eq_self]
  rfl

private theorem ring_alone {s : State α R} {i : Fin R}
    (hr : s.queue.readersPos i < s.queue.numSlots) (hw : s.queue.writePos < s.queue.numSlots)
    (hnone : s.cmd i = none) :
    ∃ as s', (∀ a ∈ as, a = .read i ∨ a = .execute i) ∧ run s as = some s' ∧
      s'.cmd i = none ∧ (shmRead s'.queue i).1 = none ∧
      s'.executed i = s.executed i ++ outstanding s i := by
  generalize hk : distance s.queue.numSlots (s.queue.readersPos i) s.queue.writePos = k
  induction k generalizing s with
  | zero =>
    have heq : s.queue.readersPos i = s.queue.writePos := by
      unfold distance at hk
      split_ifs at hk <;> omega
    refine ⟨[], s, by simp, rfl, hnone, by rw [shmRead, if_pos heq], ?_⟩
    rw [outstanding, hnone, heq, window_self]
    simp
  | succ k ih =>
    have hmore : s.queue.readersPos i ≠ s.queue.writePos := by
      intro heq
      rw [heq] at hk
      simp [distance] at hk
    have hpop := window_pop s.queue.shm hr hw hmore
    have hpos : (s.queue.advance i).readersPos i =
        next s.queue.numSlots (s.queue.readersPos i) := Function.update_self _ _ _
    obtain ⟨as, s', has, hrun, hcmd, hnull, hex⟩ := @ih { s with
      queue := s.queue.advance i
      executed := Function.update s.executed i
        (s.executed i ++ [s.queue.shm (s.queue.readersPos i)]) }
      (hpos ▸ next_lt hr) hw hnone (by
        have hlen := congrArg List.length hpop
        rw [List.length_cons, window_length, window_length, hk] at hlen
        show distance s.queue.numSlots ((s.queue.advance i).readersPos i) s.queue.writePos = k
        rw [hpos]
        omega)
    refine ⟨.read i :: .execute i :: as, s', ?_, ?_, hcmd, hnull, ?_⟩
    · simp only [List.mem_cons, forall_eq_or_imp, true_or, or_true, true_and]
      exact has
    · rw [turn_eq hnone hmore, hrun]
    · rw [hex, outstanding, outstanding, hnone, hpop]
      show Function.update s.executed i _ i ++ (_ ++ window s.queue.numSlots s.queue.shm
        ((s.queue.advance i).readersPos i) s.queue.writePos) = _
      rw [Function.update_self, hpos]
      simp

/-- Reader `i` running alone until `shm_read` returns null executes what is outstanding for it. -/
theorem reader_alone {s : State α R} {i : Fin R}
    (hr : s.queue.readersPos i < s.queue.numSlots) (hw : s.queue.writePos < s.queue.numSlots) :
    ∃ as s', (∀ a ∈ as, a = .read i ∨ a = .execute i) ∧ run s as = some s' ∧
      s'.cmd i = none ∧ (shmRead s'.queue i).1 = none ∧
      s'.executed i = s.executed i ++ outstanding s i := by
  cases hcmd : s.cmd i with
  | none => exact ring_alone hr hw hcmd
  | some p =>
    obtain ⟨as, s', has, hrun, hrest⟩ := ring_alone (s := { s with
      cmd := Function.update s.cmd i none
      executed := Function.update s.executed i (s.executed i ++ [s.queue.shm p]) })
      hr hw (Function.update_self _ _ _)
    refine ⟨.execute i :: as, s', ?_, ?_, hrest.1, hrest.2.1, ?_⟩
    · intro a ha
      rcases List.mem_cons.mp ha with rfl | ha
      · exact Or.inr rfl
      · exact has a ha
    · rw [run_cons, step, hcmd]
      exact hrun
    · rw [hrest.2.2, outstanding, outstanding, hcmd]
      simp

/-- What holds along a run whose steps are all synced. -/
structure Invariant (s : State α R) : Prop where
  numSlots : 2 ≤ s.queue.numSlots
  writePos_lt : s.queue.writePos < s.queue.numSlots
  readersPos_lt : ∀ i, s.queue.readersPos i < s.queue.numSlots
  behind : ∀ i, s.queue.readersPos i ≤ s.queue.writePos ∨ s.queue.writePos = 0
  held : ∀ i p, s.cmd i = some p →
    p < s.queue.numSlots ∧ next s.queue.numSlots p = s.queue.readersPos i
  delivered : Delivered s

theorem init_invariant {numSlots : Nat} (h : 2 ≤ numSlots) (shm : Nat → α) :
    Invariant (init numSlots shm : State α R) where
  numSlots := h
  writePos_lt := Nat.lt_of_lt_of_le Nat.zero_lt_two h
  readersPos_lt _ := Nat.lt_of_lt_of_le Nat.zero_lt_two h
  behind _ := Or.inl (Nat.le_refl 0)
  held i p hp := by simp [init] at hp
  delivered i := by simp [init, outstanding]

/-- A synced write ends short of every reader. -/
private theorem next_ne_readersPos {s : State α R} (hs : Invariant s)
    (hwait : s.queue.writePos = 0 → ∀ i, s.queue.readersPos i = 0) {c : α}
    (hsync : Synced s (.write c)) (i : Fin R) :
    next s.queue.numSlots s.queue.writePos ≠ s.queue.readersPos i := by
  have h2 := hs.numSlots
  rw [next_eq hs.writePos_lt]
  split
  · rename_i hlast
    exact (hsync hlast i).symm
  · rcases hs.behind i with hle | h0
    · omega
    · have hr := hwait h0 i
      omega

private theorem write_invariant {s : State α R} (hs : Invariant s) {c : α}
    (hwait : s.queue.writePos = 0 → ∀ i, s.queue.readersPos i = 0)
    (hsync : Synced s (.write c)) :
    Invariant { s with queue := s.queue.put c, written := s.written ++ [c] } where
  numSlots := hs.numSlots
  writePos_lt := next_lt hs.writePos_lt
  readersPos_lt := hs.readersPos_lt
  behind i := by
    show s.queue.readersPos i ≤ next _ _ ∨ next _ _ = 0
    rw [next_eq hs.writePos_lt]
    split
    · right
      rfl
    · left
      rcases hs.behind i with hle | h0
      · omega
      · rw [hwait h0 i]
        exact Nat.zero_le _
  held := hs.held
  delivered i := by
    have hne := next_ne_readersPos hs hwait hsync i
    have hkept : (s.cmd i).map (Function.update s.queue.shm s.queue.writePos c) =
        (s.cmd i).map s.queue.shm := by
      cases hcmd : s.cmd i with
      | none => rfl
      | some p =>
        -- the held slot is the one before the reader's position, not the one written
        have hp : p ≠ s.queue.writePos := by
          rintro rfl
          exact hne (hs.held i _ hcmd).2
        rw [Option.map_some, Option.map_some, Function.update_of_ne hp]
    have hpush := window_push s.queue.shm c (hs.readersPos_lt i) hs.writePos_lt hne
    show s.executed i ++ (((s.cmd i).map (Function.update s.queue.shm s.queue.writePos c)).toList ++
      window s.queue.numSlots (Function.update s.queue.shm s.queue.writePos c)
        (s.queue.readersPos i) (next s.queue.numSlots s.queue.writePos)) = s.written ++ [c]
    rw [hkept, hpush, ← List.append_assoc _ _ [c], ← List.append_assoc, ← hs.delivered i]
    rfl

private theorem read_invariant {s : State α R} (hs : Invariant s) {i : Fin R}
    (hnone : s.cmd i = none) (hmore : s.queue.readersPos i ≠ s.queue.writePos) :
    Invariant { s with
      queue := s.queue.advance i
      cmd := Function.update s.cmd i (some (s.queue.readersPos i)) } where
  numSlots := hs.numSlots
  writePos_lt := hs.writePos_lt
  readersPos_lt j := by
    show Function.update s.queue.readersPos i _ j < _
    by_cases hj : j = i
    · rw [hj, Function.update_self]
      exact next_lt (hs.readersPos_lt i)
    · rw [Function.update_of_ne hj]
      exact hs.readersPos_lt j
  behind j := by
    show Function.update s.queue.readersPos i _ j ≤ s.queue.writePos ∨ s.queue.writePos = 0
    by_cases hj : j = i
    · rw [hj, Function.update_self, next_eq (hs.readersPos_lt i)]
      rcases hs.behind i with hle | h0
      · left
        split <;> omega
      · right
        exact h0
    · rw [Function.update_of_ne hj]
      exact hs.behind j
  held j p hp := by
    show _ ∧ _ = Function.update s.queue.readersPos i _ j
    by_cases hj : j = i
    · subst hj
      simp only [Function.update_self, Option.some.injEq] at hp ⊢
      subst hp
      exact ⟨hs.readersPos_lt j, rfl⟩
    · simp only [Function.update_of_ne hj] at hp ⊢
      exact hs.held j p hp
  delivered j := by
    have hold := hs.delivered j
    show s.executed j ++ (((Function.update s.cmd i _ j).map s.queue.shm).toList ++
      window _ s.queue.shm (Function.update s.queue.readersPos i _ j) _) = s.written
    by_cases hj : j = i
    · subst hj
      rw [outstanding, hnone, window_pop _ (hs.readersPos_lt j) hs.writePos_lt hmore] at hold
      rw [Function.update_self, Function.update_self]
      exact hold
    · rw [Function.update_of_ne hj, Function.update_of_ne hj]
      exact hold

private theorem execute_invariant {s : State α R} (hs : Invariant s) {i : Fin R} {p : Nat}
    (hp : s.cmd i = some p) :
    Invariant { s with
      cmd := Function.update s.cmd i none
      executed := Function.update s.executed i (s.executed i ++ [s.queue.shm p]) } where
  numSlots := hs.numSlots
  writePos_lt := hs.writePos_lt
  readersPos_lt := hs.readersPos_lt
  behind := hs.behind
  held j q hq := by
    by_cases hj : j = i
    · simp only [hj, Function.update_self, reduceCtorEq] at hq
    · simp only [Function.update_of_ne hj] at hq
      exact hs.held j q hq
  delivered j := by
    have hold := hs.delivered j
    show Function.update s.executed i _ j ++ (((Function.update s.cmd i none j).map
      s.queue.shm).toList ++ window _ _ (s.queue.readersPos j) _) = s.written
    by_cases hj : j = i
    · subst hj
      rw [outstanding, hp] at hold
      rw [Function.update_self, Function.update_self, List.append_assoc]
      exact hold
    · rw [Function.update_of_ne hj, Function.update_of_ne hj]
      exact hold

theorem step_invariant {s s' : State α R} {a : Step α R} (hs : Invariant s)
    (hsync : Synced s a) (h : step s a = some s') : Invariant s' := by
  obtain ⟨c, rfl, hwait, rfl⟩ | ⟨i, rfl, -, -, rfl⟩ | ⟨i, rfl, hnone, hmore, rfl⟩ |
    ⟨i, p, rfl, hp, rfl⟩ := step_cases h
  · exact write_invariant hs hwait hsync
  · exact hs
  · exact read_invariant hs hnone hmore
  · exact execute_invariant hs hp

/-- A write into the last slot with a reader at slot 0 leaves that reader an empty ring. -/
theorem not_delivered_of_not_synced {s s' : State α R} {a : Step α R} (hs : Invariant s)
    (hsync : ¬ Synced s a) (h : step s a = some s') : ¬ Delivered s' := by
  obtain ⟨c, rfl, hwait, rfl⟩ | ⟨i, rfl, -⟩ | ⟨i, rfl, -⟩ | ⟨i, p, rfl, -⟩ := step_cases h
  · simp only [Synced, not_forall, Classical.not_not] at hsync
    obtain ⟨hlast, i, hr⟩ := hsync
    intro hd
    have h2 := hs.numSlots
    have hold := congrArg List.length (hs.delivered i)
    have hnew : (s.executed i ++ (((s.cmd i).map (s.queue.put c).shm).toList ++
        window s.queue.numSlots (s.queue.put c).shm (s.queue.readersPos i)
          (next s.queue.numSlots s.queue.writePos))).length = (s.written ++ [c]).length :=
      congrArg List.length (hd i)
    rw [next_eq hs.writePos_lt, if_pos hlast, hr, window_self] at hnew
    rw [outstanding, hr] at hold
    -- the ring held `numSlots - 1` commands, and now none
    have hdist : distance s.queue.numSlots 0 s.queue.writePos = s.queue.writePos := by
      simp [distance]
    cases hcmd : s.cmd i <;>
      simp [hcmd, hdist] at hold hnew <;> omega
  · exact absurd trivial hsync
  · exact absurd trivial hsync
  · exact absurd trivial hsync

/-- Every step of the run is synced. -/
def SyncedRun (s : State α R) (as : List (Step α R)) : Prop :=
  ∀ as' a s', as' ++ [a] <+: as → run s as' = some s' → Synced s' a

theorem run_invariant {s s' : State α R} {as : List (Step α R)} (hs : Invariant s)
    (hsync : SyncedRun s as) (h : run s as = some s') : Invariant s' := by
  induction as using List.reverseRecOn generalizing s' with
  | nil => exact Option.some.inj h ▸ hs
  | append_singleton as a ih =>
    rw [run_snoc, Option.bind_eq_some_iff] at h
    obtain ⟨s₁, h₁, h₂⟩ := h
    have hpre : SyncedRun s as := fun as' b s₂ hp => hsync as' b s₂ (hp.trans (List.prefix_append _ _))
    exact step_invariant (ih hpre h₁) (hsync as a s₁ (List.prefix_refl _) h₁) h₂

/-- The queue delivers in every state of a run exactly if every step of the run is synced. -/
theorem delivered_iff_synced {numSlots : Nat} (h2 : 2 ≤ numSlots) (shm : Nat → α)
    (as : List (Step α R)) (hrun : (run (init numSlots shm) as).isSome) :
    (∀ as' s', as' <+: as → run (init numSlots shm) as' = some s' → Delivered s') ↔
      SyncedRun (init numSlots shm) as := by
  have hinit := init_invariant (R := R) h2 shm
  constructor
  · intro hd
    induction as using List.reverseRecOn with
    | nil =>
      intro as' a s' hp
      exact absurd (List.prefix_nil.mp hp) (by simp)
    | append_singleton as a ih =>
      obtain ⟨s₂, h⟩ := Option.isSome_iff_exists.mp hrun
      rw [run_snoc, Option.bind_eq_some_iff] at h
      obtain ⟨s₁, h₁, h₂⟩ := h
      have hsync := ih (Option.isSome_iff_exists.mpr ⟨s₁, h₁⟩) fun as' s' hp =>
        hd as' s' (hp.trans (List.prefix_append _ _))
      intro as' b s' hp hs'
      rcases List.prefix_concat_iff.mp hp with heq | hp
      · obtain ⟨rfl, hb⟩ := List.append_inj' heq rfl
        obtain rfl := List.singleton_inj.mp hb
        obtain rfl := Option.some.inj (h₁.symm.trans hs')
        by_contra hnot
        have hlast : run (init numSlots shm) (as' ++ [b]) = some s₂ := by
          rw [run_snoc, h₁]
          exact h₂
        exact not_delivered_of_not_synced (run_invariant hinit hsync h₁) hnot h₂
          (hd _ s₂ (List.prefix_refl _) hlast)
      · exact hsync as' b s' hp hs'
  · intro hsync as' s' hp h
    exact (run_invariant hinit (fun b a s₁ hb => hsync b a s₁ (hb.trans hp)) h).delivered

theorem delivered_iff_synced_one_lap :
    (∀ as' s', as' <+: [.write 7, .read 0, .execute 0, .write 8] →
        run (init 2 (fun _ => 0) : State Nat 1) as' = some s' → Delivered s') ↔
      SyncedRun (init 2 (fun _ => 0) : State Nat 1) [.write 7, .read 0, .execute 0, .write 8] :=
  delivered_iff_synced (by decide) _ _ rfl

/-- Two slots, one reader that does not run: both commands written are lost. -/
theorem last_slot_write_loses_lap :
    ∃ s : State Nat 1, run (init 2 fun _ => 0) [.write 1, .write 2] = some s ∧
      s.written = [1, 2] ∧ s.executed 0 = [] ∧ s.cmd 0 = none ∧
      (shmRead s.queue 0).1 = none ∧ ¬ Delivered s := by
  refine ⟨_, rfl, rfl, rfl, rfl, rfl, ?_⟩
  intro hd
  have h := hd 0
  exact absurd (congrArg List.length h) (by decide)

end SmeltConsensus.SharedQueue.Delivery
