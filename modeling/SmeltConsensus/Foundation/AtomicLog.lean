import Mathlib.Data.List.TakeDrop
import Mathlib.Logic.Function.Basic
import SmeltConsensus.Foundation.Machine

/-!
An atomic log: clients invoke operations, the service puts them into one log, one after
another, and answers each client in the order of its operations. What the clients see of any
run is linearizable in the order of the log.
-/

set_option autoImplicit false
set_option relaxedAutoImplicit false

namespace SmeltConsensus.Foundation.AtomicLog

open SmeltConsensus.Foundation.Machine

variable {κ γ ρ : Type}

/-- Whose an operation is, and what its client is answered. -/
structure Service (κ γ ρ : Type) where
  client : γ → κ
  answer : γ → ρ

/-- What a client sees: it invokes an operation or it gets a reply. -/
inductive Visible (κ γ ρ : Type)
  | invoke (c : γ)
  | reply (k : κ) (r : ρ)
  deriving DecidableEq

variable [DecidableEq κ]

/-- The replies that client `k` got. -/
def replies (k : κ) : List (Visible κ γ ρ) → List ρ
  | [] => []
  | .invoke _ :: h => replies k h
  | .reply k' r :: h => if k' = k then r :: replies k h else replies k h

theorem replies_append (k : κ) (h h' : List (Visible κ γ ρ)) :
    replies k (h ++ h') = replies k h ++ replies k h' := by
  induction h with
  | nil => rfl
  | cons e h ih =>
    cases e with
    | invoke c => exact ih
    | reply k' r =>
      rw [List.cons_append, replies, replies, ih]
      split <;> rfl

variable (S : Service κ γ ρ)

/-- The operations of client `k` among `cs`. -/
def opsOf (k : κ) (cs : List γ) : List γ := cs.filter (S.client · = k)

/-- The operations that client `k` invoked. -/
def invoked (k : κ) : List (Visible κ γ ρ) → List γ
  | [] => []
  | .invoke c :: h => if S.client c = k then c :: invoked k h else invoked k h
  | .reply _ _ :: h => invoked k h

/-- Place `i` of the log holds operation `n` of client `k`, counted from 0. -/
def Holds (log : List γ) (k : κ) (n i : Nat) : Prop :=
  log[i]?.map S.client = some k ∧ (opsOf S k (log.take i)).length = n

/-- Operation `n` of `k` was answered before operation `m` of `k'` was invoked. -/
def Precedes (h : List (Visible κ γ ρ)) (k : κ) (n : Nat) (k' : κ) (m : Nat) : Prop :=
  ∃ h₁ h₂, h = h₁ ++ h₂ ∧ n < (replies k h₁).length ∧ (invoked S k' h₁).length ≤ m

/-- The log is an order of the operations that explains what the clients saw: each client's
operations are in its order, its replies are the answers to the first of them, and an operation
that was answered before another one was invoked stands before it. -/
structure Linearizes (log : List γ) (h : List (Visible κ γ ρ)) : Prop where
  invoked : ∀ k, opsOf S k log <+: invoked S k h
  answered : ∀ k, replies k h <+: (opsOf S k log).map S.answer
  realTime : ∀ k n k' m i, Precedes S h k n k' m → Holds S log k' m i →
    ∃ j, j < i ∧ Holds S log k n j

section Histories

variable {S}

theorem opsOf_append (k : κ) (cs ds : List γ) :
    opsOf S k (cs ++ ds) = opsOf S k cs ++ opsOf S k ds := List.filter_append _ _

theorem opsOf_self (c : γ) : opsOf S (S.client c) [c] = [c] := by
  simp [opsOf]

theorem opsOf_of_ne {k : κ} {c : γ} (h : S.client c ≠ k) : opsOf S k [c] = [] := by
  simp [opsOf, h]

theorem invoked_append (k : κ) (h h' : List (Visible κ γ ρ)) :
    invoked S k (h ++ h') = invoked S k h ++ invoked S k h' := by
  induction h with
  | nil => rfl
  | cons e h ih =>
    cases e with
    | invoke c =>
      rw [List.cons_append, invoked, invoked, ih]
      split <;> rfl
    | reply k' r => exact ih

/-- The operations of a client in the log are numbered without a gap. -/
theorem exists_holds {log : List γ} {k : κ} {n : Nat} (hn : n < (opsOf S k log).length) :
    ∃ i, i < log.length ∧ Holds S log k n i := by
  induction log using List.reverseRecOn with
  | nil => exact absurd hn (Nat.not_lt_zero n)
  | append_singleton log c ih =>
    by_cases hlt : n < (opsOf S k log).length
    · obtain ⟨i, hi, hclient, hcount⟩ := ih hlt
      refine ⟨i, by simp; omega, ?_, ?_⟩
      · rw [List.getElem?_append_left hi]
        exact hclient
      · rw [List.take_append_of_le_length (Nat.le_of_lt hi)]
        exact hcount
    · have hc : S.client c = k := by
        by_contra hne
        rw [opsOf_append, opsOf_of_ne hne, List.append_nil] at hn
        exact hlt hn
      subst hc
      rw [opsOf_append, opsOf_self, List.length_append, List.length_singleton] at hn
      refine ⟨log.length, by simp, ?_, ?_⟩
      · rw [List.getElem?_concat_length]
        rfl
      · rw [List.take_left']
        · omega
        · rfl

/-- If every moment of a history divides the log into what is answered by then and what is not
yet invoked, the log respects real time. -/
theorem realTime_of_cuts {log : List γ} {h : List (Visible κ γ ρ)}
    (hcut : ∀ h₁ h₂, h = h₁ ++ h₂ → ∃ l, l <+: log ∧ ∀ k,
      (replies k h₁).length ≤ (opsOf S k l).length ∧
        (opsOf S k l).length ≤ (invoked S k h₁).length)
    {k k' : κ} {n m i : Nat} (hprec : Precedes S h k n k' m) (hi : Holds S log k' m i) :
    ∃ j, j < i ∧ Holds S log k n j := by
  obtain ⟨h₁, h₂, hsplit, hanswered, hlater⟩ := hprec
  obtain ⟨l, ⟨rest, rfl⟩, hl⟩ := hcut h₁ h₂ hsplit
  obtain ⟨j, hj, hclient, hcount⟩ := exists_holds (hanswered.trans_le (hl k).1)
  have hle : l.length ≤ i := by
    by_contra hlt
    have hlt : i < l.length := Nat.lt_of_not_le hlt
    obtain ⟨hthere, hbefore⟩ := hi
    rw [List.getElem?_append_left hlt] at hthere
    rw [List.take_append_of_le_length (Nat.le_of_lt hlt)] at hbefore
    obtain ⟨c, hc, hk⟩ := Option.map_eq_some_iff.mp hthere
    have hpart : (opsOf S k' (l.take (i + 1))).length ≤ (opsOf S k' l).length :=
      ((List.take_sublist _ _).filter _).length_le
    rw [List.take_add_one, hc, Option.toList_some, opsOf_append, ← hk, opsOf_self,
      List.length_append, List.length_singleton, hk, hbefore] at hpart
    have hinvoked := (hl k').2
    omega
  refine ⟨j, hj.trans_le hle, ?_, ?_⟩
  · rw [List.getElem?_append_left hj]
    exact hclient
  · rw [List.take_append_of_le_length (Nat.le_of_lt hj)]
    exact hcount

end Histories

/-- The state of the service: its log, what each client invoked and how many of its operations
are answered. -/
structure State (κ γ : Type) where
  log : List γ
  invoked : κ → List γ
  replied : κ → Nat

/-- The service before its first operation. -/
def State.empty : State κ γ := ⟨[], fun _ => [], fun _ => 0⟩

namespace State

/-- Client `k` invokes `cs`. -/
def invoking (s : State κ γ) (k : κ) (cs : List γ) : State κ γ :=
  { s with invoked := Function.update s.invoked k (s.invoked k ++ cs) }

/-- The log grows by `cs`. -/
def logging (s : State κ γ) (cs : List γ) : State κ γ := { s with log := s.log ++ cs }

/-- Client `k` is answered `n` operations. -/
def replying (s : State κ γ) (k : κ) (n : Nat) : State κ γ :=
  { s with replied := Function.update s.replied k (s.replied k + n) }

theorem invoking_self (s : State κ γ) (k : κ) (cs : List γ) :
    (s.invoking k cs).invoked k = s.invoked k ++ cs := Function.update_self ..

theorem invoking_of_ne (s : State κ γ) {k k' : κ} (h : k' ≠ k) (cs : List γ) :
    (s.invoking k cs).invoked k' = s.invoked k' := Function.update_of_ne h ..

theorem replying_self (s : State κ γ) (k : κ) (n : Nat) :
    (s.replying k n).replied k = s.replied k + n := Function.update_self ..

theorem replying_of_ne (s : State κ γ) {k k' : κ} (h : k' ≠ k) (n : Nat) :
    (s.replying k n).replied k' = s.replied k' := Function.update_of_ne h ..

theorem invoking_nil (s : State κ γ) (k : κ) : s.invoking k [] = s := by
  rw [invoking, List.append_nil, Function.update_eq_self]

theorem invoking_append (s : State κ γ) (k : κ) (cs ds : List γ) :
    (s.invoking k cs).invoking k ds = s.invoking k (cs ++ ds) := by
  rw [invoking, invoking_self, List.append_assoc, invoking, invoking]
  dsimp only
  rw [Function.update_idem]

omit [DecidableEq κ] in
theorem logging_nil (s : State κ γ) : s.logging [] = s := by
  rw [logging, List.append_nil]

omit [DecidableEq κ] in
theorem logging_append (s : State κ γ) (cs ds : List γ) :
    (s.logging cs).logging ds = s.logging (cs ++ ds) := by
  unfold logging
  rw [List.append_assoc]

theorem replying_zero (s : State κ γ) (k : κ) : s.replying k 0 = s := by
  rw [replying, Nat.add_zero, Function.update_eq_self]

theorem replying_add (s : State κ γ) (k : κ) (m n : Nat) :
    (s.replying k m).replying k n = s.replying k (m + n) := by
  rw [replying, replying_self, Nat.add_assoc, replying, replying]
  dsimp only
  rw [Function.update_idem]

end State

/-- What can happen: an operation is invoked, the next operation of a client enters the log, or
the client is answered. -/
inductive Act (κ γ : Type)
  | invoke (c : γ)
  | commit (k : κ)
  | reply (k : κ)

/-- The step function of the service. -/
def next (s : State κ γ) : Act κ γ → Option (State κ γ)
  | .invoke c => some (s.invoking (S.client c) [c])
  | .commit k => ((s.invoked k)[(opsOf S k s.log).length]?).map fun c => s.logging [c]
  | .reply k => if s.replied k < (opsOf S k s.log).length then some (s.replying k 1) else none

/-- What the clients see of a step. -/
def visible (s : State κ γ) : Act κ γ → List (Visible κ γ ρ)
  | .invoke c => [.invoke c]
  | .commit _ => []
  | .reply k => ((opsOf S k s.log)[s.replied k]?).toList.map fun c => .reply k (S.answer c)

/-- What the clients see of a run. -/
def history (s : State κ γ) : List (Act κ γ) → List (Visible κ γ ρ)
  | [] => []
  | a :: as =>
    match next S s a with
    | none => []
    | some s' => visible S s a ++ history s' as

section Runs

variable {S} {s t u : State κ γ} {as bs : List (Act κ γ)}

theorem history_cons {a : Act κ γ} (ha : next S s a = some t) (as : List (Act κ γ)) :
    history S s (a :: as) = visible S s a ++ history S t as := by
  rw [history, ha]

theorem history_append (hrun : run (next S) s as = some t) (bs : List (Act κ γ)) :
    history S s (as ++ bs) = history S s as ++ history S t bs := by
  induction as generalizing s with
  | nil =>
    obtain rfl := Option.some.inj hrun
    rfl
  | cons a as ih =>
    rw [run_cons] at hrun
    obtain ⟨v, ha, hrest⟩ := Option.bind_eq_some_iff.mp hrun
    rw [List.cons_append, history_cons ha, history_cons ha, ih hrest, List.append_assoc]

/-- The state tells what the clients have seen. -/
structure Tracks (S : Service κ γ ρ) (s : State κ γ) (h : List (Visible κ γ ρ)) : Prop where
  invoked : ∀ k, s.invoked k = invoked S k h
  logged : ∀ k, opsOf S k s.log <+: s.invoked k
  replied : ∀ k, s.replied k ≤ (opsOf S k s.log).length
  replies : ∀ k, replies k h = ((opsOf S k s.log).take (s.replied k)).map S.answer

theorem tracks_empty : Tracks S (State.empty (κ := κ) (γ := γ)) [] where
  invoked _ := rfl
  logged _ := List.nil_prefix
  replied _ := Nat.zero_le _
  replies _ := rfl

theorem mem_invoked {k : κ} {c : γ} {h : List (Visible κ γ ρ)} (hc : c ∈ invoked S k h) :
    S.client c = k := by
  induction h with
  | nil => cases hc
  | cons e h ih =>
    cases e with
    | invoke d =>
      rw [invoked] at hc
      split at hc
      case isTrue hd =>
        rcases List.mem_cons.mp hc with rfl | hc
        · exact hd
        · exact ih hc
      case isFalse => exact ih hc
    | reply k' r => exact ih hc

private theorem Tracks.invoke {h : List (Visible κ γ ρ)} (ht : Tracks S s h) (c : γ) :
    Tracks S (s.invoking (S.client c) [c]) (h ++ [.invoke c]) := by
  have hinvoked : ∀ k, (s.invoking (S.client c) [c]).invoked k = s.invoked k ++ opsOf S k [c] := by
    intro k
    by_cases hk : k = S.client c
    · subst hk
      rw [State.invoking_self, opsOf_self]
    · rw [State.invoking_of_ne _ hk, opsOf_of_ne (Ne.symm hk), List.append_nil]
  refine ⟨fun k => ?_, fun k => ?_, ht.replied, fun k => ?_⟩
  · rw [hinvoked, invoked_append, ht.invoked]
    congr 1
    by_cases hk : S.client c = k <;> simp [opsOf, hk, AtomicLog.invoked]
  · rw [hinvoked]
    exact (ht.logged k).trans (List.prefix_append _ _)
  · rw [replies_append, ht.replies k]
    exact List.append_nil _

private theorem Tracks.commit {h : List (Visible κ γ ρ)} (ht : Tracks S s h) {k : κ} {c : γ}
    (hc : (s.invoked k)[(opsOf S k s.log).length]? = some c) : Tracks S (s.logging [c]) h := by
  obtain rfl : S.client c = k := by
    apply mem_invoked (h := h)
    rw [← ht.invoked k]
    exact List.mem_of_getElem? hc
  have hlog : ∀ k, opsOf S k (s.logging [c]).log = opsOf S k s.log ++ opsOf S k [c] :=
    fun k => opsOf_append k s.log [c]
  refine ⟨ht.invoked, fun k => ?_, fun k => ?_, fun k => ?_⟩
  · rw [hlog]
    by_cases hk : S.client c = k
    · subst hk
      obtain ⟨rest, hrest⟩ := ht.logged (S.client c)
      rw [← hrest, List.getElem?_append_right le_rfl, Nat.sub_self, ← List.head?_eq_getElem?] at hc
      obtain ⟨rest, rfl⟩ := List.head?_eq_some_iff.mp hc
      refine ⟨rest, ?_⟩
      rw [opsOf_self, List.append_assoc, List.singleton_append]
      exact hrest
    · rw [opsOf_of_ne hk, List.append_nil]
      exact ht.logged k
  · rw [hlog, List.length_append]
    exact (ht.replied k).trans (Nat.le_add_right _ _)
  · rw [hlog, ht.replies k]
    exact congrArg _ (List.take_append_of_le_length (ht.replied k)).symm

private theorem Tracks.reply {h : List (Visible κ γ ρ)} (ht : Tracks S s h) {k : κ}
    (hlt : s.replied k < (opsOf S k s.log).length) :
    Tracks S (s.replying k 1) (h ++ [.reply k (S.answer (opsOf S k s.log)[s.replied k])]) := by
  refine ⟨fun k' => ?_, ht.logged, fun k' => ?_, fun k' => ?_⟩
  · rw [invoked_append]
    exact (ht.invoked k').trans (List.append_nil _).symm
  · by_cases hk : k' = k
    · subst hk
      rw [State.replying_self]
      exact hlt
    · rw [State.replying_of_ne _ hk]
      exact ht.replied k'
  · rw [replies_append, ht.replies k', AtomicLog.replies, AtomicLog.replies]
    by_cases hk : k' = k
    · subst hk
      have hnext : opsOf S k' (s.replying k' 1).log = opsOf S k' s.log := rfl
      rw [if_pos rfl, State.replying_self, hnext, List.take_add_one, List.getElem?_eq_getElem hlt,
        Option.toList_some, List.map_append]
      rfl
    · rw [if_neg (Ne.symm hk), State.replying_of_ne _ hk, List.append_nil]
      rfl

theorem Tracks.step {h : List (Visible κ γ ρ)} {a : Act κ γ} (ht : Tracks S s h)
    (ha : next S s a = some t) : Tracks S t (h ++ visible S s a) := by
  cases a with
  | invoke c =>
    obtain rfl := Option.some.inj ha
    exact ht.invoke c
  | commit k =>
    obtain ⟨c, hc, rfl⟩ := Option.map_eq_some_iff.mp ha
    rw [visible, List.append_nil]
    exact ht.commit hc
  | reply k =>
    rw [next] at ha
    split at ha
    case isTrue hlt =>
      obtain rfl := Option.some.inj ha
      rw [visible, List.getElem?_eq_getElem hlt]
      exact ht.reply hlt
    case isFalse => cases ha

theorem Tracks.run {h : List (Visible κ γ ρ)} (ht : Tracks S s h)
    (hrun : run (next S) s as = some t) : Tracks S t (h ++ history S s as) := by
  induction as generalizing s h with
  | nil =>
    obtain rfl := Option.some.inj hrun
    rw [history, List.append_nil]
    exact ht
  | cons a as ih =>
    rw [run_cons] at hrun
    obtain ⟨v, ha, hrest⟩ := Option.bind_eq_some_iff.mp hrun
    rw [history_cons ha, ← List.append_assoc]
    exact ih (ht.step ha) hrest

theorem prefix_log_step {a : Act κ γ} (ha : next S s a = some t) : s.log <+: t.log := by
  cases a with
  | invoke c =>
    obtain rfl := Option.some.inj ha
    exact List.prefix_rfl
  | commit k =>
    obtain ⟨c, -, rfl⟩ := Option.map_eq_some_iff.mp ha
    exact List.prefix_append _ _
  | reply k =>
    rw [next] at ha
    split at ha
    case isTrue =>
      obtain rfl := Option.some.inj ha
      exact List.prefix_rfl
    case isFalse => cases ha

theorem prefix_log (hrun : run (next S) s as = some t) : s.log <+: t.log :=
  run_invariant (I := fun t => s.log <+: t.log) (fun _ _ _ hI ha => hI.trans (prefix_log_step ha))
    List.prefix_rfl hrun

theorem length_visible_le (s : State κ γ) (a : Act κ γ) : (visible S s a).length ≤ 1 := by
  cases a with
  | invoke c => exact le_rfl
  | commit k => exact Nat.zero_le 1
  | reply k =>
    rw [visible, List.length_map]
    cases (opsOf S k s.log)[s.replied k]? with
    | none => exact Nat.zero_le 1
    | some c => exact le_rfl

/-- Every moment of what the clients see is a moment of the run. -/
theorem history_split {h₁ h₂ : List (Visible κ γ ρ)} (hrun : run (next S) s as = some t)
    (hsplit : history S s as = h₁ ++ h₂) :
    ∃ as₁ as₂, as = as₁ ++ as₂ ∧ history S s as₁ = h₁ := by
  induction as generalizing s h₁ with
  | nil =>
    obtain ⟨rfl, -⟩ := List.append_eq_nil_iff.mp hsplit.symm
    exact ⟨[], [], rfl, rfl⟩
  | cons a as ih =>
    rw [run_cons] at hrun
    obtain ⟨v, ha, hrest⟩ := Option.bind_eq_some_iff.mp hrun
    rw [history_cons ha] at hsplit
    rcases h₁ with _ | ⟨e, h₁⟩
    · exact ⟨[], a :: as, rfl, rfl⟩
    · have hone := length_visible_le (S := S) s a
      rcases hvis : visible S s a with _ | ⟨e', rest⟩
      · rw [hvis] at hsplit
        obtain ⟨as₁, as₂, rfl, hhist⟩ := ih hrest hsplit
        exact ⟨a :: as₁, as₂, rfl, by rw [history_cons ha, hvis, hhist]; rfl⟩
      · rw [hvis, List.length_cons] at hone
        obtain rfl : rest = [] := List.eq_nil_of_length_eq_zero (by omega)
        rw [hvis] at hsplit
        obtain ⟨rfl, htail⟩ := List.cons.inj hsplit
        obtain ⟨as₁, as₂, rfl, hhist⟩ := ih hrest htail
        exact ⟨a :: as₁, as₂, rfl, by rw [history_cons ha, hvis, hhist]; rfl⟩

/-- What the clients see of a run is explained by the log that the run ends with. -/
theorem linearizes (hrun : run (next S) State.empty as = some s) :
    Linearizes S s.log (history S State.empty as) := by
  have htracks : Tracks S s (history S State.empty as) := tracks_empty.run hrun
  refine ⟨fun k => ?_, fun k => ?_, fun k n k' m i => ?_⟩
  · rw [← htracks.invoked k]
    exact htracks.logged k
  · rw [htracks.replies k]
    exact (List.take_prefix _ _).map _
  · apply realTime_of_cuts
    intro h₁ h₂ hsplit
    obtain ⟨as₁, as₂, rfl, rfl⟩ := history_split hrun hsplit
    rw [run_append] at hrun
    obtain ⟨v, hfirst, hrest⟩ := Option.bind_eq_some_iff.mp hrun
    have hv : Tracks S v (history S State.empty as₁) := tracks_empty.run hfirst
    refine ⟨v.log, prefix_log hrest, fun k => ⟨?_, ?_⟩⟩
    · rw [hv.replies k, List.length_map, List.length_take]
      exact Nat.min_le_right _ _
    · rw [← hv.invoked k]
      exact (hv.logged k).length_le

end Runs

section Simulation

variable {S} {s t : State κ γ}

/-- The service can put into its log what its clients have invoked next. -/
theorem run_commits (s : State κ γ) (cs : List γ)
    (hcs : ∀ k, opsOf S k (s.log ++ cs) <+: s.invoked k) :
    ∃ as, run (next S) s as = some (s.logging cs) ∧ history S s as = [] := by
  induction cs generalizing s with
  | nil => exact ⟨[], by rw [State.logging_nil]; rfl, rfl⟩
  | cons c cs ih =>
    have hnext : (s.invoked (S.client c))[(opsOf S (S.client c) s.log).length]? = some c := by
      obtain ⟨rest, hrest⟩ := hcs (S.client c)
      rw [← hrest, opsOf_append, List.append_assoc, List.getElem?_append_right le_rfl, Nat.sub_self,
        ← List.singleton_append, opsOf_append, opsOf_self]
      rfl
    have hstep : next S s (.commit (S.client c)) = some (s.logging [c]) := by
      rw [next, hnext, Option.map_some]
    have hlater : ∀ k, opsOf S k ((s.logging [c]).log ++ cs) <+: (s.logging [c]).invoked k := by
      intro k
      have hassoc : (s.logging [c]).log ++ cs = s.log ++ c :: cs := by
        rw [State.logging, List.append_assoc, List.singleton_append]
      rw [hassoc]
      exact hcs k
    obtain ⟨as, hrun, hhist⟩ := ih (s.logging [c]) hlater
    refine ⟨.commit (S.client c) :: as, ?_, ?_⟩
    · rw [run_cons, hstep, Option.bind_some, hrun, State.logging_append, List.singleton_append]
    · rw [history_cons hstep, hhist]
      rfl

/-- The clients can invoke operations at any time. -/
theorem run_invokes (s : State κ γ) (k : κ) (cs : List γ) (hcs : ∀ c ∈ cs, S.client c = k) :
    ∃ as, run (next S) s as = some (s.invoking k cs) ∧ history S s as = cs.map .invoke := by
  induction cs generalizing s with
  | nil => exact ⟨[], by rw [State.invoking_nil]; rfl, rfl⟩
  | cons c cs ih =>
    obtain rfl := hcs c List.mem_cons_self
    have hstep : next S s (.invoke c) = some (s.invoking (S.client c) [c]) := rfl
    obtain ⟨as, hrun, hhist⟩ := ih (s.invoking (S.client c) [c])
      fun d hd => hcs d (List.mem_cons_of_mem c hd)
    refine ⟨.invoke c :: as, ?_, ?_⟩
    · rw [run_cons, hstep, Option.bind_some, hrun, State.invoking_append, List.singleton_append]
    · rw [history_cons hstep, hhist]
      rfl

/-- The service can answer what is in its log. -/
theorem run_replies (s : State κ γ) (k : κ) (n : Nat)
    (hn : s.replied k + n ≤ (opsOf S k s.log).length) :
    ∃ as, run (next S) s as = some (s.replying k n) ∧
      history S s as = (((opsOf S k s.log).drop (s.replied k)).take n).map
        fun c => .reply k (S.answer c) := by
  induction n generalizing s with
  | zero => exact ⟨[], by rw [State.replying_zero]; rfl, by rw [List.take_zero]; rfl⟩
  | succ n ih =>
    have hlt : s.replied k < (opsOf S k s.log).length := by omega
    have hstep : next S s (.reply k) = some (s.replying k 1) := by
      rw [next, if_pos hlt]
    have hreplied := s.replying_self k 1
    obtain ⟨as, hrun, hhist⟩ := ih (s.replying k 1) (by
      rw [hreplied]
      show s.replied k + 1 + n ≤ (opsOf S k s.log).length
      omega)
    rw [hreplied] at hhist
    refine ⟨.reply k :: as, ?_, ?_⟩
    · rw [run_cons, hstep, Option.bind_some, hrun, State.replying_add, Nat.add_comm]
    · rw [history_cons hstep, hhist, visible, List.getElem?_eq_getElem hlt,
        List.drop_eq_getElem_cons hlt, List.take_succ_cons]
      rfl

/-- A step of an implementation is one of the service if the log grows by what was invoked, and
the clients see what one of them invokes and the answers to its next operations. -/
theorem simulates {k : κ} {cs : List γ} {n : Nat} (hcs : ∀ c ∈ cs, S.client c = k)
    (hinvoked : t.invoked = (s.invoking k cs).invoked)
    (hreplied : t.replied = (s.replying k n).replied) (hlog : s.log <+: t.log)
    (hlogged : ∀ k, opsOf S k t.log <+: t.invoked k)
    (hanswered : t.replied k ≤ (opsOf S k t.log).length) :
    ∃ as, run (next S) s as = some t ∧ history S s as = cs.map .invoke ++
      (((opsOf S k t.log).drop (s.replied k)).take n).map fun c => .reply k (S.answer c) := by
  obtain ⟨ds, hds⟩ := hlog
  have hlast : (((s.invoking k cs).logging ds).replying k n) = t := by
    cases t
    subst hinvoked hreplied hds
    rfl
  obtain ⟨as₁, hrun₁, hhist₁⟩ := run_invokes s k cs hcs
  obtain ⟨as₂, hrun₂, hhist₂⟩ := run_commits (s.invoking k cs) ds (by
    rw [← hinvoked]
    show ∀ k, opsOf S k (s.log ++ ds) <+: t.invoked k
    rw [hds]
    exact hlogged)
  obtain ⟨as₃, hrun₃, hhist₃⟩ := run_replies ((s.invoking k cs).logging ds) k n (by
    show s.replied k + n ≤ (opsOf S k (s.log ++ ds)).length
    rw [hreplied, State.replying_self] at hanswered
    rw [hds]
    exact hanswered)
  refine ⟨as₁ ++ (as₂ ++ as₃), ?_, ?_⟩
  · rw [run_append, hrun₁, Option.bind_some, run_append, hrun₂, Option.bind_some, hrun₃, hlast]
  · rw [history_append hrun₁, history_append hrun₂, hhist₁, hhist₂, hhist₃, List.nil_append, ← hds]
    rfl

end Simulation

end SmeltConsensus.Foundation.AtomicLog
