import Mathlib.Data.Finset.Max
import Mathlib.Data.List.Induction
import SmeltConsensus.Raft.Replica

/-! What the two loops of `update_commit_index_leader` compute. -/

set_option autoImplicit false
set_option relaxedAutoImplicit false

namespace SmeltConsensus.Raft.CommitIndex

open SmeltConsensus.Raft.Replica

/-- At least `(num_replicas - 1) / 2` entries of the match index reach `v`. -/
def Quorum (n : Nat) (matchIndex : Nat → Nat) (v : Nat) : Prop :=
  (n - 1) / 2 ≤ (List.range n).countP fun j => decide (v ≤ matchIndex j)

instance (n : Nat) (matchIndex : Nat → Nat) (v : Nat) : Decidable (Quorum n matchIndex v) :=
  inferInstanceAs (Decidable (_ ≤ _))

variable {majority v c n : Nat} {matchIndex : Nat → Nat}

private theorem countLarger_fst (js : List Nat) :
    (countLarger majority v matchIndex c js).1 = js.countP fun j => decide (v ≤ matchIndex j) := by
  induction js using List.reverseRecOn with
  | nil => rfl
  | append_singleton js j ih =>
    unfold countLarger at ih ⊢
    rw [List.foldl_concat, List.countP_append, ← ih, List.countP_singleton]
    by_cases hj : v ≤ matchIndex j
    · simp [hj]
    · simp [hj]

/-- The count only grows, so what counts is the count at the end. -/
private theorem countLarger_snd {js : List Nat} (hjs : js ≠ []) :
    (countLarger majority v matchIndex c js).2 =
      if majority ≤ js.countP fun j => decide (v ≤ matchIndex j) then v else c := by
  induction js using List.reverseRecOn with
  | nil => exact absurd rfl hjs
  | append_singleton js j ih =>
    have hstep : (countLarger majority v matchIndex c (js ++ [j])).2 =
        if majority ≤ (countLarger majority v matchIndex c (js ++ [j])).1 then v
        else (countLarger majority v matchIndex c js).2 := by
      unfold countLarger
      rw [List.foldl_concat]
    rw [hstep, countLarger_fst]
    by_cases hm : majority ≤ (js ++ [j]).countP fun j => decide (v ≤ matchIndex j)
    · rw [if_pos hm, if_pos hm]
    · rw [if_neg hm, if_neg hm]
      rcases eq_or_ne js [] with rfl | hne
      · rfl
      · have hlt : ¬ majority ≤ js.countP fun j => decide (v ≤ matchIndex j) := fun hle =>
          hm (hle.trans (List.Sublist.countP_le (List.sublist_append_left js [j])))
        rw [ih hne, if_neg hlt]

private theorem commitIndexAfter_eq (hn : 0 < n) :
    commitIndexAfter n matchIndex c = (List.range n).foldl (fun c i =>
      if c < matchIndex i ∧ Quorum n matchIndex (matchIndex i) then matchIndex i else c) c := by
  have hne : List.range n ≠ [] := List.ne_nil_of_length_pos (by rwa [List.length_range])
  unfold commitIndexAfter
  congr 1
  funext c i
  by_cases hlt : matchIndex i > c
  · rw [if_pos hlt, countLarger_snd hne]
    show (if Quorum n matchIndex (matchIndex i) then _ else _) = _
    by_cases hq : Quorum n matchIndex (matchIndex i)
    · rw [if_pos hq, if_pos ⟨hlt, hq⟩]
    · rw [if_neg hq, if_neg fun h => hq h.2]
  · rw [if_neg hlt, if_neg fun h => hlt h.1]

/-- The commit index after the loops: the old one, or a value with a quorum behind it. -/
theorem le_commitIndexAfter_iff (hn : 0 < n) {N : Nat} :
    N ≤ commitIndexAfter n matchIndex c ↔
      N ≤ c ∨ ∃ i, i < n ∧ N ≤ matchIndex i ∧ Quorum n matchIndex (matchIndex i) := by
  have hmem : (∃ i, i < n ∧ N ≤ matchIndex i ∧ Quorum n matchIndex (matchIndex i)) ↔
      ∃ i ∈ List.range n, N ≤ matchIndex i ∧ Quorum n matchIndex (matchIndex i) := by
    simp only [List.mem_range]
  rw [commitIndexAfter_eq hn, hmem]
  generalize List.range n = is
  induction is generalizing c with
  | nil => simp
  | cons i is ih =>
    rw [List.foldl_cons]
    refine ih.trans ?_
    rw [List.exists_mem_cons_iff]
    by_cases hstep : c < matchIndex i ∧ Quorum n matchIndex (matchIndex i)
    · rw [if_pos hstep]
      have hiff : N ≤ matchIndex i ↔
          N ≤ c ∨ N ≤ matchIndex i ∧ Quorum n matchIndex (matchIndex i) := by
        constructor
        · exact fun h => Or.inr ⟨h, hstep.2⟩
        · rintro (h | h)
          · exact h.trans hstep.1.le
          · exact h.1
      exact (or_congr_left hiff).trans or_assoc
    · rw [if_neg hstep]
      have hiff : N ≤ c ↔ N ≤ c ∨ N ≤ matchIndex i ∧ Quorum n matchIndex (matchIndex i) := by
        constructor
        · exact Or.inl
        · rintro (h | h)
          · exact h
          · have hle : matchIndex i ≤ c := Nat.le_of_not_lt fun hlt => hstep ⟨hlt, h.2⟩
            exact h.1.trans hle
      exact (or_congr_left hiff).trans or_assoc

/-- Entries that a quorum reaches, as a property of the array without its order. -/
private theorem exists_quorum_iff {N : Nat} :
    (∃ i, i < n ∧ N ≤ matchIndex i ∧ Quorum n matchIndex (matchIndex i)) ↔
      ∃ v ∈ (List.range n).map matchIndex, N ≤ v ∧
        (n - 1) / 2 ≤ ((List.range n).map matchIndex).countP fun w => decide (v ≤ w) := by
  simp only [List.mem_map, List.mem_range, List.countP_map, Quorum]
  constructor
  · rintro ⟨i, hi, hN, hq⟩
    exact ⟨matchIndex i, ⟨i, hi, rfl⟩, hN, hq⟩
  · rintro ⟨v, ⟨i, hi, rfl⟩, hN, hq⟩
    exact ⟨i, hi, hN, hq⟩

/-- All entries reach the smallest one. -/
private theorem exists_quorum (hn : 0 < n) : ∃ i, i < n ∧ Quorum n matchIndex (matchIndex i) := by
  obtain ⟨i, hi, hleast⟩ := Finset.exists_min_image (Finset.range n) matchIndex
    ⟨0, Finset.mem_range.mpr hn⟩
  refine ⟨i, Finset.mem_range.mp hi, ?_⟩
  have hall : ((List.range n).countP fun j => decide (matchIndex i ≤ matchIndex j)) =
      (List.range n).length := by
    rw [List.countP_eq_length]
    intro j hj
    exact decide_eq_true (hleast j (Finset.mem_range.mpr (List.mem_range.mp hj)))
  rw [Quorum, hall, List.length_range]
  omega

/-- A larger array has an entry with a quorum that is no smaller. -/
private theorem exists_quorum_mono {matchIndex' : Nat → Nat}
    (hle : ∀ i, i < n → matchIndex i ≤ matchIndex' i) {i : Nat} (hi : i < n)
    (hq : Quorum n matchIndex (matchIndex i)) :
    ∃ k, k < n ∧ matchIndex i ≤ matchIndex' k ∧ Quorum n matchIndex' (matchIndex' k) := by
  -- the smallest of the entries that were behind the quorum
  obtain ⟨k, hk, hleast⟩ := Finset.exists_min_image
    ((Finset.range n).filter fun j => matchIndex i ≤ matchIndex j) matchIndex'
    ⟨i, Finset.mem_filter.mpr ⟨Finset.mem_range.mpr hi, le_rfl⟩⟩
  obtain ⟨hkn, hik⟩ := Finset.mem_filter.mp hk
  have hkn := Finset.mem_range.mp hkn
  refine ⟨k, hkn, hik.trans (hle k hkn), hq.trans ?_⟩
  refine List.countP_mono_left fun j hj hij => ?_
  exact decide_eq_true (hleast j (Finset.mem_filter.mpr
    ⟨Finset.mem_range.mpr (List.mem_range.mp hj), of_decide_eq_true hij⟩))

/-- The purpose of the loops. -/
structure CommitsLargest (n : Nat) (matchIndex : Nat → Nat) (c : Nat) : Prop where
  /-- The largest entry with a quorum, unless the old index is larger. -/
  eq_max : ∃ v, IsGreatest {v | (∃ i, i < n ∧ matchIndex i = v) ∧ Quorum n matchIndex v} v ∧
    commitIndexAfter n matchIndex c = max c v
  order_free : ∀ matchIndex' : Nat → Nat,
    ((List.range n).map matchIndex').Perm ((List.range n).map matchIndex) →
      commitIndexAfter n matchIndex' c = commitIndexAfter n matchIndex c
  not_decreasing : c ≤ commitIndexAfter n matchIndex c
  monotone : ∀ (matchIndex' : Nat → Nat) (c' : Nat), (∀ i, i < n → matchIndex i ≤ matchIndex' i) →
    c ≤ c' → commitIndexAfter n matchIndex c ≤ commitIndexAfter n matchIndex' c'

theorem commits_largest (n : Nat) (hn : 0 < n) (matchIndex : Nat → Nat) (c : Nat) :
    CommitsLargest n matchIndex c := by
  refine ⟨?_, ?_, ?_, ?_⟩
  · obtain ⟨i, hi, hq⟩ : ∃ i, i < n ∧ Quorum n matchIndex (matchIndex i) := exists_quorum hn
    let entries := ((Finset.range n).image matchIndex).filter fun v => Quorum n matchIndex v
    have hmem : ∀ v, v ∈ entries ↔ (∃ i, i < n ∧ matchIndex i = v) ∧ Quorum n matchIndex v := by
      intro v
      simp [entries]
    have hne : entries.Nonempty := ⟨_, (hmem _).mpr ⟨⟨i, hi, rfl⟩, hq⟩⟩
    have hgreatest : IsGreatest
        {v | (∃ i, i < n ∧ matchIndex i = v) ∧ Quorum n matchIndex v} (entries.max' hne) := by
      refine ⟨(hmem _).mp (Finset.max'_mem _ _), fun v hv => ?_⟩
      exact Finset.le_max' _ _ ((hmem v).mpr hv)
    obtain ⟨⟨⟨k, hk, hvalue⟩, hquorum⟩, hupper⟩ := hgreatest
    refine ⟨_, ⟨⟨⟨k, hk, hvalue⟩, hquorum⟩, hupper⟩, eq_of_forall_le_iff fun N => ?_⟩
    rw [le_commitIndexAfter_iff hn, le_max_iff]
    constructor
    · rintro (hN | ⟨j, hj, hN, hqj⟩)
      · exact .inl hN
      · exact .inr (hN.trans (hupper ⟨⟨j, hj, rfl⟩, hqj⟩))
    · rintro (hN | hN)
      · exact .inl hN
      · right
        rw [← hvalue] at hN hquorum
        exact ⟨k, hk, hN, hquorum⟩
  · intro matchIndex' hperm
    refine eq_of_forall_le_iff fun N => ?_
    rw [le_commitIndexAfter_iff hn, le_commitIndexAfter_iff hn, exists_quorum_iff,
      exists_quorum_iff]
    simp only [hperm.mem_iff, hperm.countP_eq]
  · exact (le_commitIndexAfter_iff hn).mpr (.inl le_rfl)
  · intro matchIndex' c' hle hc
    rw [le_commitIndexAfter_iff hn]
    rcases (le_commitIndexAfter_iff hn).mp (le_refl (commitIndexAfter n matchIndex c)) with
      hold | ⟨i, hi, hnew, hq⟩
    · exact .inl (hold.trans hc)
    · obtain ⟨k, hk, hik, hqk⟩ := exists_quorum_mono hle hi hq
      exact .inr ⟨k, hk, hnew.trans hik, hqk⟩

/-- Two of five entries are enough. -/
theorem commits_largest_five :
    commitIndexAfter 5 (fun i => [0, 4, 7, 5, 9].getD i 0) 3 = 7 ∧
      CommitsLargest 5 (fun i => [0, 4, 7, 5, 9].getD i 0) 3 :=
  ⟨rfl, commits_largest 5 (by decide) _ _⟩

/-- How many followers come before follower `i`. -/
theorem countP_followers {i : Nat} (hi : i < n) :
    ((List.range n).countP fun j => decide (1 ≤ j ∧ j ≤ i)) = i := by
  have hmin : ∀ m, ((List.range m).countP fun j => decide (1 ≤ j ∧ j ≤ i)) = min i (m - 1) := by
    intro m
    induction m with
    | zero => simp
    | succ m ih =>
      rw [List.range_succ, List.countP_append, ih, List.countP_singleton]
      by_cases hm : 1 ≤ m ∧ m ≤ i
      · simp only [hm, and_self, decide_true, if_true]
        omega
      · simp only [hm, decide_false, Bool.false_eq_true, if_false]
        omega
  rw [hmin]
  omega

/-- The number of replies after which the leader commits. -/
def committer (n : Nat) : Nat := max 1 ((n - 1) / 2)

/-- The leader's commit index while it waits for the reply of follower `i` to request `k`. -/
def committed (n k i : Nat) : Nat := if committer n < i then k else k - 1

/-- The commit index once follower `i` has acknowledged request `k`. -/
theorem commitIndexAfter_reply {k i : Nat} (hk : 1 ≤ k) (h1 : 1 ≤ i) (hi : i < n)
    (hzero : matchIndex 0 = 0)
    (hmatch : ∀ j, 1 ≤ j → j < n → matchIndex j = if j ≤ i then k else k - 1) :
    commitIndexAfter n matchIndex (committed n k i) = committed n k (i + 1) := by
  have hvalue : ∀ j, j < n → matchIndex j ≤ k ∧ (k ≤ matchIndex j ↔ 1 ≤ j ∧ j ≤ i) := by
    intro j hj
    rcases Nat.eq_zero_or_pos j with rfl | hpos
    · omega
    · rw [hmatch j hpos hj]
      split <;> omega
  have hquorum : Quorum n matchIndex k ↔ (n - 1) / 2 ≤ i := by
    have hcount : ((List.range n).countP fun j => decide (k ≤ matchIndex j)) = i := by
      rw [← countP_followers hi]
      refine List.countP_congr fun j hj => ?_
      simpa using (hvalue j (List.mem_range.mp hj)).2
    rw [Quorum, hcount]
  refine eq_of_forall_le_iff fun N => ?_
  rw [le_commitIndexAfter_iff (Nat.zero_lt_of_lt hi)]
  unfold committed committer
  constructor
  · rintro (h | ⟨j, hj, hN, hq⟩)
    · split_ifs at h ⊢ <;> omega
    · by_cases hfull : k ≤ matchIndex j
      · have heq : matchIndex j = k := Nat.le_antisymm (hvalue j hj).1 hfull
        rw [heq, hquorum] at hq
        split_ifs <;> omega
      · split_ifs <;> omega
  · intro h
    by_cases hlast : max 1 ((n - 1) / 2) < i + 1
    · right
      rw [if_pos hlast] at h
      have heq : matchIndex i = k := by rw [hmatch i h1 hi, if_pos le_rfl]
      refine ⟨i, hi, by omega, ?_⟩
      rw [heq, hquorum]
      omega
    · left
      rw [if_neg hlast] at h
      split_ifs <;> omega

end SmeltConsensus.Raft.CommitIndex
