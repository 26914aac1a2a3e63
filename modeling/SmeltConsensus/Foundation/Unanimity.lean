import Mathlib.Data.Finset.Card
import Mathlib.Data.List.Infix

/-!
A coordinator puts questions to a fixed set of voters, one question at a time,
counts the votes and closes a question when the count reaches the number of
voters.

The count is one number that is set to zero with each question. What makes it
right is that nobody votes before a question is asked and that no question is
asked while another one is open.
-/

set_option autoImplicit false
set_option relaxedAutoImplicit false

namespace SmeltConsensus.Foundation.Unanimity

variable {V α : Type}

/-- The questions asked and closed so far, and the votes of each voter in order.
While a question is open, the count is the number of voters that voted on it. -/
structure Round (voters : Finset V) (count : Nat) (asked closed : List α) (votes : V → List α) :
    Prop where
  closed_prefix : closed <+: asked
  voted : ∀ v ∈ voters, closed.length ≤ (votes v).length
  counting : closed.length = asked.length ∨
    asked.length = closed.length + 1 ∧ count < voters.card ∧
      count = (voters.filter fun v => (votes v).length = asked.length).card

namespace Round

variable {voters : Finset V} {count : Nat} {asked closed : List α} {votes votes' : V → List α}

theorem initial (hv : ∀ v, votes v = []) : Round voters count ([] : List α) [] votes where
  closed_prefix := List.prefix_rfl
  voted v _ := by simp [hv v]
  counting := .inl rfl

/-- Each question closed was closed with every voter's vote on it. -/
theorem closed_voted (h : Round voters count asked closed votes) {v : V} (hv : v ∈ voters)
    (hvote : votes v <+: asked) : closed <+: votes v :=
  List.prefix_of_prefix_length_le h.closed_prefix hvote (h.voted v hv)

/-- A new question, asked when none is open. -/
theorem ask (h : Round voters count asked closed votes) (hne : voters.Nonempty)
    (hvotes : ∀ v ∈ voters, votes v <+: asked) (hone : asked.length ≤ closed.length) (a : α) :
    Round voters 0 (asked ++ [a]) closed votes where
  closed_prefix := h.closed_prefix.trans (List.prefix_append _ _)
  voted := h.voted
  counting := by
    have hle := h.closed_prefix.length_le
    have hnone : (voters.filter fun v => (votes v).length = (asked ++ [a]).length) = ∅ := by
      rw [Finset.filter_eq_empty_iff]
      intro v hv
      have hlen := (hvotes v hv).length_le
      rw [List.length_append, List.length_singleton]
      omega
    right
    rw [hnone, Finset.card_empty, List.length_append, List.length_singleton]
    exact ⟨by omega, Finset.card_pos.mpr hne, rfl⟩

section Vote

variable {v : V} {a : α}

/-- A vote is always one on the open question, by a voter that had not voted on it. -/
theorem vote_open (h : Round voters count asked closed votes) (hv : v ∈ voters)
    (hvote : votes v ++ [a] <+: asked) :
    asked.length = closed.length + 1 ∧ (votes v).length = closed.length := by
  have hlen := hvote.length_le
  have hclosed := h.voted v hv
  rw [List.length_append, List.length_singleton] at hlen
  rcases h.counting with heq | ⟨heq, -, -⟩
  · omega
  · exact ⟨heq, by omega⟩

/-- The count after a vote is the number of voters that voted on the open question. -/
theorem vote_count [DecidableEq V] (h : Round voters count asked closed votes) (hv : v ∈ voters)
    (hown : votes' v = votes v ++ [a]) (hother : ∀ u, u ≠ v → votes' u = votes u)
    (hvote : votes v ++ [a] <+: asked) :
    count + 1 = (voters.filter fun u => (votes' u).length = asked.length).card := by
  obtain ⟨hopen, hold⟩ := h.vote_open hv hvote
  have hcount : count = (voters.filter fun u => (votes u).length = asked.length).card := by
    rcases h.counting with heq | ⟨-, -, hcount⟩
    · omega
    · exact hcount
  have hinsert : (voters.filter fun u => (votes' u).length = asked.length) =
      insert v (voters.filter fun u => (votes u).length = asked.length) := by
    ext u
    rw [Finset.mem_insert, Finset.mem_filter, Finset.mem_filter]
    by_cases hu : u = v
    · subst hu
      have hnew : (votes' u).length = asked.length := by
        rw [hown, List.length_append, List.length_singleton]
        omega
      exact ⟨fun _ => .inl rfl, fun _ => ⟨hv, hnew⟩⟩
    · rw [hother u hu]
      exact ⟨.inr, fun hm => hm.resolve_left hu⟩
  have hfresh : v ∉ voters.filter fun u => (votes u).length = asked.length := by
    rw [Finset.mem_filter]
    rintro ⟨-, heq⟩
    omega
  rw [hinsert, Finset.card_insert_of_notMem hfresh, hcount]

theorem count_lt_card (h : Round voters count asked closed votes) (hv : v ∈ voters)
    (hvote : votes v ++ [a] <+: asked) : count < voters.card := by
  obtain ⟨hopen, -⟩ := h.vote_open hv hvote
  rcases h.counting with heq | ⟨-, hlt, -⟩
  · omega
  · exact hlt

/-- A vote that is not the last one. -/
theorem vote [DecidableEq V] (h : Round voters count asked closed votes) (hv : v ∈ voters)
    (hown : votes' v = votes v ++ [a]) (hother : ∀ u, u ≠ v → votes' u = votes u)
    (hvote : votes v ++ [a] <+: asked) (hlt : count + 1 < voters.card) :
    Round voters (count + 1) asked closed votes' where
  closed_prefix := h.closed_prefix
  voted u hu := by
    by_cases huv : u = v
    · subst huv
      have hle := h.voted u hu
      rw [hown, List.length_append]
      omega
    · rw [hother u huv]
      exact h.voted u hu
  counting := .inr ⟨(h.vote_open hv hvote).1, hlt, h.vote_count hv hown hother hvote⟩

/-- The last vote closes the question it is about. -/
theorem close [DecidableEq V] (h : Round voters count asked closed votes) (hv : v ∈ voters)
    (hown : votes' v = votes v ++ [a]) (hother : ∀ u, u ≠ v → votes' u = votes u)
    (hvote : votes v ++ [a] <+: asked) (hlast : voters.card ≤ count + 1) (count' : Nat) :
    Round voters count' asked (closed ++ [a]) votes' := by
  obtain ⟨hopen, hold⟩ := h.vote_open hv hvote
  have hcount := h.vote_count hv hown hother hvote
  -- every voter has voted on it
  have hall : voters.filter (fun u => (votes' u).length = asked.length) = voters :=
    Finset.eq_of_subset_of_card_le (Finset.filter_subset _ _) (by omega)
  have hvoters : ∀ u ∈ voters, (votes' u).length = asked.length := by
    intro u hu
    rw [← hall] at hu
    exact (Finset.mem_filter.mp hu).2
  have hasked : votes v ++ [a] = asked := by
    refine hvote.eq_of_length ?_
    rw [← hown, hvoters v hv]
  have hclosed : votes v = closed := by
    refine List.IsPrefix.eq_of_length ?_ hold
    refine List.prefix_of_prefix_length_le ?_ h.closed_prefix hold.le
    rw [← hasked]
    exact List.prefix_append _ _
  have heq : closed ++ [a] = asked := by
    rw [← hclosed, hasked]
  constructor
  · rw [heq]
  · intro u hu
    rw [heq, hvoters u hu]
  · rw [heq]
    exact .inl rfl

end Vote

end Round

end SmeltConsensus.Foundation.Unanimity
