import SmeltConsensus.Foundation.Account
import SmeltConsensus.Foundation.FairSchedule
import SmeltConsensus.SharedQueue.Queue

/-!
Progress of the shared-memory queue. The writer waits at the start of a lap until every
reader is back at slot 0. Readers that poll get there, also those that have lost a lap.
-/

set_option autoImplicit false
set_option relaxedAutoImplicit false

namespace SmeltConsensus.SharedQueue.Progress

open SmeltConsensus.Foundation.Account
open SmeltConsensus.Foundation.FairSchedule
open SmeltConsensus.Foundation.Ring (distance next_eq next_lt distance_next)
open SmeltConsensus.SharedQueue.Queue

variable {α : Type} {R : Nat}

inductive Party (R : Nat)
  | writer
  | reader (i : Fin R)

/-- The queue, and the commands that the writer has yet to write. -/
structure Open (α : Type) (R : Nat) where
  state : State α R
  cmds : List α

/-- A turn of the writer is its next `shm_write`; one of a reader is a `shm_read`, or the
`execute` of what that returned. -/
def next (o : Open α R) : Party R → Option (Open α R)
  | .writer =>
    match o.cmds with
    | [] => none
    | c :: cs => (step o.state (.write c)).map fun s => ⟨s, cs⟩
  | .reader i =>
    match o.state.cmd i with
    | none => (step o.state (.read i)).map fun s => { o with state := s }
    | some _ => (step o.state (.execute i)).map fun s => { o with state := s }

/-- A reader holds nothing and finds the queue empty. -/
def Idle (s : State α R) (i : Fin R) : Prop :=
  s.cmd i = none ∧ s.queue.readersPos i = s.queue.writePos

/-- The commands `cmds` are all written, and the readers idle. -/
def Done (cmds : List α) (o : Open α R) : Prop :=
  o.cmds = [] ∧ o.state.written = cmds ∧ ∀ i, Idle o.state i

/-- The positions are slots of the ring. -/
structure InRing (q : ShmQueueT α R) : Prop where
  numSlots : 2 ≤ q.numSlots
  writePos : q.writePos < q.numSlots
  readersPos : ∀ i, q.readersPos i < q.numSlots

section Distance

variable {n r w : Nat}

theorem distance_lt (hr : r < n) (hw : w < n) : distance n r w < n := by
  unfold distance
  split <;> omega

theorem distance_advance (hr : r < n) (hw : w < n) (hne : r ≠ w) :
    distance n (Foundation.Ring.next n r) w + 1 = distance n r w := by
  rw [next_eq hr]
  unfold distance
  split_ifs <;> omega

/-- A write moves the writer one slot away from a reader, or onto it. -/
theorem distance_next_le (hr : r < n) (hw : w < n) :
    distance n r (Foundation.Ring.next n w) ≤ distance n r w + 1 := by
  by_cases hlap : Foundation.Ring.next n w = r
  · rw [hlap, distance, if_pos (Nat.le_refl r), Nat.sub_self]
    exact Nat.zero_le _
  · exact (distance_next hr hw hlap).le

end Distance

section Steps

variable {o o' : Open α R} {i : Fin R}

theorem writer_cases (h : next o .writer = some o') : ∃ c cs, o.cmds = c :: cs ∧
    (o.state.queue.writePos = 0 → ∀ i, o.state.queue.readersPos i = 0) ∧
      o' = ⟨{ o.state with
        queue := o.state.queue.put c
        written := o.state.written ++ [c] }, cs⟩ := by
  unfold next at h
  cases hcmds : o.cmds with
  | nil => simp only [hcmds, reduceCtorEq] at h
  | cons c cs =>
    simp only [hcmds] at h
    obtain ⟨s, hs, rfl⟩ := Option.map_eq_some_iff.mp h
    obtain ⟨q, hq, rfl⟩ := Option.map_eq_some_iff.mp hs
    obtain ⟨hwait, rfl⟩ := shmWrite_eq hq
    exact ⟨c, cs, rfl, hwait, rfl⟩

theorem reader_cases (h : next o (.reader i) = some o') :
    (Idle o.state i ∧ o' = o) ∨
    (o.state.cmd i = none ∧ o.state.queue.readersPos i ≠ o.state.queue.writePos ∧
      o' = { o with state := { o.state with
        queue := o.state.queue.advance i
        cmd := Function.update o.state.cmd i (some (o.state.queue.readersPos i)) } }) ∨
    (∃ p, o.state.cmd i = some p ∧ o' = { o with state := { o.state with
      cmd := Function.update o.state.cmd i none
      executed := Function.update o.state.executed i
        (o.state.executed i ++ [o.state.queue.shm p]) } }) := by
  unfold next at h
  cases hcmd : o.state.cmd i with
  | none =>
    simp only [hcmd] at h
    obtain ⟨s, hs, rfl⟩ := Option.map_eq_some_iff.mp h
    rcases step_cases hs with ⟨c, ha, -⟩ | ⟨j, ha, -, hempty, rfl⟩ | ⟨j, ha, -, hne, rfl⟩ |
      ⟨j, p, ha, -⟩
    · cases ha
    · cases ha
      exact .inl ⟨⟨hcmd, hempty⟩, rfl⟩
    · cases ha
      exact .inr (.inl ⟨rfl, hne, rfl⟩)
    · cases ha
  | some p =>
    simp only [hcmd] at h
    obtain ⟨s, hs, rfl⟩ := Option.map_eq_some_iff.mp h
    rcases step_cases hs with ⟨c, ha, -⟩ | ⟨j, ha, -⟩ | ⟨j, ha, -⟩ | ⟨j, p', ha, hp, rfl⟩
    · cases ha
    · cases ha
    · cases ha
    · cases ha
      exact .inr (.inr ⟨p', hcmd.symm.trans hp, rfl⟩)

theorem InRing.put (h : InRing o.state.queue) (c : α) : InRing (o.state.queue.put c) :=
  ⟨h.numSlots, next_lt h.writePos, h.readersPos⟩

theorem InRing.advance {q : ShmQueueT α R} (h : InRing q) (i : Fin R) : InRing (q.advance i) := by
  refine ⟨h.numSlots, h.writePos, fun j => ?_⟩
  show Function.update q.readersPos i _ j < q.numSlots
  by_cases hj : j = i
  · rw [hj, Function.update_self]
    exact next_lt (h.readersPos i)
  · rw [Function.update_of_ne hj]
    exact h.readersPos j

end Steps

section Rank

variable {o o' : Open α R} {i : Fin R}

/-- Whether a reader holds a slot. -/
def held : Option Nat → Nat
  | none => 0
  | some _ => 1

/-- How many turns a reader is from being idle. -/
def readerRank (s : State α R) (i : Fin R) : Nat :=
  2 * distance s.queue.numSlots (s.queue.readersPos i) s.queue.writePos + held (s.cmd i)

/-- Every write may cost each reader two turns, and takes one itself. -/
def rank (o : Open α R) : Nat :=
  total (readerRank o.state) (List.finRange R) + (2 * R + 1) * o.cmds.length

/-- The next turn counts. -/
def Helps (o : Open α R) : Party R → Prop
  | .writer => o.cmds ≠ [] ∧
      (o.state.queue.writePos = 0 → ∀ i, o.state.queue.readersPos i = 0)
  | .reader i => ¬ Idle o.state i

theorem total_add_le {f g : Fin R → Nat} {k : Nat} {is : List (Fin R)}
    (h : ∀ i ∈ is, f i ≤ g i + k) : total f is ≤ total g is + is.length * k := by
  induction is with
  | nil => exact Nat.zero_le _
  | cons i is ih =>
    have hrest := ih fun j hj => h j (List.mem_cons_of_mem _ hj)
    have hi := h i List.mem_cons_self
    rw [total_cons, total_cons, List.length_cons, Nat.succ_mul]
    omega

theorem writer_rank (h : InRing o.state.queue) (hstep : next o .writer = some o') :
    rank o' < rank o := by
  obtain ⟨c, cs, hcmds, -, rfl⟩ := writer_cases hstep
  have hreaders : ∀ i ∈ List.finRange R, readerRank { o.state with
      queue := o.state.queue.put c
      written := o.state.written ++ [c] } i ≤ readerRank o.state i + 2 := by
    intro i _
    have hle := distance_next_le (h.readersPos i) h.writePos
    simp only [readerRank, ShmQueueT.put]
    omega
  have htotal := total_add_le hreaders
  rw [List.length_finRange] at htotal
  have hbefore : rank o = total (readerRank o.state) (List.finRange R) +
      ((2 * R + 1) * cs.length + (2 * R + 1)) := by
    rw [rank, hcmds, List.length_cons, Nat.mul_succ]
  rw [hbefore]
  show total (readerRank { o.state with
    queue := o.state.queue.put c
    written := o.state.written ++ [c] }) _ + (2 * R + 1) * cs.length < _
  omega

theorem reader_rank (h : InRing o.state.queue) (hstep : next o (.reader i) = some o') :
    rank o' ≤ rank o ∧ (¬ Idle o.state i → rank o' < rank o) := by
  have hlt : o'.cmds = o.cmds → readerRank o'.state i < readerRank o.state i →
      (∀ j, j ≠ i → readerRank o'.state j = readerRank o.state j) → rank o' < rank o := by
    intro hcmds hi hrest
    rw [rank, rank, hcmds]
    apply Nat.add_lt_add_right
    refine total_lt (fun j _ => ?_) (List.mem_finRange i) hi
    by_cases hj : j = i
    · rw [hj]
      exact hi.le
    · exact (hrest j hj).le
  rcases reader_cases hstep with ⟨hidle, rfl⟩ | ⟨hnone, hne, rfl⟩ | ⟨p, hp, rfl⟩
  · exact ⟨Nat.le_refl _, fun hopen => absurd hidle hopen⟩
  · have hfall := hlt rfl ?_ ?_
    · exact ⟨hfall.le, fun _ => hfall⟩
    · have hadvance := distance_advance (h.readersPos i) h.writePos hne
      simp only [readerRank, ShmQueueT.advance, Function.update_self, hnone, held]
      omega
    · intro j hj
      simp only [readerRank, ShmQueueT.advance, Function.update_of_ne hj]
  · have hfall := hlt rfl ?_ ?_
    · exact ⟨hfall.le, fun _ => hfall⟩
    · simp only [readerRank, Function.update_self, hp, held]
      exact Nat.lt_succ_self _
    · intro j hj
      simp only [readerRank, Function.update_of_ne hj]

/-- A reader that waits for the writer does not keep the writer waiting. -/
theorem exists_helps {cmds : List α} (hall : o.state.written ++ o.cmds = cmds)
    (hopen : ¬ Done cmds o) : ∃ p, Helps o p := by
  by_contra hnone
  have hidle : ∀ i, Idle o.state i := fun i => by_contra fun hi => hnone ⟨.reader i, hi⟩
  have hempty : o.cmds = [] := by
    by_contra hmore
    exact hnone ⟨.writer, hmore, fun hzero i => (hidle i).2.trans hzero⟩
  rw [hempty, List.append_nil] at hall
  exact hopen ⟨hempty, hall, hidle⟩

/-- A party with something to do keeps it, or the turn of another one has brought the end
closer. -/
theorem helps_kept (h : InRing o.state.queue) {p q : Party R} (hp : Helps o p) (hne : p ≠ q)
    (hstep : next o q = some o') : rank o' < rank o ∨ Helps o' p := by
  cases q with
  | writer => exact .inl (writer_rank h hstep)
  | reader j =>
    by_cases hidle : Idle o.state j
    · right
      rcases reader_cases hstep with ⟨-, rfl⟩ | ⟨-, hmore, -⟩ | ⟨x, hx, -⟩
      · exact hp
      · exact absurd hidle.2 hmore
      · rw [hidle.1] at hx
        cases hx
    · exact .inl ((reader_rank h hstep).2 hidle)

theorem inRing_step (h : InRing o.state.queue) {p : Party R} (hstep : next o p = some o') :
    InRing o'.state.queue := by
  cases p with
  | writer =>
    obtain ⟨c, cs, -, -, rfl⟩ := writer_cases hstep
    exact h.put c
  | reader i =>
    rcases reader_cases hstep with ⟨-, rfl⟩ | ⟨-, -, rfl⟩ | ⟨p, -, rfl⟩
    · exact h
    · exact h.advance i
    · exact h

/-- No turn changes what is written or about to be. -/
theorem written_step {p : Party R} (hstep : next o p = some o') :
    o'.state.written ++ o'.cmds = o.state.written ++ o.cmds := by
  cases p with
  | writer =>
    obtain ⟨c, cs, hcmds, -, rfl⟩ := writer_cases hstep
    rw [hcmds, List.append_assoc]
    rfl
  | reader i =>
    rcases reader_cases hstep with ⟨-, rfl⟩ | ⟨-, -, rfl⟩ | ⟨p, -, rfl⟩
    all_goals rfl

theorem done_step {cmds : List α} (hdone : Done cmds o) {p : Party R}
    (hstep : next o p = some o') : Done cmds o' := by
  cases p with
  | writer =>
    obtain ⟨c, cs, hcmds, -⟩ := writer_cases hstep
    rw [hdone.1] at hcmds
    cases hcmds
  | reader i =>
    obtain ⟨hnone, hempty⟩ := hdone.2.2 i
    rcases reader_cases hstep with ⟨-, rfl⟩ | ⟨-, hmore, -⟩ | ⟨p, hp, -⟩
    · exact hdone
    · exact absurd hempty hmore
    · rw [hnone] at hp
      cases hp

theorem helps_step (h : InRing o.state.queue) {p : Party R} (hp : Helps o p) :
    ∃ o', next o p = some o' ∧ rank o' < rank o := by
  cases p with
  | writer =>
    obtain ⟨hmore, hwait⟩ := hp
    obtain ⟨c, cs, hcmds⟩ := List.exists_cons_of_ne_nil hmore
    have hfree : ¬ (o.state.queue.writePos = 0 ∧ checkReadersEnd o.state.queue = false) := by
      rintro ⟨hzero, hend⟩
      rw [checkReadersEnd_eq_true.mpr (hwait hzero)] at hend
      cases hend
    obtain ⟨o', ho'⟩ : ∃ o', next o .writer = some o' := by
      simp only [next, hcmds, step, shmWrite, if_neg hfree]
      exact ⟨_, rfl⟩
    exact ⟨o', ho', writer_rank h ho'⟩
  | reader i =>
    obtain ⟨o', ho'⟩ : ∃ o', next o (.reader i) = some o' := by
      cases hcmd : o.state.cmd i with
      | none =>
        simp only [next, hcmd, step, if_true]
        exact ⟨_, rfl⟩
      | some p =>
        simp only [next, hcmd, step]
        exact ⟨_, rfl⟩
    exact ⟨o', ho', (reader_rank h ho').2 hp⟩

/-- The state is ranked on the way to having all of `cmds` written. -/
theorem ranked (cmds : List α) :
    Ranked next id (fun o : Open α R =>
      InRing o.state.queue ∧ o.state.written ++ o.cmds = cmds) (Done cmds) rank Helps where
  invariant := by
    rintro o p o' ⟨h, hall⟩ hstep
    exact ⟨inRing_step h hstep, (written_step hstep).trans hall⟩
  stable := by
    rintro o p o' - hdone hstep
    exact done_step hdone hstep
  le := by
    rintro o p o' ⟨h, -⟩ hstep
    cases p with
    | writer => exact (writer_rank h hstep).le
    | reader i => exact (reader_rank h hstep).1
  keeps := by
    rintro o p q o' ⟨h, -⟩ hp hne hstep
    exact helps_kept h hp hne hstep
  helps := by
    rintro o p ⟨h, -⟩ hp
    exact helps_step h hp
  exists_helps := by
    rintro o ⟨-, hall⟩ hopen
    exact exists_helps hall hopen

theorem rank_le (h : InRing o.state.queue) :
    rank o ≤ R * (2 * o.state.queue.numSlots) + (2 * R + 1) * o.cmds.length := by
  apply Nat.add_le_add_right
  have hreader : ∀ i ∈ List.finRange R,
      readerRank o.state i ≤ 2 * o.state.queue.numSlots := by
    intro i _
    have hlt := distance_lt (h.readersPos i) h.writePos
    have hheld : held (o.state.cmd i) ≤ 1 := by
      cases o.state.cmd i with
      | none => exact Nat.zero_le 1
      | some p => exact Nat.le_refl 1
    rw [readerRank]
    omega
  have hle := total_le_mul hreader
  rw [List.length_finRange] at hle
  exact hle

end Rank

theorem run_inRing {numSlots : Nat} (h2 : 2 ≤ numSlots) (shm : Nat → α) (as : List (Step α R))
    {s : State α R} (hrun : run (init numSlots shm) as = some s) :
    InRing s.queue ∧ s.queue.numSlots = numSlots := by
  induction as using List.reverseRecOn generalizing s with
  | nil =>
    obtain rfl := Option.some.inj hrun
    have hpos : 0 < numSlots := Nat.lt_of_lt_of_le Nat.two_pos h2
    exact ⟨⟨h2, hpos, fun _ => hpos⟩, rfl⟩
  | append_singleton as a ih =>
    rw [run_snoc, Option.bind_eq_some_iff] at hrun
    obtain ⟨t, ht, hlast⟩ := hrun
    obtain ⟨hring, hslots⟩ := ih ht
    rcases step_cases hlast with ⟨c, -, -, rfl⟩ | ⟨i, -, -, -, rfl⟩ | ⟨i, -, -, -, rfl⟩ |
      ⟨i, p, -, -, rfl⟩
    · exact ⟨⟨hring.numSlots, next_lt hring.writePos, hring.readersPos⟩, hslots⟩
    · exact ⟨hring, hslots⟩
    · exact ⟨hring.advance i, hslots⟩
    · exact ⟨hring, hslots⟩

/-- However many commands a lap has lost, the writer is never held up for good: under every
schedule that gives each party a turn in every round it writes all of its commands, and the
readers become idle. -/
theorem writes_return {numSlots : Nat} (h2 : 2 ≤ numSlots) (shm : Nat → α)
    (as : List (Step α R)) (s : State α R) (hrun : run (init numSlots shm) as = some s)
    (cmds : List α) (rounds : List (List (Party R))) (hrounds : ∀ ps ∈ rounds, Round ps)
    (hlen : R * (2 * numSlots) + (2 * R + 1) * cmds.length ≤ rounds.length) :
    Done (s.written ++ cmds) (exec next id ⟨s, cmds⟩ rounds.flatten) := by
  obtain ⟨hring, rfl⟩ := run_inRing h2 shm as hrun
  have hrank : rank ⟨s, cmds⟩ ≤ R * (2 * s.queue.numSlots) + (2 * R + 1) * cmds.length :=
    rank_le hring
  exact (ranked (s.written ++ cmds)).done_of_rounds ⟨hring, rfl⟩ hrounds (hrank.trans hlen)

private def lostLap : List (Step Nat 1) := [.write 1, .write 2]

/-- After a lost lap of two commands, two more are written and the reader becomes idle. -/
theorem writes_return_after_lap : ∃ s : State Nat 1, s.written = [1, 2] ∧
    Done ([1, 2] ++ [3, 4]) (exec next id ⟨s, [3, 4]⟩
      (List.replicate 10 [Party.reader ⟨0, Nat.one_pos⟩, .writer]).flatten) := by
  refine ⟨(run (init 2 fun _ => 0) lostLap).get rfl, rfl,
    writes_return (Nat.le_refl 2) (fun _ => 0) lostLap _ (Option.some_get _).symm [3, 4] _ ?_
      (Nat.le_of_eq rfl)⟩
  intro ps hps p
  rw [List.eq_of_mem_replicate hps]
  cases p with
  | writer => exact List.mem_cons_of_mem _ List.mem_cons_self
  | reader i =>
    rw [Subsingleton.elim i ⟨0, Nat.one_pos⟩]
    exact List.mem_cons_self

end SmeltConsensus.SharedQueue.Progress
