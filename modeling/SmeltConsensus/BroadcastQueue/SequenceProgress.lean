import SmeltConsensus.BroadcastQueue.SequenceDelivery

/-!
When the sequence-number queue gets stuck. Readers that have received everything
have published a position up to 15 messages ago; if that is as far behind as the
limit allows, the writer waits for a publication that needs another message.

A reader that the writer has overtaken receives nothing any more, but the writer never
waits for it: the position it waits for is less than a lap behind.
-/

set_option autoImplicit false
set_option relaxedAutoImplicit false

namespace SmeltConsensus.BroadcastQueue.SequenceProgress

open SmeltConsensus.Foundation
open SmeltConsensus.Foundation.Machine (Reachable run)
open SmeltConsensus.BroadcastQueue.Shm (slots slots_eq)
open SmeltConsensus.BroadcastQueue.Sequence
open SmeltConsensus.BroadcastQueue.SequenceDelivery

variable {α : Type} {R : Nat} {s : State α R}

/-- The wait loop of the writer's next `shm_send_raw`, or of the current one, exits on the
positions that are published now. -/
def CanSend (s : State α R) : Prop :=
  s.writer.nextSeq ≠ s.writer.nextSync ∨
    s.writer.nextSeq ≠ getNextSync s.shm s.writer.numSlots

/-- The writer can send or some reader can receive. -/
def Progress (s : State α R) : Prop :=
  CanSend s ∨ ∃ i, (shmReceiveNonBlocking s.shm i (s.readers i)).1.isSome = true

theorem foldl_lower_le {ps : List Nat} {min : Nat} :
    ps.foldl lower min ≤ min ∧ ∀ p ∈ ps, ps.foldl lower min ≤ p := by
  induction ps generalizing min with
  | nil => exact ⟨Nat.le_refl _, fun _ hp => by cases hp⟩
  | cons q ps ih =>
    obtain ⟨hmin, hps⟩ := @ih (lower min q)
    obtain ⟨hle, hq⟩ := lower_le min q
    refine ⟨hmin.trans hle, fun p hp => ?_⟩
    rcases List.mem_cons.mp hp with rfl | hp
    · exact hmin.trans hq
    · exact hps p hp

theorem le_foldl_lower {ps : List Nat} {min b : Nat} (hmin : b ≤ min) (hps : ∀ p ∈ ps, b ≤ p) :
    b ≤ ps.foldl lower min := by
  induction ps generalizing min with
  | nil => exact hmin
  | cons q ps ih =>
    apply ih (le_lower hmin (hps q List.mem_cons_self))
    exact fun p hp => hps p (List.mem_cons_of_mem _ hp)

/-- The minimum is where it started or one of the positions. -/
theorem foldl_lower_mem (ps : List Nat) (min : Nat) :
    ps.foldl lower min = min ∨ ps.foldl lower min ∈ ps := by
  induction ps generalizing min with
  | nil => exact .inl rfl
  | cons q ps ih =>
    rw [List.foldl_cons]
    rcases ih (lower min q) with heq | hmem
    · rw [heq, lower]
      split
      · exact .inr List.mem_cons_self
      · exact .inl rfl
    · exact .inr (List.mem_cons_of_mem _ hmem)

/-- A writer that cannot send waits for a reader that has published the position a lap
behind. -/
theorem exists_slowest (h : Consistent s) (hbound : s.sent.length < 2 ^ 32 - 64)
    (hwait : ¬ CanSend s) :
    ∃ i, s.sent.length + 1 = published (s.received i).length + (slots R - 1) := by
  obtain ⟨-, hnext⟩ := not_or.mp hwait
  have hseq := not_not.mp hnext
  rw [getNextSync, h.writer.nextSeq, h.writer.numSlots] at hseq
  rcases foldl_lower_mem ((List.finRange R).map s.shm.readersPos) 0xFFFFFFFF with hconst | hmem
  · omega
  · obtain ⟨i, -, hi⟩ := List.mem_map.mp hmem
    refine ⟨i, ?_⟩
    rw [← h.readersPos i, hi]
    exact hseq

/-- With at most 44 readers the writer never waits for a reader that has nothing to receive. -/
theorem progress_of_few (hR : R ≤ 44) (h : Consistent s) (hbound : s.sent.length < 2 ^ 32 - 64) :
    Progress s := by
  by_contra hstuck
  obtain ⟨hwait, hnone⟩ := not_or.mp hstuck
  obtain ⟨i, hi⟩ := exists_slowest h hbound hwait
  have hslots := slots_eq R
  have hpub := published_le (s.received i).length
  rcases h.receive_within i (by omega) with ⟨hlen, -⟩ | ⟨msg, -, hsome⟩
  · rw [hlen] at hi
    unfold published at hi
    omega
  · apply hnone
    refine ⟨i, ?_⟩
    rw [hsome]
    rfl

/-- Every reader has received every message. -/
def CaughtUp (s : State α R) : Prop := ∀ i, s.received i = s.sent

/-- With every reader caught up it is the writer that has to go on. -/
theorem progress_iff_canSend (h : Invariant s) (hcaught : CaughtUp s) :
    Progress s ↔ CanSend s := by
  constructor
  · rintro (hsend | ⟨i, hi⟩)
    · exact hsend
    · rcases h.receive_cases i with ⟨-, hnone⟩ | ⟨msg, hmsg, -⟩
      · rw [hnone] at hi
        cases hi
      · rw [hcaught i, List.getElem?_eq_none (Nat.le_refl _)] at hmsg
        cases hmsg
  · exact .inl

/-- Readers that have caught up with `n` messages leave the writer stuck if their published
position is the whole limit behind. -/
theorem canSend_iff (hR : 1 ≤ R) (h : Invariant s) (hcaught : CaughtUp s)
    (hbound : s.sent.length < 2 ^ 32 - 64) :
    CanSend s ↔ s.sent.length + 2 ≠ published s.sent.length + slots R := by
  have hlt := h.reader_lPos ⟨0, hR⟩
  have hpos : ∀ i, s.shm.readersPos i = published s.sent.length := by
    intro i
    rw [h.readersPos i, hcaught i]
  have hpub := published_le s.sent.length
  have hlimit := h.limit_pos ⟨0, hR⟩
  have hbelow := h.limit_seq
  rw [hpos] at hlimit
  rw [h.writer.nextSeq] at hbelow
  -- the minimum is what all of them have published
  have hmin : ((List.finRange R).map s.shm.readersPos).foldl lower 0xFFFFFFFF =
      published s.sent.length := by
    apply Nat.le_antisymm
    · apply (foldl_lower_le).2
      exact List.mem_map.mpr ⟨⟨0, hR⟩, List.mem_finRange _, hpos _⟩
    · apply le_foldl_lower
      · omega
      · intro p hp
        obtain ⟨i, -, rfl⟩ := List.mem_map.mp hp
        exact (hpos i).ge
  rw [CanSend, getNextSync, hmin, h.writer.nextSeq, h.writer.numSlots]
  omega

/-- A turn of the loop with no other step in between. -/
theorem turn_run {scan : Scan α} (hi : scan.i < R) (hbelow : scan.below = false)
    (hscan : s.scan = some scan) : ∃ k, run step s (List.replicate k .poll) = some { s with
      scan := some ⟨scan.msg, scan.i + 1, lower scan.min (s.shm.readersPos ⟨scan.i, hi⟩), false⟩ } := by
  obtain ⟨msg, i, min, below⟩ := scan
  obtain rfl : below = false := hbelow
  by_cases hlt : min > s.shm.readersPos ⟨i, hi⟩
  · -- two loads
    have hfirst : step s .poll = some { s with scan := some ⟨msg, i, min, true⟩ } := by
      simp only [step, hscan, hi, dite_true, Scan.load, Bool.false_eq_true, if_false, if_pos hlt]
    have hsecond : step { s with scan := some ⟨msg, i, min, true⟩ } .poll = some { s with
        scan := some ⟨msg, i + 1, s.shm.readersPos ⟨i, hi⟩, false⟩ } := by
      simp only [step, hi, dite_true, Scan.load, if_true]
    refine ⟨2, ?_⟩
    rw [List.replicate_succ, Machine.run_cons, hfirst, Option.bind_some, List.replicate_succ,
      Machine.run_cons, hsecond, lower, if_pos hlt]
    rfl
  · have hfirst : step s .poll = some { s with scan := some ⟨msg, i + 1, min, false⟩ } := by
      simp only [step, hscan, hi, dite_true, Scan.load, Bool.false_eq_true, if_false, if_neg hlt]
    refine ⟨1, ?_⟩
    rw [List.replicate_succ, Machine.run_cons, hfirst, lower, if_neg hlt]
    rfl

/-- The rest of a scan with no other step in between. -/
theorem polls_run (ps qs : List (Fin R)) (hsplit : List.finRange R = ps ++ qs) (s : State α R)
    (scan : Scan α) (hi : scan.i = ps.length) (hbelow : scan.below = false)
    (hscan : s.scan = some scan) : ∃ k, run step s (List.replicate k .poll) = some { s with
      scan := some ⟨scan.msg, R, (qs.map s.shm.readersPos).foldl lower scan.min, false⟩ } := by
  have hlen := congrArg List.length hsplit
  rw [List.length_finRange, List.length_append] at hlen
  induction qs generalizing ps s scan with
  | nil =>
    obtain ⟨msg, i, min, below⟩ := scan
    obtain rfl : i = R := hi.trans hlen.symm
    obtain rfl : below = false := hbelow
    refine ⟨0, ?_⟩
    show some s = some { s with scan := some ⟨msg, i, min, false⟩ }
    rw [← hscan]
  | cons q qs ih =>
    rw [List.length_cons] at hlen
    have hlt : scan.i < R := by omega
    have hq : (⟨scan.i, hlt⟩ : Fin R) = q := by
      have hget : (List.finRange R)[scan.i]? = some q := by
        rw [hsplit, hi, List.getElem?_append_right (Nat.le_refl _), Nat.sub_self]
        rfl
      rw [List.getElem?_eq_getElem (by rw [List.length_finRange]; exact hlt)] at hget
      rw [← Option.some.inj hget, List.getElem_finRange]
      rfl
    obtain ⟨j, hturn⟩ := turn_run hlt hbelow hscan
    rw [hq] at hturn
    obtain ⟨k, hrest⟩ := ih (ps ++ [q]) (by rw [hsplit, List.append_assoc, List.singleton_append])
      { s with scan := some ⟨scan.msg, scan.i + 1, lower scan.min (s.shm.readersPos q), false⟩ }
      ⟨scan.msg, scan.i + 1, lower scan.min (s.shm.readersPos q), false⟩
      (by rw [List.length_append, List.length_singleton, ← hi]) rfl rfl
      (by rw [List.length_append, List.length_singleton]; omega)
    refine ⟨j + k, ?_⟩
    rw [List.replicate_add, Machine.run_append, hturn]
    exact hrest

/-- A scan whose result is not the current number ends the wait. -/
theorem sync_step {scan : Scan α} (hscan : s.scan = some scan) (hi : R ≤ scan.i)
    (hne : s.writer.nextSeq ≠ scan.min + (s.writer.numSlots - 1)) :
    step s .sync = some ({ s with
      writer := { s.writer with nextSync := scan.min + (s.writer.numSlots - 1) }
      scan := none }.put scan.msg) := by
  simp only [step, hscan, if_neg (Nat.not_lt.mpr hi), if_neg hne]

/-- A send that can complete does so if no other step comes in between. -/
theorem send_completes (hscan : s.scan = none) (hcan : CanSend s) (msg : α) :
    ∃ as s', run step s as = some s' ∧ s'.scan = none ∧ s'.sent = s.sent ++ [msg] ∧
      s'.received = s.received := by
  obtain ⟨hseq, hsync, hnum, -⟩ := wrap_eq s.writer
  by_cases hlimit : s.writer.nextSeq = s.writer.nextSync
  · have hnext : s.writer.nextSeq ≠ getNextSync s.shm s.writer.numSlots :=
      hcan.resolve_left fun hne => hne hlimit
    have hstart : step s (.send msg) = some { s with
        writer := s.writer.wrap
        scan := some (scanStart msg) } := by
      simp only [step, hscan, hseq, hsync, if_pos hlimit]
    obtain ⟨k, hpolls⟩ := polls_run [] (List.finRange R) rfl
      { s with writer := s.writer.wrap, scan := some (scanStart msg) } (scanStart msg) rfl rfl rfl
    have hdone : ¬ s.writer.wrap.nextSeq = getNextSync s.shm s.writer.wrap.numSlots := by
      rw [hseq, hnum]
      exact hnext
    refine ⟨.send msg :: (List.replicate k .poll ++ [.sync]),
      { s with
        writer := { s.writer.wrap with
          nextSync := getNextSync s.shm s.writer.wrap.numSlots }
        scan := none }.put msg, ?_, rfl, rfl, rfl⟩
    rw [Machine.run_cons, hstart, Option.bind_some, Machine.run_append, hpolls, Option.bind_some,
      Machine.run_cons]
    rw [sync_step rfl (Nat.le_refl R) hdone]
    rfl
  · have hput : step s (.send msg) = some ({ s with writer := s.writer.wrap }.put msg) := by
      simp only [step, hscan, hseq, hsync, if_neg hlimit]
    refine ⟨[.send msg], { s with writer := s.writer.wrap }.put msg, ?_, hscan, rfl, rfl⟩
    rw [Machine.run_cons, hput]
    rfl

/-- The readers of a queue that overtakes none can catch up. -/
theorem catch_up (h30 : 30 ≤ R) (hR : R ≤ 60) {zero : α} (h : Reachable step (init R zero) s)
    (hbound : s.sent.length < 2 ^ 32 - 64) :
    ∃ s', Reachable step (init R zero) s' ∧ s'.sent = s.sent ∧ s'.scan = s.scan ∧ CaughtUp s' := by
  suffices key : ∀ ids : List (Fin R), ∃ s', Reachable step (init R zero) s' ∧
      s'.sent = s.sent ∧ s'.scan = s.scan ∧ ∀ i ∈ ids, s'.received i = s'.sent by
    obtain ⟨s', hr, hsent, hscan, hall⟩ := key (List.finRange R)
    exact ⟨s', hr, hsent, hscan, fun i => hall i (List.mem_finRange i)⟩
  intro ids
  induction ids with
  | nil => exact ⟨s, h, rfl, rfl, fun i hi => by cases hi⟩
  | cons i ids ih =>
    obtain ⟨t, hr, hsent, hscan, hall⟩ := ih
    have hI := invariant (.inr h30) hR hr (by rw [hsent]; exact hbound)
    have hle := hI.received_le i
    have hwithin := hI.within i
    obtain ⟨t', hrun, hsent', hscan', hreceived⟩ := received_all i
      (t.sent.length - (t.received i).length) t hI.toConsistent (by omega) (by omega)
    refine ⟨t', hr.run hrun, hsent'.trans hsent, hscan'.trans hscan, ?_⟩
    intro j hj
    rw [hreceived, hsent']
    by_cases hji : j = i
    · rw [hji, Function.update_self]
    · rw [Function.update_of_ne hji]
      exact hall j ((List.mem_cons.mp hj).resolve_left hji)

/-- In a queue that does not get stuck the readers can follow the writer message by message. -/
theorem lockstep (h30 : 30 ≤ R) (hR : R ≤ 60) (zero : α)
    (hp : ∀ s : State α R, Reachable step (init R zero) s → s.sent.length < 2 ^ 32 - 64 →
      Progress s) (n : Nat) (hn : n ≤ 30) :
    ∃ s : State α R, Reachable step (init R zero) s ∧ s.scan = none ∧ s.sent.length = n ∧
      CaughtUp s := by
  induction n with
  | zero => exact ⟨_, .refl _, rfl, rfl, fun _ => rfl⟩
  | succ n ih =>
    obtain ⟨s, hr, hscan, hsent, hcaught⟩ := ih (by omega)
    have hI := invariant (.inr h30) hR hr (by omega)
    have hcan := (progress_iff_canSend hI hcaught).mp (hp s hr (by omega))
    obtain ⟨as, t, hrun, hscan', hsent', -⟩ := send_completes hscan hcan zero
    have hlen : t.sent.length = n + 1 := by
      rw [hsent', List.length_append, hsent]
      rfl
    obtain ⟨t', hr', hsame, hidle, hcaught'⟩ := catch_up h30 hR (hr.run hrun) (by omega)
    exact ⟨t', hr', hidle.trans hscan', by rw [hsame, hlen], hcaught'⟩

/-- The queue never gets stuck if it has at most 44 readers, and only then. -/
theorem sequence_progress (hR1 : 1 ≤ R) (hR : R ≤ 60) (zero : α) :
    (∀ s : State α R, Reachable step (init R zero) s → s.sent.length < 2 ^ 32 - 64 →
      Progress s) ↔ R ≤ 44 := by
  have hslots := slots_eq R
  constructor
  · intro hp
    by_contra hmany
    -- the number of messages after which the queue is stuck
    obtain ⟨n, hn, hstuck⟩ : ∃ n, n ≤ 30 ∧ n + 2 = published n + slots R := by
      by_cases h45 : R = 45
      · exact ⟨30, by omega, by rw [hslots, h45]; decide⟩
      · refine ⟨slots R - 2, by omega, ?_⟩
        unfold published
        omega
    obtain ⟨s, hr, -, hsent, hcaught⟩ := lockstep (by omega) hR zero hp n hn
    have hI := invariant (.inr (by omega)) hR hr (by omega)
    have hcan := (progress_iff_canSend hI hcaught).mp (hp s hr (by omega))
    rw [canSend_iff hR1 hI hcaught (by omega), hsent] at hcan
    exact hcan hstuck
  · exact fun hfew s hr hbound => progress_of_few hfew (consistent hR hr) hbound

private def oneMessage : List (Step Nat 3) := [.send 7, .receive 0]

/-- One message to three readers. -/
theorem sequence_progress_three : ∃ s : State Nat 3, s.sent = [7] ∧ s.received 0 = [7] ∧
    s.received 1 = [] ∧ Progress s :=
  ⟨(run step (init 3 0) oneMessage).get rfl, by decide, by decide, by decide,
    (sequence_progress (by decide) (by decide) 0).mpr (by decide) _
      (Machine.reachable_of_run oneMessage rfl) (by decide)⟩

/-- With 60 readers there are two slots, and the first message is already at the limit. -/
theorem stuck_at_first_message : ¬ ∀ R, 1 ≤ R → R ≤ 60 → ∀ s : State Nat R,
    Reachable step (init R 0) s → s.sent.length < 2 ^ 32 - 64 → Progress s := by
  intro hall
  have hp := hall 60 (by decide) (by decide) (init 60 0) (.refl _) (by decide)
  have hI : Invariant (init 60 0) := invariant_init (by decide) 0
  rw [progress_iff_canSend hI fun _ => rfl, canSend_iff (by decide) hI (fun _ => rfl) (by decide)]
    at hp
  exact hp (by decide)

end SmeltConsensus.BroadcastQueue.SequenceProgress
