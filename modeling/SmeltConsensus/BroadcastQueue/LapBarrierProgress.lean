import SmeltConsensus.BroadcastQueue.LapBarrierDelivery
import SmeltConsensus.Foundation.Account
import SmeltConsensus.Foundation.FairSchedule

/-!
Progress of the lap-barrier queue. Its parties poll: a reader without a message goes round
and round, and the writer starts its checks again at the first reader that has not arrived.
A rank of the state ignores both, and some party can always bring it down.
-/

set_option autoImplicit false
set_option relaxedAutoImplicit false

namespace SmeltConsensus.BroadcastQueue.LapBarrierProgress

open SmeltConsensus.Foundation
open SmeltConsensus.Foundation.Account
open SmeltConsensus.Foundation.FairSchedule
open SmeltConsensus.Foundation.Machine (Reachable run)
open SmeltConsensus.BroadcastQueue.Shm (slots slots_eq)
open SmeltConsensus.BroadcastQueue.LapBarrier
open SmeltConsensus.BroadcastQueue.LapBarrierDelivery

variable {α : Type} {R : Nat}

inductive Party (R : Nat)
  | writer
  | reader (i : Fin R)

/-- The step that a party takes when it gets its turn. -/
def act : Party R → Step α R
  | .writer => .writer
  | .reader i => .reader i

/-- The message of a call of `shm_send_raw` that is not in its slot yet. -/
def unsent : WriterPc α → List α
  | .idle => []
  | .test msg => [msg]
  | .check msg _ => [msg]
  | .release msg _ => [msg]
  | .slot msg => [msg]
  | .move => []

/-- The messages that are in the queue, and the one that is about to be. -/
def called (s : State α R) : List α := s.sent ++ unsent s.writer

/-- The call is over and every reader has received `msgs`. -/
def Drained (msgs : List α) (s : State α R) : Prop :=
  s.writer = .idle ∧ ∀ i, s.received i = msgs

section Reader

/-- The steps of a reader, of `n` slots a lap and with the writer at `pos`. -/
inductive Moves (n pos : Nat) (r : Reader) : Reader → Prop
  | arrive : r.pc = .idle → r.lPos = n → Moves n pos r ⟨.wait, END, 0, r.count⟩
  | look : r.pc = .idle → r.lPos ≠ n → Moves n pos r { r with pc := .test }
  | released : r.pc = .wait → Moves n pos r { r with pc := .test }
  | empty : r.pc = .test → r.lPos = pos → Moves n pos r { r with pc := .idle }
  | found : r.pc = .test → r.lPos ≠ pos → Moves n pos r { r with pc := .read }
  | copy : r.pc = .read → Moves n pos r ⟨.idle, r.status, r.lPos + 1, r.count + 1⟩

/-- What the rank of a reader rests on. -/
structure Local (n total : Nat) (r : Reader) : Prop where
  tested : r.pc = .test → r.lPos ≠ n
  waits : r.pc = .wait → r.lPos = 0
  reads : r.pc = .read → r.count < total

/-- How far a reader is from `total` messages and the end of its lap. The turns of a reader that
finds nothing leave it as it is. -/
def readerRank (n pos total : Nat) (r : Reader) : Nat :=
  5 * (total - r.count) +
    match r.pc with
    | .idle => if r.lPos = n then 4 else 2
    | .wait => 3
    | .test => if r.lPos < pos then 1 else 2
    | .read => 0

/-- The next step of the reader counts. -/
def ReaderHelps (n pos : Nat) (r : Reader) : Prop :=
  match r.pc with
  | .idle => r.lPos = n ∨ r.lPos < pos
  | .wait => r.status = RESET
  | .test => r.lPos < pos
  | .read => True

variable {n pos total : Nat} {r r' : Reader}

theorem Moves.end_status (hm : Moves n pos r r') (hend : r.status = END) : r'.status = END := by
  cases hm with
  | arrive _ _ => rfl
  | look _ _ => exact hend
  | released _ => exact hend
  | empty _ _ => exact hend
  | found _ _ => exact hend
  | copy _ => exact hend

theorem Moves.tested (hm : Moves n pos r r') (hn : 0 < n) (hwait : r.pc = .wait → r.lPos = 0)
    (htest : r'.pc = .test) : r'.lPos ≠ n := by
  cases hm with
  | arrive _ _ => cases htest
  | look _ hne => exact hne
  | released hpc =>
    show r.lPos ≠ n
    rw [hwait hpc]
    exact hn.ne
  | empty _ _ => cases htest
  | found _ _ => cases htest
  | copy _ => cases htest

theorem Moves.waits (hm : Moves n pos r r') (hwait : r'.pc = .wait) : r'.lPos = 0 := by
  cases hm with
  | arrive _ _ => rfl
  | look _ _ => cases hwait
  | released _ => cases hwait
  | empty _ _ => cases hwait
  | found _ _ => cases hwait
  | copy _ => cases hwait

/-- No step of a reader takes it away from the end, and one that counts brings it closer. -/
theorem Moves.rank (hm : Moves n pos r r') (hl : Local n total r) :
    readerRank n pos total r' ≤ readerRank n pos total r ∧
      (ReaderHelps n pos r → readerRank n pos total r' < readerRank n pos total r) := by
  obtain ⟨pc, status, lPos, count⟩ := r
  cases hm with
  | arrive hpc hend =>
    subst hpc
    simp only [readerRank, if_pos hend]
    exact ⟨by omega, fun _ => by omega⟩
  | look hpc hne =>
    subst hpc
    simp only [readerRank, if_neg hne]
    refine ⟨by split <;> omega, fun hh => ?_⟩
    have hlt : lPos < pos := hh.resolve_left hne
    rw [if_pos hlt]
    omega
  | released hpc =>
    subst hpc
    simp only [readerRank]
    exact ⟨by split <;> omega, fun _ => by split <;> omega⟩
  | empty hpc hpos =>
    subst hpc
    have hnot : ¬ lPos < pos := Nat.not_lt.mpr (Nat.le_of_eq hpos.symm)
    simp only [readerRank, if_neg (hl.tested rfl), if_neg hnot]
    exact ⟨Nat.le_refl _, fun hh => absurd hh hnot⟩
  | found hpc _ =>
    subst hpc
    simp only [readerRank]
    exact ⟨by split <;> omega, fun _ => by split <;> omega⟩
  | copy hpc =>
    subst hpc
    have hlt : count < total := hl.reads rfl
    simp only [readerRank]
    exact ⟨by split <;> omega, fun _ => by split <;> omega⟩

theorem readerRank_le (n pos total : Nat) (r : Reader) :
    readerRank n pos total r ≤ 5 * (total - r.count) + 4 := by
  unfold readerRank
  cases r.pc with
  | idle =>
    show _ + ite _ _ _ ≤ _
    split <;> omega
  | wait => exact Nat.le_succ _
  | test =>
    show _ + ite _ _ _ ≤ _
    split <;> omega
  | read => exact Nat.le_add_right _ _

/-- A message more brings the readers only closer to it. -/
theorem readerRank_succ (n pos total : Nat) (r : Reader) :
    readerRank n (pos + 1) total r ≤ readerRank n pos total r := by
  unfold readerRank
  cases r.pc with
  | idle => exact Nat.le_refl _
  | wait => exact Nat.le_refl _
  | test =>
    show _ + ite _ _ _ ≤ _ + ite _ _ _
    split <;> split <;> omega
  | read => exact Nat.le_refl _

theorem ReaderHelps.succ (h : ReaderHelps n pos r) : ReaderHelps n (pos + 1) r := by
  unfold ReaderHelps at h ⊢
  cases hpc : r.pc with
  | idle =>
    rw [hpc] at h
    exact h.imp id Nat.lt_succ_of_lt
  | wait =>
    rw [hpc] at h
    exact h
  | test =>
    rw [hpc] at h
    exact Nat.lt_succ_of_lt h
  | read => trivial

/-- An arrived reader has nothing to do. -/
theorem not_helps_of_arrived {v : Nat} (h : Arrived v r) : ¬ ReaderHelps n pos r := by
  unfold ReaderHelps
  rw [h.pc]
  show r.status ≠ RESET
  rw [h.status]
  decide

theorem readerRank_of_arrived {v : Nat} (h : Arrived v r) (pos' : Nat) :
    readerRank n pos' total r = readerRank n pos total r := by
  unfold readerRank
  rw [h.pc]

/-- A reader in the lap of the writer has something to do if a message or the end of the lap is
in front of it. -/
theorem helps_of_inLap {start : Nat} (h : InLap start pos r) (htested : r.pc = .test → r.lPos ≠ n)
    (hnext : r.lPos < pos ∨ pos = n) : ReaderHelps n pos r := by
  have hle := h.le
  unfold ReaderHelps
  cases hpc : r.pc with
  | idle =>
    show r.lPos = n ∨ r.lPos < pos
    omega
  | wait => exact h.waits hpc
  | test =>
    have hne := htested hpc
    show r.lPos < pos
    omega
  | read => trivial

end Reader

section Steps

variable {s s' : State α R} {i : Fin R}

/-- The state with reader `i` as given and what it has received. -/
def putReader (s : State α R) (i : Fin R) (r : Reader) (read : List α) : State α R :=
  { s with
    shm := { s.shm with readersPos := Function.update s.shm.readersPos i r.status }
    lPos := Function.update s.lPos i r.lPos
    readers := Function.update s.readers i r.pc
    received := Function.update s.received i read }

theorem reader_putReader_self {r : Reader} {read : List α} (h : r.count = read.length) :
    reader (putReader s i r read) i = r := by
  obtain ⟨pc, status, lPos, count⟩ := r
  obtain rfl : count = read.length := h
  simp only [reader, putReader, Function.update_self]

theorem reader_putReader_of_ne {j : Fin R} (hj : j ≠ i) (r : Reader) (read : List α) :
    reader (putReader s i r read) j = reader s j := by
  simp only [reader, putReader, Function.update_of_ne hj]

/-- Everything a step of a reader can do. -/
theorem reader_moves (hstep : readerStep s i = some s') : ∃ r read, s' = putReader s i r read ∧
    r.count = read.length ∧ s.received i <+: read ∧
      Moves (slots R) s.shm.writePos (reader s i) r := by
  have hmove : ∀ pc, s.moveReader i pc = putReader s i { reader s i with pc := pc }
      (s.received i) := by
    intro pc
    simp only [putReader, reader, State.moveReader, Function.update_eq_self]
  unfold readerStep at hstep
  cases hpc : s.readers i with
  | idle =>
    simp only [hpc] at hstep
    split at hstep
    · rename_i hend
      obtain rfl := Option.some.inj hstep
      refine ⟨⟨.wait, END, 0, (s.received i).length⟩, s.received i, ?_, rfl, List.prefix_refl _,
        .arrive hpc hend⟩
      simp only [putReader, Function.update_eq_self]
    · rename_i hne
      obtain rfl := Option.some.inj hstep
      exact ⟨_, _, hmove .test, rfl, List.prefix_refl _, .look hpc hne⟩
  | wait =>
    simp only [hpc] at hstep
    split at hstep
    · cases hstep
    · obtain rfl := Option.some.inj hstep
      exact ⟨_, _, hmove .test, rfl, List.prefix_refl _, .released hpc⟩
  | test =>
    simp only [hpc] at hstep
    split at hstep
    · rename_i hpos
      obtain rfl := Option.some.inj hstep
      exact ⟨_, _, hmove .idle, rfl, List.prefix_refl _, .empty hpc hpos⟩
    · rename_i hpos
      obtain rfl := Option.some.inj hstep
      exact ⟨_, _, hmove .read, rfl, List.prefix_refl _, .found hpc hpos⟩
  | read =>
    simp only [hpc] at hstep
    obtain rfl := Option.some.inj hstep
    refine ⟨⟨.idle, s.shm.readersPos i, s.lPos i + 1, (s.received i).length + 1⟩,
      s.received i ++ [s.shm.data (s.lPos i)], ?_, ?_, List.prefix_append _ _, .copy hpc⟩
    · simp only [putReader, Function.update_eq_self]
    · rw [List.length_append, List.length_singleton]

/-- A step of a reader moves that reader and no other. -/
theorem reader_view (hstep : readerStep s i = some s') (j : Fin R) :
    reader s' j = reader s j ∨ Moves (slots R) s.shm.writePos (reader s j) (reader s' j) := by
  obtain ⟨r, read, rfl, hcount, -, hm⟩ := reader_moves hstep
  by_cases hj : j = i
  · subst hj
    rw [reader_putReader_self hcount]
    exact .inr hm
  · exact .inl (reader_putReader_of_ne hj r read)

/-- Everything a step of the writer can do. -/
inductive WriterMoves (s : State α R) : State α R → Prop
  | test (msg : α) : s.writer = .test msg → WriterMoves s { s with
      writer := if s.shm.writePos = slots R then .check msg 0 else .slot msg }
  | check (msg : α) (j : Nat) (hj : j < R) : s.writer = .check msg j → WriterMoves s { s with
      writer := .check msg (if s.shm.readersPos ⟨j, hj⟩ = END then j + 1 else 0) }
  | rewind (msg : α) (j : Nat) : s.writer = .check msg j → R ≤ j → WriterMoves s { s with
      shm := { s.shm with writePos := 0 }
      writer := .release msg 0 }
  | release (msg : α) (j : Nat) (hj : j < R) : s.writer = .release msg j → WriterMoves s { s with
      shm := { s.shm with readersPos := Function.update s.shm.readersPos ⟨j, hj⟩ RESET }
      writer := .release msg (j + 1) }
  | released (msg : α) (j : Nat) : s.writer = .release msg j → R ≤ j →
      WriterMoves s { s with writer := .slot msg }
  | slot (msg : α) : s.writer = .slot msg → WriterMoves s { s with
      shm := { s.shm with data := Function.update s.shm.data s.shm.writePos msg }
      writer := .move
      sent := s.sent ++ [msg] }
  | move : s.writer = .move → WriterMoves s { s with
      shm := { s.shm with writePos := s.shm.writePos + 1 }
      writer := .idle }

theorem writer_moves (hstep : writerStep s = some s') : WriterMoves s s' := by
  unfold writerStep at hstep
  cases hpc : s.writer with
  | idle => simp only [hpc, reduceCtorEq] at hstep
  | test msg =>
    simp only [hpc] at hstep
    obtain rfl := Option.some.inj hstep
    exact .test msg hpc
  | check msg j =>
    simp only [hpc] at hstep
    split at hstep
    · rename_i hj
      have hmoves := WriterMoves.check msg j hj hpc
      split at hstep
      · rename_i hend
        obtain rfl := Option.some.inj hstep
        rw [if_pos hend] at hmoves
        exact hmoves
      · rename_i hend
        obtain rfl := Option.some.inj hstep
        rw [if_neg hend] at hmoves
        exact hmoves
    · rename_i hj
      obtain rfl := Option.some.inj hstep
      exact .rewind msg j hpc (Nat.le_of_not_lt hj)
  | release msg j =>
    simp only [hpc] at hstep
    split at hstep
    · rename_i hj
      obtain rfl := Option.some.inj hstep
      exact .release msg j hj hpc
    · rename_i hj
      obtain rfl := Option.some.inj hstep
      exact .released msg j hpc (Nat.le_of_not_lt hj)
  | slot msg =>
    simp only [hpc] at hstep
    obtain rfl := Option.some.inj hstep
    exact .slot msg hpc
  | move =>
    simp only [hpc] at hstep
    obtain rfl := Option.some.inj hstep
    exact .move hpc

/-- The writer changes nothing of a reader but its status. -/
theorem WriterMoves.frame (hm : WriterMoves s s') :
    s'.readers = s.readers ∧ s'.lPos = s.lPos ∧ s'.received = s.received := by
  cases hm <;> exact ⟨rfl, rfl, rfl⟩

/-- The message of a call stays the same until it is in its slot. -/
theorem WriterMoves.called_eq (hm : WriterMoves s s') : called s' = called s := by
  cases hm with
  | test msg hpc =>
    simp only [called, hpc]
    split <;> rfl
  | check msg j hj hpc => simp only [called, hpc, unsent]
  | rewind msg j hpc _ => simp only [called, hpc, unsent]
  | release msg j hj hpc => simp only [called, hpc, unsent]
  | released msg j hpc _ => simp only [called, hpc, unsent]
  | slot msg hpc => simp only [called, hpc, unsent, List.append_nil]
  | move hpc => simp only [called, hpc, unsent]

/-- Inside of a call the writer never stops; its waiting is a loop. -/
theorem writer_enabled (hpc : s.writer ≠ .idle) : ∃ s', writerStep s = some s' := by
  unfold writerStep
  cases h : s.writer with
  | idle => exact absurd h hpc
  | test msg => exact ⟨_, rfl⟩
  | check msg j =>
    simp only
    split
    · split
      · exact ⟨_, rfl⟩
      · exact ⟨_, rfl⟩
    · exact ⟨_, rfl⟩
  | release msg j =>
    simp only
    split
    · exact ⟨_, rfl⟩
    · exact ⟨_, rfl⟩
  | slot msg => exact ⟨_, rfl⟩
  | move => exact ⟨_, rfl⟩

/-- A reader stops only to wait for its release. -/
theorem reader_enabled (hwait : s.readers i = .wait → s.shm.readersPos i = RESET) :
    ∃ s', readerStep s i = some s' := by
  unfold readerStep
  cases hpc : s.readers i with
  | idle =>
    simp only
    split
    · exact ⟨_, rfl⟩
    · exact ⟨_, rfl⟩
  | wait =>
    have hfree : checkReaderP s.shm i = false := if_pos (hwait hpc)
    simp only [hfree]
    exact ⟨_, rfl⟩
  | test =>
    simp only
    split
    · exact ⟨_, rfl⟩
    · exact ⟨_, rfl⟩
  | read => exact ⟨_, rfl⟩

end Steps

section Rank

variable {s s' : State α R} {msgs : List α} {i : Fin R}

/-- What every step keeps: the delivery invariant, and where readers are while they wait and
before they test the position. -/
structure Steady (s : State α R) : Prop where
  inv : ∃ lap, Invariant lap s
  tested : ∀ i, s.readers i = .test → s.lPos i ≠ slots R
  waits : ∀ i, s.readers i = .wait → s.lPos i = 0

theorem steady_init (R : Nat) (zero : α) : Steady (init R zero) where
  inv := ⟨0, invariant_init R zero⟩
  tested i htest := by cases htest
  waits i hwait := by cases hwait

/-- All readers have arrived at the end of the lap. -/
def AllEnd (shm : Shm α R) : Prop := ∀ i, shm.readersPos i = END

def allEnd (shm : Shm α R) : Bool :=
  (List.finRange R).all fun i => shm.readersPos i == END

theorem allEnd_iff {shm : Shm α R} : allEnd shm = true ↔ AllEnd shm := by
  rw [allEnd, List.all_eq_true]
  constructor
  · exact fun h i => beq_iff_eq.mp (h i (List.mem_finRange i))
  · exact fun h i _ => beq_iff_eq.mpr (h i)

/-- No step of a reader takes it away from the end of the lap. -/
theorem AllEnd.kept {r : Reader} {read : List α} (hend : s.shm.readersPos i = END → r.status = END)
    (h : AllEnd s.shm) : AllEnd (putReader s i r read).shm := by
  intro j
  show Function.update s.shm.readersPos i r.status j = END
  by_cases hj : j = i
  · rw [hj, Function.update_self]
    exact hend (h i)
  · rw [Function.update_of_ne hj]
    exact h j

/-- How far the writer is from the end of its call. The checks that find a reader on its way
leave it as it is. -/
def writerRank (s : State α R) : Nat :=
  match s.writer with
  | .idle => 0
  | .test _ => if s.shm.writePos = slots R then 2 * R + 6 else 3
  | .check _ j => if allEnd s.shm then R - j + (R + 4) else 2 * R + 5
  | .release _ j => R - j + 3
  | .slot _ => 2
  | .move => 1

/-- The rank of all readers, on the way to `k` messages. -/
def readersRank (k : Nat) (s : State α R) : Nat :=
  total (fun i => readerRank (slots R) s.shm.writePos k (reader s i)) (List.finRange R)

def rank (k : Nat) (s : State α R) : Nat := writerRank s + readersRank k s

/-- The next step of the writer counts. -/
def WriterHelps (s : State α R) : Prop :=
  match s.writer with
  | .idle => False
  | .test _ => True
  | .check _ _ => AllEnd s.shm
  | .release _ _ => True
  | .slot _ => True
  | .move => True

def Helps (s : State α R) : Party R → Prop
  | .writer => WriterHelps s
  | .reader i => ReaderHelps (slots R) s.shm.writePos (reader s i)

theorem Steady.local_at (h : Steady s) (i : Fin R) :
    Local (slots R) (called s).length (reader s i) := by
  obtain ⟨lap, hinv⟩ := h.inv
  refine ⟨h.tested i, h.waits i, fun hpc => ?_⟩
  have hout : (reader s i).pc ≠ .wait := by
    rw [hpc]
    decide
  obtain ⟨hlap, -⟩ := (hinv.readers i).inLap (.inl hout)
  have hcount : (s.received i).length = lap * slots R + s.lPos i := hlap.count
  have hlt : s.lPos i < s.shm.writePos := hlap.reads hpc
  have hlength := hinv.length
  show (s.received i).length < (s.sent ++ unsent s.writer).length
  rw [List.length_append]
  omega

/-- A reader that has arrived keeps the writer's count of it. -/
theorem writerRank_putReader {r : Reader} {read : List α}
    (hend : s.shm.readersPos i = END → r.status = END) :
    writerRank (putReader s i r read) ≤ writerRank s := by
  have hall : allEnd s.shm = true → allEnd (putReader s i r read).shm = true := by
    rw [allEnd_iff, allEnd_iff]
    exact AllEnd.kept hend
  have hwriter : (putReader s i r read).writer = s.writer := rfl
  unfold writerRank
  rw [hwriter]
  cases s.writer with
  | idle => exact Nat.le_refl _
  | test msg => exact Nat.le_refl _
  | check msg j =>
    show ite _ _ _ ≤ ite _ _ _
    by_cases hs : allEnd s.shm = true
    · rw [if_pos hs, if_pos (hall hs)]
    · rw [if_neg hs]
      split <;> omega
  | release msg j => exact Nat.le_refl _
  | slot msg => exact Nat.le_refl _
  | move => exact Nat.le_refl _

theorem Steady.reader_rank (h : Steady s) (hstep : readerStep s i = some s') :
    rank (called s).length s' ≤ rank (called s).length s ∧
      (ReaderHelps (slots R) s.shm.writePos (reader s i) →
        rank (called s).length s' < rank (called s).length s) := by
  obtain ⟨r, read, rfl, hcount, -, hm⟩ := reader_moves hstep
  have hwriter : writerRank (putReader s i r read) ≤ writerRank s :=
    writerRank_putReader hm.end_status
  obtain ⟨hle, hlt⟩ := hm.rank (h.local_at i)
  have hself := reader_putReader_self (s := s) (i := i) hcount
  have hpos : (putReader s i r read).shm.writePos = s.shm.writePos := rfl
  have hall : ∀ j ∈ List.finRange R,
      readerRank (slots R) (putReader s i r read).shm.writePos (called s).length
        (reader (putReader s i r read) j) ≤
      readerRank (slots R) s.shm.writePos (called s).length (reader s j) := by
    intro j _
    rw [hpos]
    by_cases hj : j = i
    · rw [hj, hself]
      exact hle
    · rw [reader_putReader_of_ne hj]
  constructor
  · exact Nat.add_le_add hwriter (total_le hall)
  · intro hhelps
    apply Nat.add_lt_add_of_le_of_lt hwriter
    apply total_lt hall (List.mem_finRange i)
    rw [hpos, hself]
    exact hlt hhelps

theorem Steady.writer_rank (h : Steady s) (hstep : writerStep s = some s') (k : Nat) :
    rank k s' ≤ rank k s ∧ (WriterHelps s → rank k s' < rank k s) := by
  have hlt : writerRank s' < writerRank s → readersRank k s' ≤ readersRank k s →
      rank k s' ≤ rank k s ∧ (WriterHelps s → rank k s' < rank k s) := by
    intro hwriter hreaders
    have hrank : rank k s' < rank k s := Nat.add_lt_add_of_lt_of_le hwriter hreaders
    exact ⟨hrank.le, fun _ => hrank⟩
  cases writer_moves hstep with
  | test msg hpc =>
    refine hlt ?_ (Nat.le_refl _)
    by_cases hfull : s.shm.writePos = slots R
    · simp only [writerRank, hpc, if_pos hfull]
      split <;> omega
    · simp only [writerRank, hpc, if_neg hfull]
      exact Nat.lt_succ_self 2
  | check msg j hj hpc =>
    by_cases hs : allEnd s.shm = true
    · refine hlt ?_ (Nat.le_refl _)
      have hend : s.shm.readersPos ⟨j, hj⟩ = END := allEnd_iff.mp hs ⟨j, hj⟩
      simp only [writerRank, hpc, if_pos hs, if_pos hend]
      omega
    · have hsame : writerRank { s with
          writer := .check msg (if s.shm.readersPos ⟨j, hj⟩ = END then j + 1 else 0) } =
            writerRank s := by
        simp only [writerRank, hpc, if_neg hs]
      refine ⟨Nat.add_le_add (Nat.le_of_eq hsame) (Nat.le_refl _), fun hhelps => ?_⟩
      rw [WriterHelps, hpc] at hhelps
      exact absurd (allEnd_iff.mpr hhelps) hs
  | rewind msg j hpc hj =>
    obtain ⟨lap, hinv⟩ := h.inv
    have harr : ∀ i : Fin R, Arrived (lap * slots R + s.shm.writePos) (reader s i) := by
      intro i
      have hok := hinv.readers i
      rw [hpc] at hok
      exact hok.arrived_of_held (Nat.lt_of_lt_of_le i.isLt hj)
    apply hlt
    · have hs : allEnd s.shm = true := allEnd_iff.mpr fun i => (harr i).status
      simp only [writerRank, hpc, if_pos hs]
      omega
    · apply total_le
      intro i _
      exact Nat.le_of_eq (readerRank_of_arrived (harr i) 0)
  | release msg j hj hpc =>
    refine hlt ?_ (Nat.le_refl _)
    simp only [writerRank, hpc]
    omega
  | released msg j hpc hj =>
    refine hlt ?_ (Nat.le_refl _)
    simp only [writerRank, hpc]
    omega
  | slot msg hpc =>
    refine hlt ?_ (Nat.le_refl _)
    simp only [writerRank, hpc]
    exact Nat.lt_succ_self 1
  | move hpc =>
    apply hlt
    · simp only [writerRank, hpc]
      exact Nat.one_pos
    · apply total_le
      intro i _
      exact readerRank_succ _ _ _ _

/-- A reader with something to do keeps it while the writer goes on. -/
theorem Steady.helps_writer (h : Steady s) (hstep : writerStep s = some s')
    (hh : ReaderHelps (slots R) s.shm.writePos (reader s i)) :
    ReaderHelps (slots R) s'.shm.writePos (reader s' i) := by
  obtain ⟨lap, hinv⟩ := h.inv
  have hok := hinv.readers i
  cases writer_moves hstep with
  | test msg hpc => exact hh
  | check msg j hj hpc => exact hh
  | rewind msg j hpc hj =>
    rw [hpc] at hok
    exact absurd hh (not_helps_of_arrived (hok.arrived_of_held (Nat.lt_of_lt_of_le i.isLt hj)))
  | release msg j hj hpc =>
    rw [hpc] at hok
    by_cases hi : i = ⟨j, hj⟩
    · subst hi
      exact absurd hh (not_helps_of_arrived (hok.arrived_of_held (Nat.le_refl j)))
    · simp only [reader, Function.update_of_ne hi]
      exact hh
  | released msg j hpc hj => exact hh
  | slot msg hpc => exact hh
  | move hpc => exact hh.succ

/-- The writer keeps what it has to do while a reader goes on. -/
theorem writerHelps_putReader {r : Reader} {read : List α}
    (hend : s.shm.readersPos i = END → r.status = END) (hh : WriterHelps s) :
    WriterHelps (putReader s i r read) := by
  have hwriter : (putReader s i r read).writer = s.writer := rfl
  unfold WriterHelps at hh ⊢
  rw [hwriter]
  cases hpc : s.writer with
  | idle =>
    rw [hpc] at hh
    exact hh
  | check msg j =>
    rw [hpc] at hh
    exact AllEnd.kept hend hh
  | test msg => trivial
  | release msg j => trivial
  | slot msg => trivial
  | move => trivial

/-- As long as the call is not over or a message is not read, some party has something to do. -/
theorem Steady.exists_helps (h : Steady s) (hopen : ¬ Drained (called s) s) :
    ∃ p, Helps s p := by
  obtain ⟨lap, hinv⟩ := h.inv
  have hinLap : ∀ i, (reader s i).status ≠ END →
      InLap (lap * slots R) s.shm.writePos (reader s i) := fun i hend =>
    ((hinv.readers i).inLap (.inr hend)).1
  have hlength := hinv.length
  by_cases hwriter : WriterHelps s
  · exact ⟨.writer, hwriter⟩
  rw [WriterHelps] at hwriter
  cases hpc : s.writer with
  | idle =>
    -- the writer has nothing to do, so a reader is behind
    have hcalled : called s = s.sent := by rw [called, hpc, unsent, List.append_nil]
    obtain ⟨i, hi⟩ : ∃ i, s.received i ≠ s.sent := by
      by_contra hall
      push Not at hall
      exact hopen ⟨hpc, fun i => (hall i).trans hcalled.symm⟩
    have hbehind : (s.received i).length < s.sent.length := by
      apply Nat.lt_of_le_of_ne (hinv.in_order i).length_le
      exact fun heq => hi ((hinv.in_order i).eq_of_length heq)
    rw [hpc] at hlength
    have hlength : s.sent.length = lap * slots R + s.shm.writePos := hlength
    rcases hinv.readers i with ⟨harr, -⟩ | ⟨hlap, -⟩
    · have hcount : (s.received i).length = lap * slots R + s.shm.writePos := harr.count
      omega
    · have hcount : (s.received i).length = lap * slots R + s.lPos i := hlap.count
      refine ⟨.reader i, helps_of_inLap hlap (h.tested i) (.inl ?_)⟩
      show s.lPos i < s.shm.writePos
      omega
  | check msg j =>
    -- a reader that the writer waits for is not at the end yet
    rw [hpc] at hwriter
    obtain ⟨i, hi⟩ := not_forall.mp hwriter
    have hpos := hinv.writer
    rw [hpc] at hpos
    exact ⟨.reader i, helps_of_inLap (hinLap i hi) (h.tested i) (.inr hpos)⟩
  | test msg =>
    rw [hpc] at hwriter
    exact absurd trivial hwriter
  | release msg j =>
    rw [hpc] at hwriter
    exact absurd trivial hwriter
  | slot msg =>
    rw [hpc] at hwriter
    exact absurd trivial hwriter
  | move =>
    rw [hpc] at hwriter
    exact absurd trivial hwriter

theorem steady_step (hR : R ≤ 61) (h : Steady s) {a : Step α R} (hstep : step s a = some s') :
    Steady s' := by
  obtain ⟨lap, hinv⟩ := h.inv
  have hslots := slots_pos hR
  have hframe : s'.readers = s.readers → s'.lPos = s.lPos → Steady s' := by
    intro hreaders hlPos
    refine ⟨invariant_step hR hinv hstep, ?_, ?_⟩
    · rw [hreaders, hlPos]
      exact h.tested
    · rw [hreaders, hlPos]
      exact h.waits
  cases a with
  | send msg =>
    have hsend : s' = { s with writer := .test msg } := by
      unfold step at hstep
      cases hpc : s.writer with
      | idle =>
        simp only [hpc] at hstep
        exact (Option.some.inj hstep).symm
      | test msg' => simp only [hpc, reduceCtorEq] at hstep
      | check msg' j => simp only [hpc, reduceCtorEq] at hstep
      | release msg' j => simp only [hpc, reduceCtorEq] at hstep
      | slot msg' => simp only [hpc, reduceCtorEq] at hstep
      | move => simp only [hpc, reduceCtorEq] at hstep
    exact hframe (by rw [hsend]) (by rw [hsend])
  | writer =>
    obtain ⟨hreaders, hlPos, -⟩ := (writer_moves hstep).frame
    exact hframe hreaders hlPos
  | reader i =>
    refine ⟨invariant_step hR hinv hstep, fun j hj => ?_, fun j hj => ?_⟩
    · have htest : (reader s' j).pc = .test := hj
      show (reader s' j).lPos ≠ slots R
      rcases reader_view hstep j with hsame | hm
      · rw [hsame] at htest ⊢
        exact h.tested j htest
      · exact hm.tested hslots (h.waits j) htest
    · have hwait : (reader s' j).pc = .wait := hj
      show (reader s' j).lPos = 0
      rcases reader_view hstep j with hsame | hm
      · rw [hsame] at hwait ⊢
        exact h.waits j hwait
      · exact hm.waits hwait

theorem reachable_steady (hR : R ≤ 61) {zero : α} (hr : Reachable step (init R zero) s) :
    Steady s :=
  hr.invariant (steady_init R zero) fun _ _ _ hs ha => steady_step hR hs ha

/-- No turn changes which messages are sent or about to be. -/
theorem called_eq {p : Party R} (hstep : step s (act p) = some s') : called s' = called s := by
  cases p with
  | writer => exact (writer_moves hstep).called_eq
  | reader i =>
    obtain ⟨r, read, rfl, -⟩ := reader_moves hstep
    rfl

/-- Once everything is read it stays so. -/
theorem drained_step (hR : R ≤ 61) (h : Steady s) (hdone : Drained (called s) s) {p : Party R}
    (hstep : step s (act p) = some s') : Drained (called s) s' := by
  obtain ⟨hidle, hall⟩ := hdone
  cases p with
  | writer =>
    have hstep : writerStep s = some s' := hstep
    simp only [writerStep, hidle, reduceCtorEq] at hstep
  | reader i =>
    obtain ⟨lap, hinv⟩ := (steady_step hR h hstep).inv
    obtain ⟨r, read, rfl, -, hgrows, -⟩ := reader_moves hstep
    refine ⟨hidle, fun j => ?_⟩
    show Function.update s.received i read j = called s
    by_cases hj : j = i
    · subst hj
      have hle := hinv.in_order j
      have hsent : (putReader s j r read).sent = called s := by
        show s.sent = s.sent ++ unsent s.writer
        rw [hidle, unsent, List.append_nil]
      have hread : (putReader s j r read).received j = read := Function.update_self _ _ _
      rw [hsent, hread] at hle
      rw [hall j] at hgrows
      rw [Function.update_self]
      exact hle.eq_of_length (Nat.le_antisymm hle.length_le hgrows.length_le)
    · rw [Function.update_of_ne hj]
      exact hall j

/-- The state is ranked on the way to having all of `msgs` read. -/
theorem ranked (hR : R ≤ 61) (msgs : List α) :
    Ranked step act (fun s : State α R => Steady s ∧ called s = msgs) (Drained msgs)
      (rank msgs.length) Helps where
  invariant := by
    rintro s p s' ⟨h, hmsgs⟩ hstep
    exact ⟨steady_step hR h hstep, (called_eq hstep).trans hmsgs⟩
  stable := by
    rintro s p s' ⟨h, rfl⟩ hdone hstep
    exact drained_step hR h hdone hstep
  le := by
    rintro s p s' ⟨h, rfl⟩ hstep
    cases p with
    | writer => exact (h.writer_rank hstep _).1
    | reader i => exact (h.reader_rank hstep).1
  keeps := by
    rintro s p q s' ⟨h, -⟩ hhelps hne hstep
    right
    cases q with
    | writer =>
      cases p with
      | writer => exact absurd rfl hne
      | reader i => exact h.helps_writer hstep hhelps
    | reader j =>
      obtain ⟨r, read, rfl, -, -, hm⟩ := reader_moves hstep
      cases p with
      | writer => exact writerHelps_putReader hm.end_status hhelps
      | reader i =>
        have hij : i ≠ j := fun heq => hne (congrArg Party.reader heq)
        show ReaderHelps _ s.shm.writePos (reader (putReader s j r read) i)
        rw [reader_putReader_of_ne hij]
        exact hhelps
  helps := by
    rintro s p ⟨h, rfl⟩ hhelps
    cases p with
    | writer =>
      have hpc : s.writer ≠ .idle := by
        intro hidle
        have hhelps : WriterHelps s := hhelps
        rw [WriterHelps, hidle] at hhelps
        exact hhelps
      obtain ⟨s', hs'⟩ := writer_enabled hpc
      exact ⟨s', hs', (h.writer_rank hs' _).2 hhelps⟩
    | reader i =>
      have hwait : s.readers i = .wait → s.shm.readersPos i = RESET := by
        intro hpc
        have hhelps : ReaderHelps (slots R) s.shm.writePos (reader s i) := hhelps
        rw [ReaderHelps, show (reader s i).pc = .wait from hpc] at hhelps
        exact hhelps
      obtain ⟨s', hs'⟩ := reader_enabled hwait
      exact ⟨s', hs', (h.reader_rank hs').2 hhelps⟩
  exists_helps := by
    rintro s ⟨h, rfl⟩ hopen
    exact h.exists_helps hopen

end Rank

/-- How many rounds a call and its message take at most. -/
def callRounds (R : Nat) : Nat := 6 + R * (5 * slots R + 11)

theorem Steady.rank_le {s : State α R} (h : Steady s) :
    rank (called s).length s ≤ callRounds R := by
  obtain ⟨lap, hinv⟩ := h.inv
  have hlength := hinv.length
  have hpos := hinv.writer.le
  have hwriter : writerRank s ≤ 2 * R + 6 := by
    unfold writerRank
    cases s.writer with
    | idle => exact Nat.zero_le _
    | test msg =>
      show ite _ _ _ ≤ _
      split <;> omega
    | check msg j =>
      show ite _ _ _ ≤ _
      split <;> omega
    | release msg j =>
      show R - j + 3 ≤ _
      omega
    | slot msg =>
      show 2 ≤ _
      omega
    | move =>
      show 1 ≤ _
      omega
  have hopen : pending s.writer + (unsent s.writer).length ≤ 1 := by
    cases s.writer <;> exact Nat.le_of_ble_eq_true rfl
  have hreader : ∀ i ∈ List.finRange R,
      readerRank (slots R) s.shm.writePos (called s).length (reader s i) ≤ 5 * slots R + 9 := by
    intro i _
    have hle := readerRank_le (slots R) s.shm.writePos (called s).length (reader s i)
    have hread : lap * slots R ≤ (reader s i).count := by
      rcases hinv.readers i with ⟨harr, -⟩ | ⟨hlap, -⟩
      · rw [harr.count]
        exact Nat.le_add_right _ _
      · rw [hlap.count]
        exact Nat.le_add_right _ _
    have htotal : (called s).length = s.sent.length + (unsent s.writer).length :=
      List.length_append
    omega
  have hreaders : readersRank (called s).length s ≤ R * (5 * slots R + 9) := by
    have hle := total_le_mul hreader
    rw [List.length_finRange] at hle
    exact hle
  have hmul : R * (5 * slots R + 11) = R * (5 * slots R + 9) + 2 * R := by
    rw [show 5 * slots R + 11 = 5 * slots R + 9 + 2 by omega, Nat.mul_add, Nat.mul_comm 2 R]
  rw [callRounds, hmul]
  exact (Nat.add_le_add hwriter hreaders).trans (by omega)

/-- Under every schedule that gives each party a turn in every round, the call that is open ends
and every reader receives everything, within a number of rounds that only depends on the number
of readers. -/
theorem lap_barrier_drains (hR : R ≤ 61) (zero : α) (s : State α R)
    (hr : Reachable step (init R zero) s) (rounds : List (List (Party R)))
    (hrounds : ∀ ps ∈ rounds, Round ps) (hlen : callRounds R ≤ rounds.length) :
    Drained (called s) (exec step act s rounds.flatten) := by
  have h : Steady s := reachable_steady hR hr
  exact (ranked hR (called s)).done_of_rounds ⟨h, rfl⟩ hrounds (h.rank_le.trans hlen)

private def firstCall : List (Step Nat 1) := [.send 7]

/-- A call with one reader, in rounds of two turns. -/
theorem lap_barrier_drains_first : ∃ s : State Nat 1, called s = [7] ∧
    Drained [7] (exec step act s
      (List.replicate (callRounds 1) [Party.reader ⟨0, Nat.one_pos⟩, .writer]).flatten) := by
  refine ⟨(run step (init 1 0) firstCall).get rfl, rfl,
    lap_barrier_drains (by decide) 0 _ (Machine.reachable_of_run firstCall rfl) _ ?_ ?_⟩
  · intro ps hps p
    rw [List.eq_of_mem_replicate hps]
    cases p with
    | writer => exact List.mem_cons_of_mem _ List.mem_cons_self
    | reader i =>
      rw [Subsingleton.elim i ⟨0, Nat.one_pos⟩]
      exact List.mem_cons_self
  · rw [List.length_replicate]

end SmeltConsensus.BroadcastQueue.LapBarrierProgress
