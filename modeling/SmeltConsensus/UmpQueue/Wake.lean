import SmeltConsensus.UmpQueue.Delivery

/-!
Sleeping and waking up. An end announces with a compare-and-swap that it waits, looks at
its ring again and sleeps; a sender stores its message and then reads the wake state. The
sender's store may still wait in its buffer when it reads, and then the message is missed
by both.
-/

set_option autoImplicit false
set_option relaxedAutoImplicit false

namespace SmeltConsensus.UmpQueue.Wake

open SmeltConsensus.Foundation.Machine (Guarded Reachable run)
open SmeltConsensus.Foundation.StoreBuffer
open SmeltConsensus.UmpQueue.Channel
open SmeltConsensus.UmpQueue.Endpoint
open SmeltConsensus.UmpQueue.Counts
open SmeltConsensus.UmpQueue.RingInvariant
open SmeltConsensus.UmpQueue.Delivery

section State

/-- Between the compare-and-swap that succeeds and the store that takes it back. -/
def inWait : Pc → Nat
  | .recheck _ => 1
  | .sleep _ => 1
  | .wakeup _ => 1
  | _ => 0

/-- Stores to the wake state that wait in a buffer. -/
def takenBack (buf : List (Loc × Nat)) : Nat := buf.countP fun st => st.1 == .wakeState

/-- Whether an end waits or has yet to take that back. -/
def waiting (s : State) (x : Bool) : Nat := inWait (s.ends x).pc + takenBack (s.buffer x)

/-- The wake state in memory names the end that waits. -/
structure WakeOk (s : State) : Prop where
  running : ∀ x, ∀ st ∈ s.buffer x, st.1 = .wakeState → st.2 = umpRunning
  values : s.mem .wakeState = umpRunning ∨ ∃ x, s.mem .wakeState = umpWait x
  owner : ∀ x, (s.mem .wakeState = umpWait x ∧ waiting s x = 1) ∨
    (s.mem .wakeState ≠ umpWait x ∧ waiting s x = 0)
  discriminant : ∀ x, (s.ends x).chan.discriminant = x

theorem umpWait_ne_running (x : Bool) : umpWait x ≠ umpRunning := by
  cases x <;> decide

theorem umpWait_ne_peer (x : Bool) : umpWait x ≠ umpWait (!x) := by
  cases x <;> decide

theorem wake_init (cfg : Config) (garbage : Loc → Nat) : WakeOk (init cfg garbage) := by
  refine ⟨fun x st hst => absurd hst List.not_mem_nil, .inl rfl, ?_, fun x => rfl⟩
  exact fun x => .inr ⟨(umpWait_ne_running x).symm, rfl⟩

variable {cfg : Config} {s s' : State} {x : Bool}

/-- An end that keeps polling. -/
def Awake : Pc → Prop
  | .tryWait _ => False
  | .cas _ => False
  | .recheck _ => False
  | .sleep _ => False
  | .wakeup _ => False
  | _ => True

/-- An end that is about to sleep or sleeps. -/
def Asleep (pc : Pc) : Prop := ∃ call, pc = .sleep call

theorem Awake.inWait {pc : Pc} (h : Awake pc) : inWait pc = 0 := by
  cases pc <;> first | rfl | exact h.elim

theorem inWait_of_asleep {pc : Pc} (h : Asleep pc) : inWait pc = 1 := by
  obtain ⟨call, rfl⟩ := h
  rfl

theorem Awake.not_asleep {pc : Pc} (h : Awake pc) : ¬ Asleep pc := by
  rintro ⟨call, rfl⟩
  exact h

theorem awake_start (op : Op) : Awake (start op) := by
  cases op <;> exact trivial

theorem awake_restart (call : Call) : Awake (restart call) := by
  cases call <;> exact trivial

theorem awake_resume (call : Call) : Awake (resume call) := by
  cases call <;> exact trivial

theorem awake_blocked (call : Call) : Awake (blocked call) := by
  unfold blocked
  split <;> exact trivial

theorem awake_granted (call : Call) : Awake (granted call) := by
  unfold granted
  split <;> exact trivial

theorem awake_rxNull (c : UmpChan) (call : Call) : Awake (rxNull c call) := by
  unfold rxNull afterAck
  split
  · exact awake_blocked call
  · split <;> exact trivial

theorem awake_rxMsg (call : Call) (slot : Nat) : Awake (rxMsg call slot) := by
  cases call <;> exact trivial

/-- A step begins to wait, ends it, or has nothing to do with the wake state. -/
inductive WaitStep (running : Prop) (wait : Nat) : Nat → Nat → Effect → Prop
  | same {k : Nat} {eff : Effect} : (∀ l v, eff = .store l v → l ≠ .wakeState) →
      (∀ l v, eff ≠ .swap l v) → WaitStep running wait k k eff
  | begin : running → WaitStep running wait 0 1 (.swap .wakeState wait)
  | done : WaitStep running wait 1 0 (.store .wakeState umpRunning)

section Act

variable {view : Loc → Nat} {e e' : End} {eff : Effect} {running : Prop} {wait : Nat}

theorem WaitStep.quiet {k l : Nat} (heq : l = k) : WaitStep running wait k l .none := by
  subst heq
  exact .same (fun _ _ => Effect.noConfusion) fun _ _ => Effect.noConfusion

theorem WaitStep.slot {x : Bool} {i w v k l : Nat} (heq : l = k) :
    WaitStep running wait k l (.store (.slot x i w) v) := by
  subst heq
  refine .same ?_ fun _ _ => Effect.noConfusion
  intro l u heq
  injection heq with hl
  rw [← hl]
  exact Loc.noConfusion

/-- How a turn changes whether the end waits. -/
theorem turn_wait {pc pc' : Pc} (hturn : Turn x view e pc pc' eff) :
    WaitStep (view .wakeState = umpRunning) (umpWait e.chan.discriminant) (inWait pc)
      (inWait pc') eff := by
  cases hturn with
  | granted => exact .quiet (awake_granted _).inWait
  | enough => exact .quiet (awake_granted _).inWait
  | blocked => exact .quiet (awake_blocked _).inWait
  | gone => exact .quiet (awake_rxNull _ _).inWait
  | again => exact .quiet (awake_restart _).inWait
  | arrived => exact .quiet (awake_restart _).inWait
  | wakes => exact .same (fun _ _ => Effect.noConfusion) fun _ _ => Effect.noConfusion
  | awaited => exact .same (fun _ _ => Effect.noConfusion) fun _ _ => Effect.noConfusion
  | swapped hrunning => exact .begin hrunning
  | refused =>
    rw [(awake_restart _).inWait]
    exact .same (fun _ _ => Effect.noConfusion) fun _ _ => Effect.noConfusion
  | takenBack =>
    rw [(awake_restart _).inWait]
    exact .done
  | woken =>
    rw [(awake_resume _).inWait]
    exact .done
  | _ => exact .quiet rfl

/-- A turn leads to where the end polls, unless it has stopped polling; and it leads to
sleep only after another look at the ring. -/
theorem turn_awake {pc pc' : Pc} (hturn : Turn x view e pc pc' eff) :
    Awake pc' ∨ (¬ Awake pc ∧ (Asleep pc' → canRecv x view e = false)) := by
  have hnot : ∀ {pc}, (∀ call, pc ≠ .sleep call) → Asleep pc → canRecv x view e = false :=
    fun hne ⟨call, heq⟩ => absurd heq (hne call)
  cases hturn with
  | asleep hempty => exact .inr ⟨id, fun _ => hempty⟩
  | empty => exact .inr ⟨id, hnot fun _ => Pc.noConfusion⟩
  | swapped => exact .inr ⟨id, hnot fun _ => Pc.noConfusion⟩
  | awaited => exact .inr ⟨id, hnot fun _ => Pc.noConfusion⟩
  | granted => exact .inl (awake_granted _)
  | enough => exact .inl (awake_granted _)
  | blocked => exact .inl (awake_blocked _)
  | gone => exact .inl (awake_rxNull _ _)
  | again => exact .inl (awake_restart _)
  | arrived => exact .inl (awake_restart _)
  | refused => exact .inl (awake_restart _)
  | takenBack => exact .inl (awake_restart _)
  | woken => exact .inl (awake_resume _)
  | _ => exact .inl trivial

/-- A step that is no turn has nothing to do with sleeping. -/
theorem acts_awake (hact : Acts x view e e' eff) :
    (∃ pc, e' = { e with pc := pc } ∧ Turn x view e e.pc pc eff) ∨
      (Awake e.pc ∧ Awake e'.pc ∧ e'.chan.discriminant = e.chan.discriminant ∧
        ∀ running wait, WaitStep running wait 0 0 eff) := by
  have hawake : ∀ {pc}, e.pc = pc → Awake pc → Awake e.pc := fun hpc h => hpc ▸ h
  cases hact with
  | turn hturn => exact .inl ⟨_, rfl, hturn⟩
  | take hpc => exact .inr ⟨hawake hpc trivial, trivial, rfl, fun _ _ => .quiet rfl⟩
  | header hpc => exact .inr ⟨hawake hpc trivial, trivial, rfl, fun _ _ => .quiet rfl⟩
  | null hpc => exact .inr ⟨hawake hpc trivial, awake_rxNull _ _, rfl, fun _ _ => .quiet rfl⟩
  | message hpc => exact .inr ⟨hawake hpc trivial, awake_rxMsg _ _, rfl, fun _ _ => .quiet rfl⟩
  | copy hpc => exact .inr ⟨hawake hpc trivial, trivial, rfl, fun _ _ => .quiet rfl⟩
  | hand hpc =>
    refine .inr ⟨hawake hpc trivial, ?_, rfl, fun _ _ => .quiet rfl⟩
    generalize umpChanNeedsAck e.chan = needsAck
    cases needsAck <;> exact trivial
  | word hpc => exact .inr ⟨hawake hpc trivial, trivial, rfl, fun _ _ => .slot rfl⟩
  | submit hpc => exact .inr ⟨hawake hpc trivial, trivial, rfl, fun _ _ => .slot rfl⟩
  | ack hpc => exact .inr ⟨hawake hpc trivial, trivial, rfl, fun _ _ => .slot rfl⟩

/-- How a step of an end changes whether it waits. -/
theorem acts_wait (hact : Acts x view e e' eff) :
    e'.chan.discriminant = e.chan.discriminant ∧
      WaitStep (view .wakeState = umpRunning) (umpWait e.chan.discriminant) (inWait e.pc)
        (inWait e'.pc) eff := by
  rcases acts_awake hact with ⟨pc, rfl, hturn⟩ | ⟨hold, hnew, hdisc, hwait⟩
  · exact ⟨rfl, turn_wait hturn⟩
  · rw [hold.inWait, hnew.inWait]
    exact ⟨hdisc, hwait _ _⟩

/-- An end falls asleep only after it has looked at its ring again. -/
theorem acts_asleep (hact : Acts x view e e' eff) (hsleep : Asleep e'.pc) :
    canRecv x view e = false ∧ e'.taken = e.taken := by
  rcases acts_awake hact with ⟨pc, rfl, hturn⟩ | ⟨-, hnew, -⟩
  · rcases turn_awake hturn with hnew | ⟨-, hempty⟩
    · exact absurd hsleep hnew.not_asleep
    · exact ⟨hempty hsleep, rfl⟩
  · exact absurd hsleep hnew.not_asleep

/-- After a message an end reads the wake state, and wakes its peer up or sees that it runs. -/
theorem acts_wake (hact : Acts x view e e' eff) :
    (e.pc = .checkWake → view .wakeState = umpRunning ∨ e'.pc = .wakePeer) ∧
      (e.pc = .wakePeer → eff = .signal) := by
  have hnot : ∀ {pc}, e.pc = pc → pc ≠ .checkWake ∧ pc ≠ .wakePeer →
      (e.pc = .checkWake → view .wakeState = umpRunning ∨ e'.pc = .wakePeer) ∧
        (e.pc = .wakePeer → eff = .signal) := by
    rintro pc rfl ⟨hcheck, hwake⟩
    exact ⟨fun h => absurd h hcheck, fun h => absurd h hwake⟩
  cases hact with
  | turn hturn =>
    generalize e.pc = old at hturn
    constructor
    · rintro rfl
      cases hturn with
      | running hrunning => exact .inl hrunning
      | waits => exact .inr rfl
    · rintro rfl
      cases hturn
      rfl
  | take hpc => exact hnot hpc ⟨Pc.noConfusion, Pc.noConfusion⟩
  | header hpc => exact hnot hpc ⟨Pc.noConfusion, Pc.noConfusion⟩
  | null hpc => exact hnot hpc ⟨Pc.noConfusion, Pc.noConfusion⟩
  | message hpc => exact hnot hpc ⟨Pc.noConfusion, Pc.noConfusion⟩
  | copy hpc => exact hnot hpc ⟨Pc.noConfusion, Pc.noConfusion⟩
  | hand hpc => exact hnot hpc ⟨Pc.noConfusion, Pc.noConfusion⟩
  | word hpc => exact hnot hpc ⟨Pc.noConfusion, Pc.noConfusion⟩
  | submit hpc => exact hnot hpc ⟨Pc.noConfusion, Pc.noConfusion⟩
  | ack hpc => exact hnot hpc ⟨Pc.noConfusion, Pc.noConfusion⟩

/-- An end that polls goes on polling. -/
theorem Awake.act (h : Awake e.pc) (hact : Acts x view e e' eff) : Awake e'.pc := by
  rcases acts_awake hact with ⟨pc, rfl, hturn⟩ | ⟨-, hnew, -⟩
  · exact (turn_awake hturn).resolve_right fun hold => hold.1 h
  · exact hnew

end Act

theorem takenBack_push (buf : List (Loc × Nat)) (l : Loc) (v : Nat) :
    takenBack (buf ++ [(l, v)]) = takenBack buf + if l = .wakeState then 1 else 0 := by
  unfold takenBack
  rw [List.countP_append, List.countP_singleton]
  by_cases hl : l = .wakeState
  · rw [if_pos hl, if_pos (beq_iff_eq.mpr hl)]
  · rw [if_neg hl, if_neg (by simpa using hl)]

/-- Nothing of the wake state changes. -/
theorem WakeOk.congr (h : WakeOk s) (hmem : s'.mem .wakeState = s.mem .wakeState)
    (hrunning : ∀ x, ∀ st ∈ s'.buffer x, st.1 = .wakeState → st.2 = umpRunning)
    (hsum : ∀ x, waiting s' x = waiting s x)
    (hdisc : ∀ x, (s'.ends x).chan.discriminant = (s.ends x).chan.discriminant) : WakeOk s' := by
  refine ⟨hrunning, ?_, ?_, ?_⟩
  · rw [hmem]
    exact h.values
  · intro x
    rw [hsum, hmem]
    exact h.owner x
  · intro x
    rw [hdisc]
    exact h.discriminant x

theorem WakeOk.goto {pc : Pc} (h : WakeOk s) (hpc : inWait pc = inWait (s.ends x).pc) :
    WakeOk (setEnd s x { s.ends x with pc := pc }) := by
  refine h.congr rfl h.running ?_ ?_
  · unfold waiting
    refine forall_sides x ?_ ?_
    · rw [setEnd_self]
      change inWait pc + _ = _
      rw [hpc]
      rfl
    · rw [setEnd_peer]
      rfl
  · refine forall_sides x ?_ ?_
    · rw [setEnd_self]
    · rw [setEnd_peer]

/-- A store that waits in the buffer. -/
theorem WakeOk.store {e : End} {l : Loc} {v : Nat} (h : WakeOk s)
    (hdisc : e.chan.discriminant = (s.ends x).chan.discriminant)
    (hsum : (inWait e.pc + if l = .wakeState then 1 else 0) = inWait (s.ends x).pc)
    (hv : l = .wakeState → v = umpRunning)
    (hs : perform (setEnd s x e) x (.store l v) = some s') : WakeOk s' := by
  obtain rfl := Option.some.inj hs
  refine h.congr rfl ?_ ?_ ?_
  · refine forall_sides x ?_ ?_
    · intro st hst
      dsimp only at hst
      rw [Function.update_self] at hst
      rcases List.mem_append.mp hst with hst | hst
      · exact h.running x st hst
      · obtain rfl := List.mem_singleton.mp hst
        exact hv
    · intro st hst
      dsimp only at hst
      rw [Function.update_of_ne (Bool.not_ne_self x)] at hst
      exact h.running (!x) st hst
  · unfold waiting
    refine forall_sides x ?_ ?_
    · dsimp only
      rw [setEnd_self, Function.update_self, takenBack_push]
      change _ + (takenBack (s.buffer x) + _) = _
      omega
    · dsimp only
      rw [setEnd_peer, Function.update_of_ne (Bool.not_ne_self x)]
      rfl
  · refine forall_sides x ?_ ?_
    · dsimp only
      rw [setEnd_self, hdisc]
    · dsimp only
      rw [setEnd_peer]

/-- An effect that is no store and no swap. -/
theorem WakeOk.silent {e : End} {eff : Effect} (h : WakeOk s)
    (hdisc : e.chan.discriminant = (s.ends x).chan.discriminant)
    (hpc : inWait e.pc = inWait (s.ends x).pc) (hstore : ∀ l v, eff ≠ .store l v)
    (hswap : ∀ l v, eff ≠ .swap l v) (hs : perform (setEnd s x e) x eff = some s') :
    WakeOk s' := by
  have hmem : s'.mem = s.mem := by
    cases eff with
    | none => rw [← Option.some.inj hs]; rfl
    | store l v => exact absurd rfl (hstore l v)
    | swap l v => exact absurd rfl (hswap l v)
    | _ => rw [← Option.some.inj (Option.ite_none_right_eq_some.mp hs).2]; rfl
  have hbuf : s'.buffer = s.buffer := by
    rcases perform_buffer hs with ⟨hbuf, -⟩ | ⟨l, v, heff, -⟩
    · exact hbuf
    · exact absurd heff (hstore l v)
  have hends := perform_ends hs
  refine h.congr (by rw [hmem]) ?_ ?_ ?_
  · rw [hbuf]
    exact h.running
  · unfold waiting
    rw [hends, hbuf]
    refine forall_sides x ?_ ?_
    · rw [setEnd_self, hpc]
    · rw [setEnd_peer]
  · rw [hends]
    refine forall_sides x ?_ ?_
    · rw [setEnd_self, hdisc]
    · rw [setEnd_peer]

/-- The compare-and-swap succeeds. -/
theorem WakeOk.begin {e : End} (h : WakeOk s)
    (hdisc : e.chan.discriminant = (s.ends x).chan.discriminant) (hpc : inWait e.pc = 1)
    (hrunning : settle s.mem (s.buffer x) .wakeState = umpRunning)
    (hs : perform (setEnd s x e) x (.swap .wakeState (umpWait x)) = some s') : WakeOk s' := by
  obtain ⟨hbuf, hs⟩ := Option.ite_none_right_eq_some.mp hs
  obtain rfl := Option.some.inj hs
  change s.buffer x = [] at hbuf
  rw [hbuf, settle_nil] at hrunning
  have hpeer : waiting s (!x) = 0 := by
    rcases h.owner (!x) with ⟨hmem, -⟩ | ⟨-, hzero⟩
    · exact absurd (hrunning.symm.trans hmem).symm (umpWait_ne_running (!x))
    · exact hzero
  have hmem : Function.update s.mem .wakeState (umpWait x) .wakeState = umpWait x :=
    Function.update_self ..
  refine ⟨h.running, .inr ⟨x, hmem⟩, ?_, ?_⟩
  · refine forall_sides x (.inl ⟨hmem, ?_⟩) (.inr ⟨?_, ?_⟩)
    · unfold waiting
      dsimp only
      rw [setEnd_self, hpc]
      change 1 + takenBack (s.buffer x) = 1
      rw [hbuf]
      rfl
    · exact fun heq => umpWait_ne_peer x (hmem.symm.trans heq)
    · unfold waiting at hpeer ⊢
      dsimp only
      rw [setEnd_peer]
      exact hpeer
  · refine forall_sides x ?_ ?_
    · dsimp only
      rw [setEnd_self, hdisc]
      exact h.discriminant x
    · dsimp only
      rw [setEnd_peer]
      exact h.discriminant (!x)

/-- A store reaches memory; if it is to the wake state, its owner has ended to wait. -/
theorem WakeOk.flush {l : Loc} {v : Nat} {rest : List (Loc × Nat)} (h : WakeOk s)
    (hbuf : s.buffer x = (l, v) :: rest) :
    WakeOk { s with
      mem := Function.update s.mem l v
      buffer := Function.update s.buffer x rest } := by
  have hrunning : ∀ y, ∀ st ∈ Function.update s.buffer x rest y, st.1 = .wakeState →
      st.2 = umpRunning := by
    refine forall_sides x ?_ ?_
    · intro st hst
      rw [Function.update_self] at hst
      apply h.running x st
      rw [hbuf]
      exact List.mem_cons_of_mem _ hst
    · intro st hst
      rw [Function.update_of_ne (Bool.not_ne_self x)] at hst
      exact h.running (!x) st hst
  by_cases hl : l = .wakeState
  · subst hl
    have hv : v = umpRunning :=
      h.running x (.wakeState, v) (by rw [hbuf]; exact List.mem_cons_self) rfl
    have hcount : takenBack (s.buffer x) = takenBack rest + 1 := by
      rw [hbuf]
      exact List.countP_cons_of_pos rfl
    have howner : s.mem .wakeState = umpWait x ∧ waiting s x = 1 := by
      apply (h.owner x).resolve_right
      rintro ⟨-, hzero⟩
      rw [waiting, hcount] at hzero
      omega
    have hpeer : waiting s (!x) = 0 := by
      rcases h.owner (!x) with ⟨hmem, -⟩ | ⟨-, hzero⟩
      · exact absurd (howner.1.symm.trans hmem) (umpWait_ne_peer x)
      · exact hzero
    have hmem : Function.update s.mem .wakeState v .wakeState = umpRunning := by
      rw [Function.update_self, hv]
    have hnone : ∀ y, Function.update s.mem .wakeState v .wakeState ≠ umpWait y :=
      fun y heq => umpWait_ne_running y (heq.symm.trans hmem)
    refine ⟨hrunning, .inl hmem, ?_, h.discriminant⟩
    refine forall_sides x (.inr ⟨hnone x, ?_⟩) (.inr ⟨hnone (!x), ?_⟩)
    · have hone := howner.2
      unfold waiting at hone ⊢
      dsimp only
      rw [Function.update_self]
      omega
    · unfold waiting at hpeer ⊢
      dsimp only
      rw [Function.update_of_ne (Bool.not_ne_self x)]
      exact hpeer
  · have hcount : takenBack (s.buffer x) = takenBack rest := by
      rw [hbuf]
      exact List.countP_cons_of_neg (by simpa using hl)
    refine h.congr (Function.update_of_ne (Ne.symm hl) _ _) hrunning ?_ fun _ => rfl
    unfold waiting
    refine forall_sides x ?_ ?_
    · dsimp only
      rw [Function.update_self, hcount]
    · dsimp only
      rw [Function.update_of_ne (Bool.not_ne_self x)]

theorem wake_step {a : Action} (h : WakeOk s) (hs : next cfg s a = some s') : WakeOk s' := by
  cases next_cases hs with
  | @call y op hidle =>
    apply h.goto
    rw [hidle, (awake_start op).inWait]
    rfl
  | timeout _ hpc =>
    apply h.goto
    rw [hpc]
    rfl
  | flush hbuf => exact h.flush hbuf
  | @step y e eff s' hact hs =>
    obtain ⟨hdisc, hwait⟩ := acts_wait hact
    rw [h.discriminant y] at hwait
    generalize hold : inWait (s.ends y).pc = old at hwait
    generalize hnew : inWait e.pc = new at hwait
    cases hwait with
    | same hstore hswap =>
      cases eff with
      | store l v =>
        apply h.store hdisc _ _ hs
        · rw [if_neg (hstore l v rfl), hnew, hold, Nat.add_zero]
        · exact fun hl => absurd hl (hstore l v rfl)
      | _ =>
        apply h.silent hdisc (by rw [hnew, hold]) _ hswap hs
        exact fun _ _ => Effect.noConfusion
    | begin hrunning => exact h.begin hdisc hnew hrunning hs
    | done =>
      apply h.store hdisc _ (fun _ => rfl) hs
      rw [if_pos rfl, hnew, hold]

theorem wake_ok {garbage : Loc → Nat} (hr : Reachable (next cfg) (init cfg garbage) s) :
    WakeOk s := hr.invariant (wake_init cfg garbage) fun _ _ _ => wake_step

/-- A core reads its own store to the wake state while that waits in its buffer. -/
theorem WakeOk.view (h : WakeOk s) (x : Bool) :
    settle s.mem (s.buffer x) .wakeState = umpRunning ∨
      (takenBack (s.buffer x) = 0 ∧ settle s.mem (s.buffer x) .wakeState = s.mem .wakeState) := by
  have hrunning := h.running x
  generalize s.buffer x = buf at hrunning
  induction buf using List.reverseRecOn with
  | nil => exact .inr ⟨rfl, rfl⟩
  | append_singleton buf st ih =>
    obtain ⟨l, v⟩ := st
    rw [settle_push, takenBack_push]
    by_cases hl : l = .wakeState
    · subst hl
      rw [Function.update_self]
      exact .inl (hrunning (.wakeState, v) (List.mem_append_right _ List.mem_cons_self) rfl)
    · rw [Function.update_of_ne (Ne.symm hl), if_neg hl, Nat.add_zero]
      exact ih fun st hst => hrunning st (List.mem_append_left _ hst)

/-- In every run, and however stores are delayed, no two ends sleep on one channel, and an
end that finds the other waiting after it has sent finds the other's wait state: it does not
wait itself. -/
theorem wake_state_sound {garbage : Loc → Nat} (hr : Reachable (next cfg) (init cfg garbage) s)
    (x : Bool) :
    ¬ (Asleep (s.ends x).pc ∧ Asleep (s.ends (!x)).pc) ∧
    ((s.ends x).pc = .checkWake → settle s.mem (s.buffer x) .wakeState ≠ umpRunning →
      settle s.mem (s.buffer x) .wakeState = umpWait (!x)) := by
  have h := wake_ok hr
  constructor
  · rintro ⟨hx, hpeer⟩
    have hown : ∀ y, Asleep (s.ends y).pc → s.mem .wakeState = umpWait y := by
      intro y hy
      rcases h.owner y with ⟨hmem, -⟩ | ⟨-, hzero⟩
      · exact hmem
      · rw [waiting, inWait_of_asleep hy] at hzero
        omega
    exact umpWait_ne_peer x ((hown x hx).symm.trans (hown (!x) hpeer))
  · intro hpc hwaits
    rcases h.view x with hrunning | ⟨hzero, hview⟩
    · exact absurd hrunning hwaits
    · rw [hview] at hwaits ⊢
      rcases h.values with hrunning | ⟨y, hy⟩
      · exact absurd hrunning hwaits
      · rcases Bool.eq_or_eq_not y x with rfl | rfl
        · -- the end itself does not wait
          rcases h.owner y with ⟨-, hone⟩ | ⟨hne, -⟩
          · rw [waiting, hpc, hzero] at hone
            cases hone
          · exact absurd hy hne
        · exact hy

/-- An end that nothing is sent to falls asleep. -/
def toSleep : List Action :=
  [.call false (.dequeueWord true), .step false, .step false, .timeout false, .step false,
    .step false, .step false]

/-- The other end then sends to it. -/
def thenSend : List Action :=
  [.call true (.enqueueWord 5 false), .step true, .step true, .step true]

theorem wake_state_sound_send :
    ∃ s, Reachable (next (evenRings 2 true two_fit)) (init (evenRings 2 true two_fit) fun _ => 9) s ∧
      (s.ends true).pc = .checkWake ∧ settle s.mem (s.buffer true) .wakeState = umpWait false := by
  have hr : Reachable (next (evenRings 2 true two_fit)) (init (evenRings 2 true two_fit) fun _ => 9)
      ((run (next (evenRings 2 true two_fit)) (init (evenRings 2 true two_fit) fun _ => 9)
        (toSleep ++ thenSend)).get (by decide +kernel)) :=
    Foundation.Machine.reachable_of_run _ _
  exact ⟨_, hr, rfl, (wake_state_sound hr true).2 rfl (by decide +kernel)⟩

end State

section Fenced

variable {cfg : Config} {s s' : State}

/-- Only the signal of the other end wakes an end up. -/
theorem perform_wakeup {x : Bool} {eff : Effect} (hs : perform s x eff = some s')
    (hfalse : s'.wakeup (!x) = false) : s.wakeup (!x) = false ∧ eff ≠ .signal := by
  cases eff with
  | none => exact ⟨by rw [Option.some.inj hs]; exact hfalse, Effect.noConfusion⟩
  | store l v =>
    obtain rfl := Option.some.inj hs
    exact ⟨hfalse, Effect.noConfusion⟩
  | signal =>
    obtain rfl := Option.some.inj (Option.ite_none_right_eq_some.mp hs).2
    dsimp only at hfalse
    rw [Function.update_self] at hfalse
    cases hfalse
  | await =>
    obtain rfl := Option.some.inj (Option.ite_none_right_eq_some.mp hs).2
    dsimp only at hfalse
    rw [Function.update_of_ne (Bool.not_ne_self x)] at hfalse
    exact ⟨hfalse, Effect.noConfusion⟩
  | fence =>
    obtain rfl := Option.some.inj (Option.ite_none_right_eq_some.mp hs).2
    exact ⟨hfalse, Effect.noConfusion⟩
  | swap l v =>
    obtain rfl := Option.some.inj (Option.ite_none_right_eq_some.mp hs).2
    exact ⟨hfalse, Effect.noConfusion⟩

/-- A sender reads the wake state only after its stores have reached memory. -/
def Fenced (s : State) (a : Action) : Prop :=
  ∀ x, a = .step x → (s.ends x).pc = .checkWake → s.buffer x = []

instance (pc : Pc) : Decidable (pc = .checkWake) :=
  match pc with
  | .checkWake => isTrue rfl
  | .idle | .canSend _ | .poll _ _ | .recv _ | .header _ _ | .tag _ _ | .read _ _ _ | .fill _ _
  | .sendAck | .wakePeer | .again _ | .tryWait _ | .cas _ | .recheck _ | .sleep _ | .wakeup _
  | .failed _ => isFalse nofun

instance (s : State) (a : Action) : Decidable (Fenced s a) :=
  match a with
  | .step x => decidable_of_iff ((s.ends x).pc = .checkWake → s.buffer x = [])
      ⟨fun h y heq => by obtain rfl := Action.step.inj heq; exact h, fun h => h x rfl⟩
  | .call _ _ | .timeout _ | .flush _ => isTrue fun _ heq => nomatch heq

/-- An end that sleeps with no wake-up on its way has taken all messages, unless the other
end is about to look at the wake state or to wake it. -/
structure Alert (s : State) : Prop where
  pending : ∀ x, visible s x < (s.ends x).sent.length → (s.ends x).pc = .checkWake
  asleep : ∀ x, Asleep (s.ends x).pc → s.wakeup x = false →
    (s.ends x).taken < (s.ends (!x)).sent.length →
    (s.ends (!x)).pc = .checkWake ∨ (s.ends (!x)).pc = .wakePeer

theorem alert_init (cfg : Config) (garbage : Loc → Nat) : Alert (init cfg garbage) := by
  constructor
  · intro x hlt
    exact absurd hlt (Nat.not_lt_zero _)
  · rintro x ⟨call, hpc⟩
    cases hpc

/-- An end moves to a place where it neither sleeps nor has sent. -/
theorem Alert.goto {x : Bool} {pc : Pc} (h : Alert s)
    (hnext : visible (setEnd s x { s.ends x with pc := pc }) = visible s)
    (hsleep : ¬ Asleep pc) (hcheck : (s.ends x).pc ≠ .checkWake)
    (hwake : (s.ends x).pc ≠ .wakePeer) : Alert (setEnd s x { s.ends x with pc := pc }) := by
  constructor
  · rw [hnext]
    refine forall_sides x ?_ ?_
    · rw [setEnd_self]
      exact fun hlt => absurd (h.pending x hlt) hcheck
    · rw [setEnd_peer]
      exact h.pending (!x)
  · refine forall_sides x ?_ ?_
    · rw [setEnd_self]
      exact fun hs => absurd hs hsleep
    · rw [setEnd_peer, Bool.not_not, setEnd_self]
      intro hs hw hlt
      have hold := h.asleep (!x) hs hw
      rw [Bool.not_not] at hold
      rcases hold hlt with hpc | hpc
      · exact absurd hpc hcheck
      · exact absurd hpc hwake

theorem visible_goto (s : State) (x : Bool) (pc : Pc) :
    visible (setEnd s x { s.ends x with pc := pc }) = visible s := by
  funext y
  unfold visible
  rcases Bool.eq_or_eq_not y x with rfl | rfl
  · rw [setEnd_self]
    rfl
  · rw [setEnd_peer]
    rfl

/-- One step of an end. -/
theorem Alert.act {y : Bool} {e : End} {eff : Effect} (h : Alert s) (hinv : Invariant cfg s)
    (hwake : WakeOk s) (hfence : (s.ends y).pc = .checkWake → s.buffer y = [])
    (hvis : ∀ z, visible s z ≤ visible s' z)
    (hact : Acts y (settle s.mem (s.buffer y)) (s.ends y) e eff)
    (hs : perform (setEnd s y e) y eff = some s') : Alert s' := by
  have hends := perform_ends hs
  have hsent := acts_sent hact
  obtain ⟨hcheck, hsignals⟩ := acts_wake hact
  constructor
  · rw [hends]
    refine forall_sides y ?_ ?_
    · rw [setEnd_self]
      intro hlt
      rcases hsent with ⟨hsame, -⟩ | ⟨_, _, _, _, hpc, _⟩
      · -- nothing waits once the end has looked at the wake state
        rw [hsame] at hlt
        have hold := Nat.lt_of_le_of_lt (hvis y) hlt
        rw [visible_of_empty (hfence (h.pending y hold))] at hold
        exact absurd hold (Nat.lt_irrefl _)
      · exact hpc
    · rw [setEnd_peer]
      exact fun hlt => h.pending (!y) (Nat.lt_of_le_of_lt (hvis (!y)) hlt)
  · rw [hends]
    refine forall_sides y ?_ ?_
    · rw [setEnd_self, setEnd_peer]
      intro hsleep _ hlt
      obtain ⟨hempty, htaken⟩ := acts_asleep hact hsleep
      have hnone := mt (hinv.sees_iff y).mpr (by rw [hempty]; exact Bool.false_ne_true)
      rw [htaken] at hlt
      exact .inl (h.pending (!y) (Nat.lt_of_le_of_lt (Nat.le_of_not_lt hnone) hlt))
    · rw [setEnd_peer, Bool.not_not, setEnd_self]
      intro hsleep hflag hlt
      obtain ⟨hflag, hsignal⟩ := perform_wakeup hs hflag
      rcases hsent with ⟨hsame, -⟩ | ⟨_, _, _, _, hpc, _⟩
      · have hold := h.asleep (!y) hsleep hflag
        rw [Bool.not_not] at hold
        rw [hsame] at hlt
        rcases hold hlt with hpc | hpc
        · rcases hcheck hpc with hrunning | hnext
          · -- the store of the message has reached memory, so the wait state is seen
            rw [hfence hpc, settle_nil] at hrunning
            rcases hwake.owner (!y) with ⟨hmem, -⟩ | ⟨-, hzero⟩
            · exact absurd (hmem.symm.trans hrunning) (umpWait_ne_running _)
            · rw [waiting, inWait_of_asleep hsleep] at hzero
              omega
          · exact .inr hnext
        · exact absurd (hsignals hpc) hsignal
      · exact .inl hpc

theorem alert_step {a : Action} (h : Alert s) (hinv : Invariant cfg s) (hwake : WakeOk s)
    (hfence : Fenced s a) (hs : next cfg s a = some s') : Alert s' := by
  have hvis := visible_step hs
  cases next_cases hs with
  | @call y op hidle =>
    apply h.goto (visible_goto s y _) (awake_start op).not_asleep
    · rw [hidle]
      exact Pc.noConfusion
    · rw [hidle]
      exact Pc.noConfusion
  | @timeout y call hsleep hpc =>
    apply h.goto (visible_goto s y _)
    · rintro ⟨call', hcall'⟩
      cases hcall'
    · rw [hpc]
      exact Pc.noConfusion
    · rw [hpc]
      exact Pc.noConfusion
  | flush => exact ⟨fun x hlt => h.pending x (Nat.lt_of_le_of_lt (hvis x) hlt), h.asleep⟩
  | @step y e eff s' hact hs => exact h.act hinv hwake (hfence y rfl) hvis hact hs

/-- In every run in which a sender's message reaches memory before it reads the wake state,
no wake-up is lost: an end that sleeps with no wake-up on its way has taken every message
of its peer, unless the peer is still between its store and the wake-up. -/
theorem no_lost_wakeup {garbage : Loc → Nat} {as : List Action}
    (hn : ∀ x, cfg.bufmsgs x ≠ 2 ^ 16 - 1)
    (hg : Guarded (next cfg) Fenced (init cfg garbage) as)
    (hrun : run (next cfg) (init cfg garbage) as = some s) (x : Bool)
    (hsleep : Asleep (s.ends x).pc) (hflag : s.wakeup x = false) :
    (s.ends x).taken = (s.ends (!x)).sent.length ∨ (s.ends (!x)).pc = .checkWake ∨
      (s.ends (!x)).pc = .wakePeer := by
  have hall : Invariant cfg s ∧ WakeOk s ∧ Alert s := by
    refine Foundation.Machine.guarded_invariant
      (I := fun t => Invariant cfg t ∧ WakeOk t ∧ Alert t) ?_
      ⟨invariant_init cfg garbage, wake_init cfg garbage, alert_init cfg garbage⟩ hg hrun
    rintro t a t' ⟨hinv, hwake, halert⟩ hfence ht
    exact ⟨invariant_step (lt_of_ne hn) hinv ht, wake_step hwake ht,
      alert_step halert hinv hwake hfence ht⟩
  obtain ⟨hinv, -, halert⟩ := hall
  rcases Nat.lt_or_ge (s.ends x).taken (s.ends (!x)).sent.length with hlt | hge
  · exact .inr (halert.asleep x hsleep hflag hlt)
  · exact .inl (Nat.le_antisymm (hinv.taken_le x) hge)

/-- A message to an end that sleeps reaches memory, and its sender sees the wait state. -/
def thenWake : List Action := thenSend ++ [.flush true, .flush true, .step true]

theorem no_lost_wakeup_asleep :
    ∃ s, run (next (evenRings 2 true two_fit)) (init (evenRings 2 true two_fit) fun _ => 9)
        (toSleep ++ thenWake) = some s ∧
      (s.ends false).taken < (s.ends true).sent.length ∧
      ((s.ends false).taken = (s.ends true).sent.length ∨ (s.ends true).pc = .checkWake ∨
        (s.ends true).pc = .wakePeer) := by
  have hg : Guarded (next (evenRings 2 true two_fit)) Fenced
      (init (evenRings 2 true two_fit) fun _ => 9) (toSleep ++ thenWake) := by decide +kernel
  exact ⟨_, rfl, by decide +kernel, no_lost_wakeup (by decide) hg rfl false ⟨_, rfl⟩ rfl⟩

end Fenced

section Lost

variable {cfg : Config} {garbage : Loc → Nat} {s start : State} {x : Bool}

/-- An end sleeps for good: there is a message in memory that it has not taken, no wake-up
on its way, no store that waits, and the other end has nothing more to do. -/
structure Lost (s : State) (x : Bool) : Prop where
  asleep : Asleep (s.ends x).pc
  flag : s.wakeup x = false
  message : (s.ends x).taken < (s.ends (!x)).sent.length
  idle : (s.ends (!x)).pc = .idle
  drained : ∀ y, s.buffer y = []

/-- The stores of a core can always reach memory. -/
theorem drain (y : Bool) (hr : Reachable (next cfg) start s) :
    ∃ s', Reachable (next cfg) start s' ∧ s'.buffer y = [] ∧ s'.buffer (!y) = s.buffer (!y) ∧
      s'.ends = s.ends ∧ s'.wakeup = s.wakeup := by
  generalize hbuf : s.buffer y = buf
  induction buf generalizing s with
  | nil => exact ⟨s, hr, hbuf, rfl, rfl, rfl⟩
  | cons st rest ih =>
    obtain ⟨l, v⟩ := st
    have hflush : next cfg s (.flush y) = some { s with
        mem := Function.update s.mem l v
        buffer := Function.update s.buffer y rest } := by
      unfold next
      dsimp only
      rw [hbuf]
    obtain ⟨s', hr', hempty, hother, hends, hwakeup⟩ := ih (hr.step hflush)
      (Function.update_self ..)
    dsimp only at hother hends hwakeup
    rw [Function.update_of_ne (Bool.not_ne_self y)] at hother
    exact ⟨s', hr', hempty, hother, hends, hwakeup⟩

theorem next_swap {e e' : End} {l : Loc} {v : Nat}
    (hact : act x (settle s.mem []) e = some (e', .swap l v)) :
    next cfg (side s x e []) (.step x) =
      some (side { s with mem := Function.update s.mem l v } x e' []) := by
  unfold next side setEnd
  dsimp only
  rw [Function.update_self, Function.update_self, hact, Option.bind_some, perform]
  dsimp only
  rw [if_pos (Function.update_self ..), Function.update_idem]

/-- While the message of its peer waits in a buffer, an end looks at its ring in vain,
announces that it waits, looks again and sleeps. -/
theorem falls_asleep {k : Nat} (h : Sending cfg garbage (!x) s k) (hsleep : cfg.sleepEnabled = true)
    (hr : Reachable (next cfg) start s) :
    ∃ call, Reachable (next cfg) start (side { s with
      mem := Function.update s.mem .wakeState (umpWait x) } x
      { initEnd cfg x with pc := .sleep call } []) := by
  have hpeer := h.peer
  have hbuffer := h.peer_buffer
  rw [Bool.not_not] at hpeer hbuffer
  have hempty : ∀ pc, canRecv x (settle s.mem []) { initEnd cfg x with pc := pc } = false := by
    intro pc
    unfold canRecv
    rw [settle_nil, h.mem]
    rfl
  have hempty' : ∀ pc, canRecv x (settle (Function.update s.mem .wakeState (umpWait x)) [])
      { initEnd cfg x with pc := pc } = false := by
    intro pc
    rw [← hempty pc]
    unfold canRecv
    rw [settle_nil, settle_nil, Function.update_of_ne Loc.noConfusion]
  have hcall : next cfg s (.call x (.dequeueWord true)) =
      some (side s x { initEnd cfg x with pc := .recv (.dequeue 1 .first) } []) := by
    unfold next side setEnd
    dsimp only
    rw [hpeer, ← hbuffer, Function.update_eq_self]
    rfl
  have hfirst : next cfg (side s x { initEnd cfg x with pc := .recv (.dequeue 1 .first) } [])
      (.step x) = some (side s x { initEnd cfg x with pc := .recv (.dequeue 1 .busy) } []) := by
    apply next_local
    unfold act
    dsimp only
    rw [hempty]
    rfl
  have hbusy : next cfg (side s x { initEnd cfg x with pc := .recv (.dequeue 1 .busy) } [])
      (.step x) = some (side s x { initEnd cfg x with pc := .again (.dequeue 1 .busy) } []) := by
    apply next_local
    unfold act
    dsimp only
    rw [hempty]
    rfl
  have htimeout : next cfg (side s x { initEnd cfg x with pc := .again (.dequeue 1 .busy) } [])
      (.timeout x) = some (side s x { initEnd cfg x with pc := .tryWait (.dequeue 1 .busy) } []) := by
    unfold next side setEnd
    dsimp only
    rw [Function.update_self]
    dsimp only
    rw [if_pos hsleep, Function.update_idem]
  have htry : next cfg (side s x { initEnd cfg x with pc := .tryWait (.dequeue 1 .busy) } [])
      (.step x) = some (side s x { initEnd cfg x with pc := .cas (.dequeue 1 .busy) } []) := by
    apply next_local
    unfold act
    dsimp only
    rw [hempty]
    rfl
  have hcas : next cfg (side s x { initEnd cfg x with pc := .cas (.dequeue 1 .busy) } [])
      (.step x) = some (side { s with mem := Function.update s.mem .wakeState (umpWait x) } x
        { initEnd cfg x with pc := .recheck (.dequeue 1 .busy) } []) := by
    apply next_swap
    unfold act
    dsimp only
    rw [settle_nil, h.mem]
    rfl
  have hrecheck : next cfg (side { s with mem := Function.update s.mem .wakeState (umpWait x) } x
      { initEnd cfg x with pc := .recheck (.dequeue 1 .busy) } []) (.step x) =
      some (side { s with mem := Function.update s.mem .wakeState (umpWait x) } x
        { initEnd cfg x with pc := .sleep (.dequeue 1 .busy) } []) := by
    apply next_local
    unfold act
    dsimp only
    rw [hempty']
    rfl
  exact ⟨_, ((((((hr.step hcall).step hfirst).step hbusy).step htimeout).step htry).step
    hcas).step hrecheck⟩

theorem loses (hsleep : cfg.sleepEnabled = true) (garbage : Loc → Nat) (x : Bool) :
    ∃ s, Reachable (next cfg) (init cfg garbage) s ∧ Lost s x := by
  have hinit := sending_init cfg garbage (!x)
  have hcan : umpChanCanSend ((init cfg garbage).ends (!x)).chan = true := by
    have hone : umpIndexSub 1 0 = 1 := by
      unfold umpIndexSub umpIndex umpIndexBits
      omega
    change decide (umpIndexSub 1 0 ≤ cfg.bufmsgs (!x)) = true
    rw [hone]
    exact decide_eq_true (cfg.pos (!x))
  obtain ⟨s₁, hr₁, hsent⟩ := hinit.send hcan (.refl _)
  obtain ⟨call, hr₂⟩ := falls_asleep hsent hsleep hr₁
  -- only now does the message reach memory
  obtain ⟨s', hr', hempty, hother, hends, hflags⟩ := drain (!x) hr₂
  rw [Bool.not_not] at hother
  refine ⟨s', hr', ?_⟩
  have hself : s'.ends x = { initEnd cfg x with pc := .sleep call } := by
    rw [hends]
    exact Function.update_self ..
  have hpeer : s'.ends (!x) = s₁.ends (!x) := by
    rw [hends]
    exact Function.update_of_ne (Bool.not_ne_self x) ..
  constructor
  · rw [hself]
    exact ⟨call, rfl⟩
  · rw [hflags]
    exact congrFun hsent.flags x
  · rw [hself, hpeer, hsent.length]
    exact Nat.one_pos
  · rw [hpeer]
    exact hsent.idle
  · refine forall_sides x ?_ hempty
    rw [hother]
    exact Function.update_self ..

end Lost

/-- Without a fence between the message and the wake state a wake-up can be lost, with rings
of any size, exactly when blocking operations may sleep. -/
theorem lost_wakeup_iff (cfg : Config) (garbage : Loc → Nat) :
    (∃ s x, Reachable (next cfg) (init cfg garbage) s ∧ Lost s x) ↔ cfg.sleepEnabled = true := by
  constructor
  · rintro ⟨s, x, hr, hlost⟩
    by_contra hoff
    have hawake : ∀ y, Awake (s.ends y).pc := by
      apply each_end (I := fun _ e => Awake e.pc) hr
      · exact fun _ => trivial
      · exact fun _ _ op _ _ => awake_start op
      · exact fun _ _ _ _ _ h hact => h.act hact
      · exact fun hon => absurd hon hoff
    obtain ⟨call, hpc⟩ := hlost.asleep
    have hx := hawake x
    rw [hpc] at hx
    exact hx
  · intro hon
    obtain ⟨s, hr, hlost⟩ := loses hon garbage false
    exact ⟨s, false, hr, hlost⟩

end SmeltConsensus.UmpQueue.Wake
