import Mathlib.Logic.Function.Basic
import Mathlib.Data.List.Basic
import Mathlib.Data.List.Infix

/-!
Reactive processes that exchange messages over first-in first-out channels,
one channel for each ordered pair of parties.

A handler is one atomic step: it takes the oldest message of a channel that the
party polls, and what it does is written down in program order. Every party
keeps its whole history, so the messages sent and received on a channel and the
commands executed are read off the histories and need no state of their own.
-/

set_option autoImplicit false
set_option relaxedAutoImplicit false

namespace SmeltConsensus.Foundation.Network

/-- What a handler does: it sends, runs the execution function or prints. -/
inductive Output (Party Msg Cmd : Type)
  | send (dst : Party) (m : Msg)
  | exec (c : Cmd)
  | print (text : String) (args : List Nat)
  deriving DecidableEq

/-- One entry of a party's history. -/
inductive Event (Party Msg Cmd : Type)
  | recv (src : Party) (m : Msg)
  | out (o : Output Party Msg Cmd)
  deriving DecidableEq

variable {Party Msg Cmd : Type}

section Histories

/-- The messages sent to `q`, in order. -/
def sentTo [DecidableEq Party] (q : Party) : List (Event Party Msg Cmd) → List Msg
  | [] => []
  | .out (.send dst m) :: t => if dst = q then m :: sentTo q t else sentTo q t
  | _ :: t => sentTo q t

/-- The messages received from `p`, in order. -/
def receivedFrom [DecidableEq Party] (p : Party) : List (Event Party Msg Cmd) → List Msg
  | [] => []
  | .recv src m :: t => if src = p then m :: receivedFrom p t else receivedFrom p t
  | _ :: t => receivedFrom p t

/-- All messages received, with their senders. -/
def inputs : List (Event Party Msg Cmd) → List (Party × Msg)
  | [] => []
  | .recv src m :: t => (src, m) :: inputs t
  | _ :: t => inputs t

/-- All messages sent, with their destinations. -/
def sends : List (Event Party Msg Cmd) → List (Party × Msg)
  | [] => []
  | .out (.send dst m) :: t => (dst, m) :: sends t
  | _ :: t => sends t

/-- The commands passed to the execution function, in order. -/
def executed : List (Event Party Msg Cmd) → List Cmd
  | [] => []
  | .out (.exec c) :: t => c :: executed t
  | _ :: t => executed t

@[simp] theorem inputs_nil : inputs ([] : List (Event Party Msg Cmd)) = [] := rfl

@[simp] theorem inputs_recv (src : Party) (m : Msg) (t : List (Event Party Msg Cmd)) :
    inputs (.recv src m :: t) = (src, m) :: inputs t := rfl

@[simp] theorem inputs_out (o : Output Party Msg Cmd) (t : List (Event Party Msg Cmd)) :
    inputs (.out o :: t) = inputs t := rfl

@[simp] theorem sends_nil : sends ([] : List (Event Party Msg Cmd)) = [] := rfl

@[simp] theorem sends_recv (src : Party) (m : Msg) (t : List (Event Party Msg Cmd)) :
    sends (.recv src m :: t) = sends t := rfl

@[simp] theorem sends_send (dst : Party) (m : Msg) (t : List (Event Party Msg Cmd)) :
    sends (.out (.send dst m) :: t) = (dst, m) :: sends t := rfl

@[simp] theorem sends_exec (c : Cmd) (t : List (Event Party Msg Cmd)) :
    sends (.out (.exec c) :: t) = sends t := rfl

@[simp] theorem sends_print (text : String) (args : List Nat) (t : List (Event Party Msg Cmd)) :
    sends (.out (.print text args) :: t) = sends t := rfl

@[simp] theorem executed_nil : executed ([] : List (Event Party Msg Cmd)) = [] := rfl

@[simp] theorem executed_recv (src : Party) (m : Msg) (t : List (Event Party Msg Cmd)) :
    executed (.recv src m :: t) = executed t := rfl

@[simp] theorem executed_send (dst : Party) (m : Msg) (t : List (Event Party Msg Cmd)) :
    executed (.out (.send dst m) :: t) = executed t := rfl

@[simp] theorem executed_exec (c : Cmd) (t : List (Event Party Msg Cmd)) :
    executed (.out (.exec c) :: t) = c :: executed t := rfl

@[simp] theorem executed_print (text : String) (args : List Nat)
    (t : List (Event Party Msg Cmd)) :
    executed (.out (.print text args) :: t) = executed t := rfl

@[simp] theorem inputs_append (t u : List (Event Party Msg Cmd)) :
    inputs (t ++ u) = inputs t ++ inputs u := by
  induction t with
  | nil => rfl
  | cons e t ih => rcases e with ⟨src, m⟩ | o <;> simp [ih]

@[simp] theorem sends_append (t u : List (Event Party Msg Cmd)) :
    sends (t ++ u) = sends t ++ sends u := by
  induction t with
  | nil => rfl
  | cons e t ih => rcases e with ⟨src, m⟩ | (⟨dst, m⟩ | c | ⟨text, args⟩) <;> simp [ih]

@[simp] theorem executed_append (t u : List (Event Party Msg Cmd)) :
    executed (t ++ u) = executed t ++ executed u := by
  induction t with
  | nil => rfl
  | cons e t ih => rcases e with ⟨src, m⟩ | (⟨dst, m⟩ | c | ⟨text, args⟩) <;> simp [ih]

@[simp] theorem inputs_map_out (os : List (Output Party Msg Cmd)) :
    inputs (os.map .out) = [] := by
  induction os with
  | nil => rfl
  | cons o os ih => simpa using ih

variable [DecidableEq Party]

@[simp] theorem sentTo_nil (q : Party) : sentTo q ([] : List (Event Party Msg Cmd)) = [] := rfl

@[simp] theorem sentTo_recv (q src : Party) (m : Msg) (t : List (Event Party Msg Cmd)) :
    sentTo q (.recv src m :: t) = sentTo q t := rfl

@[simp] theorem sentTo_send (q dst : Party) (m : Msg) (t : List (Event Party Msg Cmd)) :
    sentTo q (.out (.send dst m) :: t) = if dst = q then m :: sentTo q t else sentTo q t := rfl

@[simp] theorem sentTo_exec (q : Party) (c : Cmd) (t : List (Event Party Msg Cmd)) :
    sentTo q (.out (.exec c) :: t) = sentTo q t := rfl

@[simp] theorem sentTo_print (q : Party) (text : String) (args : List Nat)
    (t : List (Event Party Msg Cmd)) :
    sentTo q (.out (.print text args) :: t) = sentTo q t := rfl

@[simp] theorem receivedFrom_nil (p : Party) :
    receivedFrom p ([] : List (Event Party Msg Cmd)) = [] := rfl

@[simp] theorem receivedFrom_recv (p src : Party) (m : Msg) (t : List (Event Party Msg Cmd)) :
    receivedFrom p (.recv src m :: t) =
      if src = p then m :: receivedFrom p t else receivedFrom p t := rfl

@[simp] theorem receivedFrom_out (p : Party) (o : Output Party Msg Cmd)
    (t : List (Event Party Msg Cmd)) : receivedFrom p (.out o :: t) = receivedFrom p t := rfl

@[simp] theorem sentTo_append (q : Party) (t u : List (Event Party Msg Cmd)) :
    sentTo q (t ++ u) = sentTo q t ++ sentTo q u := by
  induction t with
  | nil => rfl
  | cons e t ih =>
    rcases e with ⟨src, m⟩ | (⟨dst, m⟩ | c | ⟨text, args⟩)
    · simpa using ih
    · by_cases h : dst = q <;> simp [h, ih]
    · simpa using ih
    · simpa using ih

@[simp] theorem receivedFrom_append (p : Party) (t u : List (Event Party Msg Cmd)) :
    receivedFrom p (t ++ u) = receivedFrom p t ++ receivedFrom p u := by
  induction t with
  | nil => rfl
  | cons e t ih =>
    rcases e with ⟨src, m⟩ | o
    · by_cases h : src = p <;> simp [h, ih]
    · simpa using ih

@[simp] theorem receivedFrom_map_out (p : Party) (os : List (Output Party Msg Cmd)) :
    receivedFrom p (os.map .out) = [] := by
  induction os with
  | nil => rfl
  | cons o os ih => simpa using ih

/-- What a step adds to the messages received from the sender of its message. -/
theorem receivedFrom_step (p : Party) (m : Msg) (t : List (Event Party Msg Cmd))
    (os : List (Output Party Msg Cmd)) :
    receivedFrom p (t ++ .recv p m :: os.map .out) = receivedFrom p t ++ [m] := by
  rw [receivedFrom_append, receivedFrom_recv, if_pos rfl, receivedFrom_map_out]

theorem mem_sentTo_iff {q : Party} {m : Msg} {t : List (Event Party Msg Cmd)} :
    m ∈ sentTo q t ↔ Event.out (.send q m) ∈ t := by
  induction t with
  | nil => simp
  | cons e t ih =>
    rcases e with ⟨src, m'⟩ | (⟨dst, m'⟩ | c | ⟨text, args⟩)
    · simp [ih]
    · by_cases h : dst = q
      · simp [h, ih]
      · simp [h, ih, Ne.symm h]
    · simp [ih]
    · simp [ih]

theorem receivedFrom_eq_inputs (p : Party) (t : List (Event Party Msg Cmd)) :
    receivedFrom p t = ((inputs t).filter (·.1 = p)).map Prod.snd := by
  induction t with
  | nil => rfl
  | cons e t ih =>
    rcases e with ⟨src, m⟩ | o
    · by_cases h : src = p <;> simp [h, ih]
    · simpa using ih

theorem mem_receivedFrom_iff {p : Party} {m : Msg} {t : List (Event Party Msg Cmd)} :
    m ∈ receivedFrom p t ↔ (p, m) ∈ inputs t := by
  simp [receivedFrom_eq_inputs]

theorem sentTo_eq_sends (q : Party) (t : List (Event Party Msg Cmd)) :
    sentTo q t = ((sends t).filter (·.1 = q)).map Prod.snd := by
  induction t with
  | nil => rfl
  | cons e t ih =>
    rcases e with ⟨src, m⟩ | (⟨dst, m⟩ | c | ⟨text, args⟩)
    · simpa using ih
    · by_cases h : dst = q <;> simp [h, ih]
    · simpa using ih
    · simpa using ih

/-- A message sent once to each party of a duplicate-free list. -/
theorem sentTo_multicast (q : Party) (ps : List Party) (hps : ps.Nodup) (m : Msg) :
    sentTo q (ps.map fun p => (.out (.send p m) : Event Party Msg Cmd)) =
      if q ∈ ps then [m] else [] := by
  induction ps with
  | nil => rfl
  | cons p ps ih =>
    obtain ⟨hp, hnd⟩ := List.nodup_cons.mp hps
    by_cases h : p = q
    · subst h
      simp [ih hnd, hp]
    · have hq : q ≠ p := Ne.symm h
      simp [h, hq, ih hnd]

/-- The next of a list of indexed messages. -/
theorem next_of_prefix {α β : Type} {xs : List β} {m : β} {ys : List α} {f : Nat → α → β}
    (h : xs ++ [m] <+: ys.mapIdx f) : ∃ y, ys[xs.length]? = some y ∧ m = f xs.length y := by
  have hget : (ys.mapIdx f)[xs.length]? = some m := by
    obtain ⟨zs, hzs⟩ := h
    rw [← hzs, List.append_assoc, List.getElem?_append_right le_rfl, Nat.sub_self]
    rfl
  rw [List.getElem?_mapIdx, Option.map_eq_some_iff] at hget
  obtain ⟨y, hy, hm⟩ := hget
  exact ⟨y, hy, hm.symm⟩

end Histories

/-- The parties' programs. `polls` says on which channels a party is ready to
receive, `handle` is its message handler and `stimulate` what it does unasked. -/
structure System (Party Msg Cmd : Type) where
  Local : Party → Type
  Stimulus : Type
  init : (p : Party) → Local p
  polls : (p : Party) → Local p → Party → Bool
  handle : (p : Party) → Local p → Party → Msg → Local p × List (Output Party Msg Cmd)
  stimulate : (p : Party) → Local p → Stimulus → Option (Local p × List (Output Party Msg Cmd))

/-- A choice of the scheduler. -/
inductive Action (S : System Party Msg Cmd)
  | deliver (src dst : Party)
  | stimulate (p : Party) (x : S.Stimulus)

/-- The state of a network: local states, histories and channel contents. -/
structure Net (S : System Party Msg Cmd) where
  loc : (p : Party) → S.Local p
  trace : Party → List (Event Party Msg Cmd)
  inFlight : Party → Party → List Msg

namespace Net

variable {S : System Party Msg Cmd}

def initial (S : System Party Msg Cmd) : Net S :=
  ⟨S.init, fun _ => [], fun _ _ => []⟩

variable [DecidableEq Party]

/-- Take the oldest message off the channel from `src` to `dst`. -/
def pop (s : Net S) (src dst : Party) : Net S :=
  { s with inFlight := fun a b =>
      if a = src ∧ b = dst then (s.inFlight a b).tail else s.inFlight a b }

/-- Party `p` moves to `l` and its history grows by `es`; what it sends enters the channels. -/
def act (s : Net S) (p : Party) (l : S.Local p) (es : List (Event Party Msg Cmd)) : Net S where
  loc := Function.update s.loc p l
  trace := Function.update s.trace p (s.trace p ++ es)
  inFlight := fun a b => if a = p then s.inFlight a b ++ sentTo b es else s.inFlight a b

def step (s : Net S) : Action S → Option (Net S)
  | .deliver src dst =>
    if S.polls dst (s.loc dst) src then
      match s.inFlight src dst with
      | [] => none
      | m :: _ =>
        let r := S.handle dst (s.loc dst) src m
        some ((s.pop src dst).act dst r.1 (.recv src m :: r.2.map .out))
    else none
  | .stimulate p x =>
    (S.stimulate p (s.loc p) x).map fun r => s.act p r.1 (r.2.map .out)

/-- The states that some schedule reaches. -/
inductive Reachable : Net S → Prop
  | init : Reachable (initial S)
  | step {s s' : Net S} {a : Action S} : Reachable s → s.step a = some s' → Reachable s'

/-- Run a schedule; a choice that is not enabled ends the run. -/
def run (s : Net S) : List (Action S) → Option (Net S)
  | [] => some s
  | a :: as => (s.step a).bind fun s' => s'.run as

theorem Reachable.run {s s' : Net S} {as : List (Action S)} (h : Reachable s)
    (hr : s.run as = some s') : Reachable s' := by
  induction as generalizing s with
  | nil =>
    obtain rfl := Option.some.inj hr
    exact h
  | cons a as ih =>
    obtain ⟨t, ht, hrun⟩ := Option.bind_eq_some_iff.mp hr
    exact ih (h.step ht) hrun

/-- The state at the end of a schedule all of whose choices are enabled. -/
theorem reachable_of_run (as : List (Action S)) (h : ((initial S).run as).isSome) :
    (((initial S).run as).get h).Reachable :=
  Reachable.init.run (Option.some_get h).symm

@[simp] theorem act_loc_self (s : Net S) (p : Party) (l : S.Local p)
    (es : List (Event Party Msg Cmd)) : (s.act p l es).loc p = l := by
  simp [act]

theorem act_loc_of_ne (s : Net S) {p q : Party} (h : q ≠ p) (l : S.Local p)
    (es : List (Event Party Msg Cmd)) : (s.act p l es).loc q = s.loc q := by
  simp [act, h]

@[simp] theorem act_trace_self (s : Net S) (p : Party) (l : S.Local p)
    (es : List (Event Party Msg Cmd)) : (s.act p l es).trace p = s.trace p ++ es := by
  simp [act]

theorem act_trace_of_ne (s : Net S) {p q : Party} (h : q ≠ p) (l : S.Local p)
    (es : List (Event Party Msg Cmd)) : (s.act p l es).trace q = s.trace q := by
  simp [act, h]

@[simp] theorem pop_loc (s : Net S) (src dst : Party) : (s.pop src dst).loc = s.loc := rfl

@[simp] theorem pop_trace (s : Net S) (src dst : Party) : (s.pop src dst).trace = s.trace := rfl

/-- Everything a step can do: a delivery to a party that polls the channel, or a stimulus. -/
theorem step_cases {s s' : Net S} {a : Action S} (h : s.step a = some s') :
    (∃ src dst m rest, S.polls dst (s.loc dst) src = true ∧
      s.inFlight src dst = m :: rest ∧
      s' = (s.pop src dst).act dst (S.handle dst (s.loc dst) src m).1
        (.recv src m :: (S.handle dst (s.loc dst) src m).2.map .out)) ∨
    (∃ p x r, S.stimulate p (s.loc p) x = some r ∧ s' = s.act p r.1 (r.2.map .out)) := by
  cases a with
  | deliver src dst =>
    simp only [step] at h
    split at h
    · rename_i hp
      split at h
      · cases h
      · rename_i m rest hq
        exact .inl ⟨src, dst, m, rest, hp, hq, (Option.some.inj h).symm⟩
    · cases h
  | stimulate p x =>
    obtain ⟨r, hr, hs⟩ := Option.map_eq_some_iff.mp h
    exact .inr ⟨p, x, r, hr, hs.symm⟩

/-- The delivery of the oldest message to a party that polls the channel. -/
theorem step_deliver {s : Net S} {p q : Party} {m : Msg} {rest : List Msg}
    {r : S.Local q × List (Output Party Msg Cmd)} (hp : S.polls q (s.loc q) p = true)
    (hq : s.inFlight p q = m :: rest) (hr : S.handle q (s.loc q) p m = r) :
    s.step (.deliver p q) = some ((s.pop p q).act q r.1 (.recv p m :: r.2.map .out)) := by
  rw [step, if_pos hp, hq, ← hr]

theorem step_stimulate {s : Net S} {p : Party} {x : S.Stimulus}
    {r : S.Local p × List (Output Party Msg Cmd)} (hr : S.stimulate p (s.loc p) x = some r) :
    s.step (.stimulate p x) = some (s.act p r.1 (r.2.map .out)) := by
  rw [step, hr, Option.map_some]

/-- The law of a first-in first-out channel: what was sent is what was received,
followed by what is in flight. -/
theorem Reachable.fifo {s : Net S} (h : Reachable s) (p q : Party) :
    sentTo q (s.trace p) = receivedFrom p (s.trace q) ++ s.inFlight p q := by
  induction h with
  | init => rfl
  | @step s s' a _ hs ih =>
    obtain ⟨src, dst, m, rest, -, hq, rfl⟩ | ⟨r, x, l, -, rfl⟩ := step_cases hs
    · by_cases hd : dst = q
      · subst hd
        by_cases hsrc : src = p
        · subst hsrc
          by_cases hp : src = dst
          · subst hp
            simp [act, pop, ih, hq]
          · simp [act, pop, ih, hq, hp]
        · by_cases hp : p = dst
          · subst hp
            simp [act, pop, ih, hsrc, Ne.symm hsrc]
          · simp [act, pop, ih, hsrc, Ne.symm hsrc, hp]
      · by_cases hp : p = dst
        · subst hp
          simp [act, pop, ih, Ne.symm hd]
        · simp [act, pop, ih, Ne.symm hd, hp]
    · by_cases hp : p = r
      · subst hp
        by_cases hd : q = p
        · subst hd
          simp [act, ih]
        · simp [act, ih, hd]
      · by_cases hd : q = r
        · subst hd
          simp [act, ih, hp]
        · simp [act, ih, hp, hd]

theorem Reachable.receivedFrom_prefix {s : Net S} (h : Reachable s) (p q : Party) :
    receivedFrom p (s.trace q) <+: sentTo q (s.trace p) :=
  ⟨_, (h.fifo p q).symm⟩

/-- The oldest message in flight is the next one to be received. -/
theorem Reachable.next_prefix {s : Net S} (h : Reachable s) {p q : Party} {m : Msg}
    {rest : List Msg} (hq : s.inFlight p q = m :: rest) :
    receivedFrom p (s.trace q) ++ [m] <+: sentTo q (s.trace p) := by
  rw [h.fifo p q, hq, List.append_cons _ m rest]
  exact List.prefix_append _ _

/-- An assumption on the messages of each channel and an invariant of each party
carry each other through every run: each handler may assume both for what it
receives and has to establish both for what it does. -/
theorem Reachable.assume_guarantee (I : (p : Party) → S.Local p → List (Event Party Msg Cmd) → Prop)
    (M : Party → Party → Msg → Prop)
    (hinit : ∀ p, I p (S.init p) [])
    (hhandle : ∀ p l t src m, I p l t → S.polls p l src = true → M src p m →
      I p (S.handle p l src m).1 (t ++ .recv src m :: (S.handle p l src m).2.map .out) ∧
      ∀ dst m', .send dst m' ∈ (S.handle p l src m).2 → M p dst m')
    (hstim : ∀ p l t x r, I p l t → S.stimulate p l x = some r →
      I p r.1 (t ++ r.2.map .out) ∧ ∀ dst m', .send dst m' ∈ r.2 → M p dst m')
    {s : Net S} (h : Reachable s) :
    (∀ p, I p (s.loc p) (s.trace p)) ∧ ∀ p q, ∀ m ∈ sentTo q (s.trace p), M p q m := by
  induction h with
  | init => exact ⟨hinit, fun _ _ _ hm => by simp [initial] at hm⟩
  | @step s s' a hr hs ih =>
    obtain ⟨ihI, ihM⟩ := ih
    obtain ⟨src, dst, m, rest, hp, hq, rfl⟩ | ⟨p, x, r, hx, rfl⟩ := step_cases hs
    · have hm : M src dst m := by
        apply ihM src dst m
        rw [hr.fifo src dst, hq]
        simp
      obtain ⟨hI, hM⟩ := hhandle dst _ _ src m (ihI dst) hp hm
      refine ⟨fun q => ?_, fun q b m' hm' => ?_⟩
      · by_cases h : q = dst
        · subst h
          simpa using hI
        · simpa [act_loc_of_ne _ h, act_trace_of_ne _ h] using ihI q
      · by_cases h : q = dst
        · subst h
          simp only [act_trace_self, pop_trace, sentTo_append, sentTo_recv, List.mem_append] at hm'
          rcases hm' with hm' | hm'
          · exact ihM q b m' hm'
          · rw [mem_sentTo_iff] at hm'
            exact hM b m' (by simpa using hm')
        · rw [act_trace_of_ne _ h] at hm'
          exact ihM q b m' hm'
    · obtain ⟨hI, hM⟩ := hstim p _ _ x r (ihI p) hx
      refine ⟨fun q => ?_, fun q b m' hm' => ?_⟩
      · by_cases h : q = p
        · subst h
          simpa using hI
        · simpa [act_loc_of_ne _ h, act_trace_of_ne _ h] using ihI q
      · by_cases h : q = p
        · subst h
          simp only [act_trace_self, sentTo_append, List.mem_append] at hm'
          rcases hm' with hm' | hm'
          · exact ihM q b m' hm'
          · rw [mem_sentTo_iff] at hm'
            exact hM b m' (by simpa using hm')
        · rw [act_trace_of_ne _ h] at hm'
          exact ihM q b m' hm'

/-- An invariant of one party may use what holds of the whole network before and
after each of its steps. -/
theorem Reachable.party_induction (p : Party)
    (I : S.Local p → List (Event Party Msg Cmd) → Prop) (hinit : I (S.init p) [])
    (hhandle : ∀ (s s' : Net S) src m, s.Reachable → s'.Reachable → I (s.loc p) (s.trace p) →
      S.polls p (s.loc p) src = true →
      s'.trace p = s.trace p ++ .recv src m :: (S.handle p (s.loc p) src m).2.map .out →
      I (S.handle p (s.loc p) src m).1 (s'.trace p))
    (hstim : ∀ (s s' : Net S) x r, s.Reachable → s'.Reachable → I (s.loc p) (s.trace p) →
      S.stimulate p (s.loc p) x = some r → s'.trace p = s.trace p ++ r.2.map .out →
      I r.1 (s'.trace p))
    {s : Net S} (h : Reachable s) : I (s.loc p) (s.trace p) := by
  induction h with
  | init => exact hinit
  | @step s s' a hr hs ih =>
    have hr' := hr.step hs
    obtain ⟨src, dst, m, rest, hp, -, rfl⟩ | ⟨q, x, r, hx, rfl⟩ := step_cases hs
    · by_cases h : p = dst
      · subst h
        rw [act_loc_self]
        exact hhandle s _ src m hr hr' ih hp (by simp)
      · rw [act_loc_of_ne _ h, act_trace_of_ne _ h]
        exact ih
    · by_cases h : p = q
      · subst h
        rw [act_loc_self]
        exact hstim s _ x r hr hr' ih hx (by simp)
      · rw [act_loc_of_ne _ h, act_trace_of_ne _ h]
        exact ih

/-- Invariants of all parties carry each other: a step of one party may use the
invariants of all of them before the step, and that its message is the next one of
those its sender has sent. -/
theorem Reachable.joint_induction (I : (p : Party) → S.Local p → List (Event Party Msg Cmd) → Prop)
    (hinit : ∀ p, I p (S.init p) [])
    (hhandle : ∀ (s : Net S) src dst m, s.Reachable → (∀ p, I p (s.loc p) (s.trace p)) →
      S.polls dst (s.loc dst) src = true →
      receivedFrom src (s.trace dst) ++ [m] <+: sentTo dst (s.trace src) →
      I dst (S.handle dst (s.loc dst) src m).1
        (s.trace dst ++ .recv src m :: (S.handle dst (s.loc dst) src m).2.map .out))
    (hstim : ∀ (s : Net S) p x r, s.Reachable → (∀ p, I p (s.loc p) (s.trace p)) →
      S.stimulate p (s.loc p) x = some r → I p r.1 (s.trace p ++ r.2.map .out))
    {s : Net S} (h : Reachable s) : ∀ p, I p (s.loc p) (s.trace p) := by
  induction h with
  | init => exact hinit
  | @step s s' a hr hs ih =>
    obtain ⟨src, dst, m, rest, hp, hq, rfl⟩ | ⟨q, x, r, hx, rfl⟩ := step_cases hs
    · have hnext := hr.next_prefix hq
      intro p
      by_cases h : p = dst
      · subst h
        rw [act_loc_self, act_trace_self]
        exact hhandle s src _ m hr ih hp hnext
      · rw [act_loc_of_ne _ h, act_trace_of_ne _ h]
        exact ih p
    · intro p
      by_cases h : p = q
      · subst h
        rw [act_loc_self, act_trace_self]
        exact hstim s _ x r hr ih hx
      · rw [act_loc_of_ne _ h, act_trace_of_ne _ h]
        exact ih p

/-- The party that acts. -/
def actor : Action S → Party
  | .deliver _ dst => dst
  | .stimulate p _ => p

/-- Only the party that acts adds to its history. -/
theorem step_trace_of_ne {s s' : Net S} {a : Action S} (h : s.step a = some s') {p : Party}
    (hp : actor a ≠ p) : s'.trace p = s.trace p := by
  cases a with
  | deliver src dst =>
    have hdst : p ≠ dst := Ne.symm hp
    rw [step] at h
    split at h
    · split at h
      · cases h
      · obtain rfl := Option.some.inj h
        rw [act_trace_of_ne _ hdst, pop_trace]
    · cases h
  | stimulate q x =>
    obtain ⟨r, -, rfl⟩ := Option.map_eq_some_iff.mp h
    exact act_trace_of_ne _ (Ne.symm hp) _ _

/-- A party that no choice of a schedule lets act keeps its history. -/
theorem run_trace_of_notMem {s s' : Net S} {as : List (Action S)} (h : s.run as = some s')
    {p : Party} (hp : p ∉ as.map actor) : s'.trace p = s.trace p := by
  induction as generalizing s with
  | nil =>
    obtain rfl := Option.some.inj h
    rfl
  | cons a as ih =>
    obtain ⟨t, ht, hrun⟩ := Option.bind_eq_some_iff.mp h
    rw [List.map_cons, List.mem_cons, not_or] at hp
    rw [ih hrun hp.2, step_trace_of_ne ht (Ne.symm hp.1)]

/-- A party that is ready to receive takes the next message that was sent to it. -/
theorem Reachable.deliver {s : Net S} (h : Reachable s) {p q : Party}
    (hp : S.polls q (s.loc q) p = true)
    (hlt : (receivedFrom p (s.trace q)).length < (sentTo q (s.trace p)).length) :
    ∃ m s', s.step (.deliver p q) = some s' ∧
      receivedFrom p (s.trace q) ++ [m] <+: sentTo q (s.trace p) ∧
      s'.trace q = s.trace q ++ .recv p m :: (S.handle q (s.loc q) p m).2.map .out := by
  rw [h.fifo, List.length_append] at hlt
  obtain ⟨m, rest, hq⟩ : ∃ m rest, s.inFlight p q = m :: rest :=
    List.exists_cons_of_length_pos (by omega)
  refine ⟨m, (s.pop p q).act q (S.handle q (s.loc q) p m).1
    (.recv p m :: (S.handle q (s.loc q) p m).2.map .out), ?_, h.next_prefix hq, ?_⟩
  · exact step_deliver hp hq rfl
  · rw [act_trace_self, pop_trace]

/-- No message is on its way. -/
def Quiescent (s : Net S) : Prop := ∀ p q, s.inFlight p q = []

/-- A schedule leaves nothing in flight if the parties that acted have nothing in flight to
those they sent to. -/
theorem quiescent_of_run (as : List (Action S)) (h : ((initial S).run as).isSome)
    (hacted : ∀ p ∈ as.map actor, ∀ x ∈ sends ((((initial S).run as).get h).trace p),
      (((initial S).run as).get h).inFlight p x.1 = []) :
    (((initial S).run as).get h).Quiescent := by
  intro p q
  have hfifo := (reachable_of_run as h).fifo p q
  by_contra hne
  obtain ⟨m, hm⟩ := List.exists_mem_of_ne_nil _ hne
  have hsent : m ∈ sentTo q ((((initial S).run as).get h).trace p) := by
    rw [hfifo]
    exact List.mem_append_right _ hm
  by_cases hp : p ∈ as.map actor
  · rw [sentTo_eq_sends] at hsent
    obtain ⟨x, hx, -⟩ := List.mem_map.mp hsent
    obtain ⟨hx, hq⟩ := List.mem_filter.mp hx
    rw [decide_eq_true_eq] at hq
    exact hne (hq ▸ hacted p hp x hx)
  · rw [run_trace_of_notMem (Option.some_get h).symm hp] at hsent
    cases hsent

theorem Reachable.received_eq_sent {s : Net S} (h : Reachable s) {p q : Party}
    (hq : s.inFlight p q = []) : receivedFrom p (s.trace q) = sentTo q (s.trace p) := by
  rw [h.fifo p q, hq, List.append_nil]

end Net

end SmeltConsensus.Foundation.Network
