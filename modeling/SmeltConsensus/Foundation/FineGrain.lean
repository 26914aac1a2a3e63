import SmeltConsensus.Foundation.Machine
import SmeltConsensus.Foundation.Network

/-!
The processes of a network with smaller steps: a message is taken in one step, and
each thing that its handler does is a step of its own, in program order.

To do at once what every party still has to do leads to a state of the network with
atomic handlers, so its results are results about the smaller steps.
-/

set_option autoImplicit false
set_option relaxedAutoImplicit false

namespace SmeltConsensus.Foundation.FineGrain

open SmeltConsensus.Foundation.Network

variable {Party Msg Cmd : Type} [DecidableEq Party]

/-- A network, and what the handlers that have not returned still have to do. -/
structure Fine (S : System Party Msg Cmd) where
  net : Net S
  pending : Party → List (Output Party Msg Cmd)

/-- A choice of the scheduler. -/
inductive FineAction (S : System Party Msg Cmd)
  | deliver (src dst : Party)
  | perform (p : Party)
  | stimulate (p : Party) (x : S.Stimulus)

namespace Fine

variable {S : System Party Msg Cmd}

def initial (S : System Party Msg Cmd) : Fine S := ⟨Net.initial S, fun _ => []⟩

/-- A party whose handler has returned takes a message or a stimulus; the others do
the next thing. -/
def step (s : Fine S) : FineAction S → Option (Fine S)
  | .deliver src dst =>
    if S.polls dst (s.net.loc dst) src = true ∧ s.pending dst = [] then
      match s.net.inFlight src dst with
      | [] => none
      | m :: _ =>
        let r := S.handle dst (s.net.loc dst) src m
        some ⟨(s.net.pop src dst).act dst r.1 [.recv src m], Function.update s.pending dst r.2⟩
    else none
  | .perform p =>
    match s.pending p with
    | [] => none
    | o :: os => some ⟨s.net.act p (s.net.loc p) [.out o], Function.update s.pending p os⟩
  | .stimulate p x =>
    if s.pending p = [] then
      (S.stimulate p (s.net.loc p) x).map fun r =>
        ⟨s.net.act p r.1 [], Function.update s.pending p r.2⟩
    else none

/-- The states that some schedule reaches. -/
def Reachable (s : Fine S) : Prop := Machine.Reachable step (initial S) s

/-- The network after all parties have done what they still have to do. -/
def flush (s : Fine S) : Net S where
  loc := s.net.loc
  trace p := s.net.trace p ++ (s.pending p).map .out
  inFlight p q := s.net.inFlight p q ++ sentTo q ((s.pending p).map .out)

@[simp] theorem flush_loc (s : Fine S) : s.flush.loc = s.net.loc := rfl

theorem flush_trace (s : Fine S) (p : Party) :
    s.flush.trace p = s.net.trace p ++ (s.pending p).map .out := rfl

theorem flush_inFlight (s : Fine S) (p q : Party) :
    s.flush.inFlight p q = s.net.inFlight p q ++ sentTo q ((s.pending p).map .out) := rfl

theorem flush_mk_trace (net : Net S) (pending : Party → List (Output Party Msg Cmd)) (p : Party) :
    (flush ⟨net, pending⟩).trace p = net.trace p ++ (pending p).map .out := rfl

theorem flush_mk_inFlight (net : Net S) (pending : Party → List (Output Party Msg Cmd))
    (p q : Party) : (flush ⟨net, pending⟩).inFlight p q =
      net.inFlight p q ++ sentTo q ((pending p).map .out) := rfl

omit [DecidableEq Party] in
private theorem net_ext {s t : Net S} (hloc : s.loc = t.loc) (htrace : ∀ p, s.trace p = t.trace p)
    (hflight : ∀ p q, s.inFlight p q = t.inFlight p q) : s = t := by
  obtain ⟨loc, trace, inFlight⟩ := s
  obtain rfl : loc = t.loc := hloc
  obtain rfl : trace = t.trace := funext htrace
  obtain rfl : inFlight = t.inFlight := funext fun p => funext fun q => hflight p q
  rfl

private theorem act_inFlight (t : Net S) (p : Party) (l : S.Local p)
    (es : List (Event Party Msg Cmd)) (a b : Party) : (t.act p l es).inFlight a b =
      if a = p then t.inFlight a b ++ sentTo b es else t.inFlight a b := rfl

/-- A step of the party `p` from `s` that leaves `os` to be done, with the atomic handler
that it begins. -/
private theorem flush_act {s : Fine S} {t : Net S} {p : Party} (hnone : s.pending p = [])
    (hloc : t.loc = s.net.loc) (htrace : t.trace = s.net.trace) (l : S.Local p)
    (es : List (Event Party Msg Cmd)) (os : List (Output Party Msg Cmd)) (u : Net S)
    (hu : u.loc = s.net.loc) (hutrace : ∀ q, u.trace q = s.flush.trace q)
    (huflight : ∀ a b, u.inFlight a b = t.inFlight a b ++ sentTo b ((s.pending a).map .out)) :
    (flush ⟨t.act p l es, Function.update s.pending p os⟩) = u.act p l (es ++ os.map .out) := by
  apply net_ext
  · show Function.update t.loc p l = Function.update u.loc p l
    rw [hloc, hu]
  · intro q
    rw [flush_mk_trace]
    by_cases hq : q = p
    · subst hq
      rw [Net.act_trace_self, Net.act_trace_self, Function.update_self, hutrace, flush_trace, hnone,
        htrace, List.map_nil, List.append_nil, List.append_assoc]
    · rw [Net.act_trace_of_ne _ hq, Net.act_trace_of_ne _ hq, Function.update_of_ne hq, hutrace,
        flush_trace, htrace]
  · intro a b
    rw [flush_mk_inFlight, act_inFlight, act_inFlight, huflight]
    by_cases ha : a = p
    · subst ha
      rw [Function.update_self, if_pos rfl, if_pos rfl, hnone, List.map_nil, sentTo_nil,
        List.append_nil, sentTo_append, List.append_assoc]
    · rw [Function.update_of_ne ha, if_neg ha, if_neg ha]

/-- A smaller step is a step of the network with atomic handlers, or changes nothing there. -/
theorem flush_step {s s' : Fine S} {a : FineAction S} (h : s.step a = some s') :
    s'.flush = s.flush ∨ ∃ b, s.flush.step b = some s'.flush := by
  cases a with
  | deliver src dst =>
    right
    rw [step] at h
    split at h
    · rename_i hready
      obtain ⟨hpolls, hnone⟩ := hready
      split at h
      · cases h
      · rename_i m rest hq
        obtain rfl := Option.some.inj h
        refine ⟨.deliver src dst, ?_⟩
        rw [Net.step, flush_loc, if_pos hpolls, flush_inFlight, hq]
        have hact := flush_act (s := s) (t := s.net.pop src dst) hnone rfl rfl
          (S.handle dst (s.net.loc dst) src m).1 [.recv src m]
          (S.handle dst (s.net.loc dst) src m).2 (s.flush.pop src dst) rfl (fun _ => rfl) ?_
        · exact congrArg some hact.symm
        intro a b
        show (if a = src ∧ b = dst then (s.flush.inFlight a b).tail else s.flush.inFlight a b) =
          (if a = src ∧ b = dst then (s.net.inFlight a b).tail else s.net.inFlight a b) ++ _
        by_cases hab : a = src ∧ b = dst
        · obtain ⟨rfl, rfl⟩ := hab
          rw [if_pos ⟨rfl, rfl⟩, if_pos ⟨rfl, rfl⟩, flush_inFlight, hq]
          rfl
        · rw [if_neg hab, if_neg hab, flush_inFlight]
    · cases h
  | perform p =>
    left
    rw [step] at h
    split at h
    · cases h
    · rename_i o os hos
      obtain rfl := Option.some.inj h
      apply net_ext
      · exact Function.update_eq_self p s.net.loc
      · intro q
        rw [flush_mk_trace, flush_trace]
        by_cases hq : q = p
        · subst hq
          rw [Net.act_trace_self, Function.update_self, hos, List.map_cons, List.append_assoc]
          rfl
        · rw [Net.act_trace_of_ne _ hq, Function.update_of_ne hq]
      · intro a b
        rw [flush_mk_inFlight, flush_inFlight, act_inFlight]
        by_cases ha : a = p
        · subst ha
          rw [Function.update_self, hos, if_pos rfl, List.append_assoc, ← sentTo_append]
          rfl
        · rw [Function.update_of_ne ha, if_neg ha]
  | stimulate p x =>
    right
    rw [step] at h
    split at h
    · rename_i hnone
      obtain ⟨r, hr, rfl⟩ := Option.map_eq_some_iff.mp h
      refine ⟨.stimulate p x, ?_⟩
      rw [Net.step, flush_loc, hr, Option.map_some]
      exact congrArg some (flush_act (t := s.net) hnone rfl rfl r.1 [] r.2 s.flush rfl
        (fun _ => rfl) fun _ _ => rfl).symm
    · cases h

/-- The smaller steps refine the atomic handlers. -/
theorem Reachable.flush {s : Fine S} (h : s.Reachable) : s.flush.Reachable := by
  refine Machine.Reachable.invariant (I := fun s : Fine S => s.flush.Reachable) h ?_ ?_
  · exact Net.Reachable.init
  · intro t a t' ht ha
    rcases flush_step ha with heq | ⟨b, hb⟩
    · rw [heq]
      exact ht
    · exact ht.step hb

/-- What was sent is what was received, followed by what is in flight. -/
theorem Reachable.fifo {s : Fine S} (h : s.Reachable) (p q : Party) :
    sentTo q (s.net.trace p) = receivedFrom p (s.net.trace q) ++ s.net.inFlight p q := by
  have hfifo := h.flush.fifo p q
  rw [flush_trace, flush_trace, flush_inFlight, sentTo_append, receivedFrom_append,
    receivedFrom_map_out, List.append_nil, ← List.append_assoc] at hfifo
  exact List.append_cancel_right hfifo

/-- A message has been received whether or not its handler has returned. -/
theorem receivedFrom_flush (s : Fine S) (p q : Party) :
    receivedFrom p (s.flush.trace q) = receivedFrom p (s.net.trace q) := by
  rw [flush_trace, receivedFrom_append, receivedFrom_map_out, List.append_nil]

section Rest

variable (I : (p : Party) → S.Local p → Prop)

/-- The end of what a party does in one handler, or unasked, in a state with `I`. -/
def Rest (p : Party) (os : List (Output Party Msg Cmd)) : Prop :=
  os = [] ∨ (∃ l src m, I p l ∧ os <:+ (S.handle p l src m).2) ∨
    ∃ l x r, I p l ∧ S.stimulate p l x = some r ∧ os <:+ r.2

variable {I}

omit [DecidableEq Party] in
private theorem Rest.tail {p : Party} {o : Output Party Msg Cmd}
    {os : List (Output Party Msg Cmd)} (h : Rest I p (o :: os)) : Rest I p os := by
  have hsuffix : os <:+ o :: os := List.suffix_cons o os
  rcases h with h | ⟨l, src, m, hl, h⟩ | ⟨l, x, r, hl, hr, h⟩
  · cases h
  · exact .inr (.inl ⟨l, src, m, hl, hsuffix.trans h⟩)
  · exact .inr (.inr ⟨l, x, r, hl, hr, hsuffix.trans h⟩)

/-- What a party has left to do is the end of something that it began in a state with the
invariant `I` of its local states. -/
theorem Reachable.pending_rest {s : Fine S} (h : s.Reachable) (hinit : ∀ p, I p (S.init p))
    (hhandle : ∀ p l src m, I p l → I p (S.handle p l src m).1)
    (hstim : ∀ p l x r, I p l → S.stimulate p l x = some r → I p r.1) (p : Party) :
    Rest I p (s.pending p) := by
  suffices key : ∀ p, I p (s.net.loc p) ∧ Rest I p (s.pending p) from (key p).2
  refine Machine.Reachable.invariant
    (I := fun s : Fine S => ∀ p, I p (s.net.loc p) ∧ Rest I p (s.pending p)) h ?_ ?_
  · exact fun p => ⟨hinit p, .inl rfl⟩
  · -- only the party that acts changes its state and what it has left to do
    have hupdate : ∀ (t : Fine S) (u : Net S) q l es os,
        (∀ p, I p (t.net.loc p) ∧ Rest I p (t.pending p)) → u.loc = t.net.loc → I q l →
        Rest I q os → ∀ p, I p ((u.act q l es).loc p) ∧
          Rest I p (Function.update t.pending q os p) := by
      intro t u q l es os ht hu hl hos p
      by_cases hp : p = q
      · subst hp
        rw [Net.act_loc_self, Function.update_self]
        exact ⟨hl, hos⟩
      · rw [Net.act_loc_of_ne _ hp, Function.update_of_ne hp, hu]
        exact ht p
    intro t a t' ht ha
    cases a with
    | deliver src dst =>
      rw [step] at ha
      split at ha
      · split at ha
        · cases ha
        · rename_i m rest hq
          obtain rfl := Option.some.inj ha
          have hl := (ht dst).1
          exact hupdate t _ dst _ _ _ ht rfl (hhandle _ _ _ _ hl)
            (.inr (.inl ⟨_, src, m, hl, List.suffix_rfl⟩))
      · cases ha
    | perform q =>
      rw [step] at ha
      split at ha
      · cases ha
      · rename_i o os hos
        obtain rfl := Option.some.inj ha
        apply hupdate t _ q _ _ _ ht rfl (ht q).1
        apply Rest.tail (o := o)
        rw [← hos]
        exact (ht q).2
    | stimulate q x =>
      rw [step] at ha
      split at ha
      · obtain ⟨r, hr, rfl⟩ := Option.map_eq_some_iff.mp ha
        have hl := (ht q).1
        exact hupdate t _ q _ _ _ ht rfl (hstim _ _ _ _ hl hr)
          (.inr (.inr ⟨_, x, r, hl, hr, List.suffix_rfl⟩))
      · cases ha

end Rest

end Fine

end SmeltConsensus.Foundation.FineGrain
