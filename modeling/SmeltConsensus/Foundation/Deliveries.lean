import Mathlib.Data.List.Perm.Basic
import Mathlib.Data.List.Perm.Subperm
import SmeltConsensus.Foundation.Network

/-!
How many messages a schedule delivers. On every channel at most as many are delivered as
were sent, so a bound on what the parties send is a bound on the length of a run.
-/

set_option autoImplicit false
set_option relaxedAutoImplicit false

namespace SmeltConsensus.Foundation.Deliveries

open SmeltConsensus.Foundation.Network

variable {Party Msg Cmd : Type} {S : System Party Msg Cmd}

/-- The channel of a delivery. -/
def channelOf : Action S → Option (Party × Party)
  | .deliver src dst => some (src, dst)
  | .stimulate _ _ => none

/-- The party of a stimulus. -/
def stimulatedOf : Action S → Option Party
  | .deliver _ _ => none
  | .stimulate p _ => some p

/-- The channels of the deliveries of a schedule. -/
def delivered (as : List (Action S)) : List (Party × Party) := as.filterMap channelOf

/-- The parties of its stimuli. -/
def stimulated (as : List (Action S)) : List Party := as.filterMap stimulatedOf

/-- The channels of the messages that `p` sent. -/
def channels (p : Party) (t : List (Event Party Msg Cmd)) : List (Party × Party) :=
  (sends t).map fun x => (p, x.1)

theorem length_channels (p : Party) (t : List (Event Party Msg Cmd)) :
    (channels p t).length = (sends t).length := List.length_map _

/-- Every choice of a schedule is a delivery or a stimulus. -/
theorem length_delivered_add_stimulated (as : List (Action S)) :
    (delivered as).length + (stimulated as).length = as.length := by
  induction as with
  | nil => rfl
  | cons a as ih =>
    cases a with
    | deliver src dst =>
      have hd : delivered (.deliver src dst :: as) = (src, dst) :: delivered as := rfl
      have hs : stimulated (.deliver src dst :: as) = stimulated as := rfl
      rw [hd, hs, List.length_cons, List.length_cons]
      omega
    | stimulate p x =>
      have hd : delivered (.stimulate p x :: as) = delivered as := rfl
      have hs : stimulated (.stimulate p x :: as) = p :: stimulated as := rfl
      rw [hd, hs, List.length_cons, List.length_cons]
      omega

variable [DecidableEq Party]

theorem count_channels (p q r : Party) (t : List (Event Party Msg Cmd)) :
    (channels r t).count (p, q) = if r = p then (sentTo q t).length else 0 := by
  rw [channels, sentTo_eq_sends, List.length_map]
  generalize sends t = xs
  induction xs with
  | nil =>
    split <;> rfl
  | cons x xs ih =>
    rw [List.map_cons, List.count_cons, ih, List.filter_cons]
    by_cases hr : r = p
    · by_cases hq : x.1 = q <;> simp [hr, hq]
    · simp [hr]

/-- What a delivery adds to the history of its receiver. -/
theorem trace_deliver {s s' : Net S} {src dst : Party} (h : s.step (.deliver src dst) = some s') :
    ∃ (m : Msg) (os : List (Output Party Msg Cmd)), s'.trace dst = s.trace dst ++ .recv src m :: os.map .out ∧
      ∀ q, q ≠ dst → s'.trace q = s.trace q := by
  rw [Net.step] at h
  split at h
  case isFalse => cases h
  case isTrue =>
    split at h
    case h_1 => cases h
    case h_2 m rest _ =>
      obtain rfl := Option.some.inj h
      refine ⟨m, _, Net.act_trace_self _ _ _ _, fun q hq => ?_⟩
      rw [Net.act_trace_of_ne _ hq, Net.pop_trace]

/-- A run receives on each channel what it delivers. -/
theorem count_delivered {s s' : Net S} {as : List (Action S)} (hrun : s.run as = some s')
    (p q : Party) :
    (receivedFrom p (s'.trace q)).length =
      (receivedFrom p (s.trace q)).length + (delivered as).count (p, q) := by
  induction as generalizing s with
  | nil =>
    obtain rfl := Option.some.inj hrun
    rfl
  | cons a as ih =>
    obtain ⟨t, ht, hrun⟩ := Option.bind_eq_some_iff.mp hrun
    rw [ih hrun]
    cases a with
    | deliver src dst =>
      have hcons : delivered (.deliver src dst :: as) = (src, dst) :: delivered as := rfl
      obtain ⟨m, os, hdst, hother⟩ := trace_deliver ht
      rw [hcons, List.count_cons]
      by_cases hq : q = dst
      · subst hq
        by_cases hp : src = p
        · simp [hdst, hp]
          omega
        · simp [hdst, hp]
      · rw [hother q hq]
        simp [Ne.symm hq]
    | stimulate r x =>
      have hcons : delivered (.stimulate r x :: as) = delivered as := rfl
      obtain ⟨l, -, rfl⟩ := Option.map_eq_some_iff.mp ht
      rw [hcons]
      by_cases hq : q = r
      · subst hq
        simp
      · rw [Net.act_trace_of_ne _ hq]

section Bound

variable {s : Net S} {as : List (Action S)} {issued : List (Party × Party)}

theorem count_delivered_initial (hrun : (Net.initial S).run as = some s) (p q : Party) :
    (delivered as).count (p, q) = (receivedFrom p (s.trace q)).length := by
  rw [count_delivered hrun, Net.initial, receivedFrom_nil, List.length_nil, Nat.zero_add]

/-- What is delivered was sent. -/
theorem delivered_subperm (hrun : (Net.initial S).run as = some s)
    (hissued : ∀ p q, (sentTo q (s.trace p)).length ≤ issued.count (p, q)) :
    (delivered as).Subperm issued := by
  have hreach : s.Reachable := Net.Reachable.init.run hrun
  rw [List.subperm_ext_iff]
  rintro ⟨p, q⟩ -
  rw [count_delivered_initial hrun]
  exact Nat.le_trans (hreach.receivedFrom_prefix p q).length_le (hissued p q)

/-- With nothing in flight, everything that was sent is delivered. -/
theorem delivered_perm (hrun : (Net.initial S).run as = some s) (hq : s.Quiescent)
    (hissued : ∀ p q, (sentTo q (s.trace p)).length = issued.count (p, q)) :
    (delivered as).Perm issued := by
  have hreach : s.Reachable := Net.Reachable.init.run hrun
  rw [List.perm_iff_count]
  rintro ⟨p, q⟩
  rw [count_delivered_initial hrun, hreach.received_eq_sent (hq p q), hissued]

end Bound

end SmeltConsensus.Foundation.Deliveries
