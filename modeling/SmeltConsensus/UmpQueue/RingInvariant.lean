import SmeltConsensus.UmpQueue.Counts

/-!
What holds of the two rings along every run, whatever the ends call and however their
stores are delayed, as long as the sequence numbers can tell a full ring from an empty one.
-/

set_option autoImplicit false
set_option relaxedAutoImplicit false

namespace SmeltConsensus.UmpQueue.RingInvariant

open SmeltConsensus.Foundation.Machine (Reachable run)
open SmeltConsensus.Foundation.StoreBuffer
open SmeltConsensus.UmpQueue.Channel
open SmeltConsensus.UmpQueue.Endpoint
open SmeltConsensus.UmpQueue.Counts

/-- The ring on which an end sends, with so many messages in memory. -/
def Ring (cfg : Config) (s : State) (x : Bool) (visible : Nat) : Prop :=
  Published (Loc.slot x) (cfg.bufmsgs x) 0 s.mem (s.buffer x)
    (entries (cfg.bufmsgs x) (s.ends x).sent) (fill (s.ends x).pc) (freed (s.ends (!x))) visible

/-- What holds along every run. -/
structure Invariant (cfg : Config) (s : State) : Prop where
  ends : ∀ x, EndOk (cfg.bufmsgs x) (cfg.bufmsgs (!x)) x (s.ends x) (s.ends (!x))
  owns : ∀ x, ∀ st ∈ s.buffer x, ∀ i w, st.1 ≠ .slot (!x) i w
  rings : ∀ x, ∃ visible, (s.ends (!x)).taken ≤ visible ∧ Ring cfg s x visible

theorem slot_injective (x : Bool) (i w i' w' : Nat) (h : Loc.slot x i w = Loc.slot x i' w') :
    i = i' ∧ w = w' := by
  injection h with _ hi hw
  exact ⟨hi, hw⟩

theorem slot_ne_peer (x : Bool) (i w i' w' : Nat) : Loc.slot x i w ≠ Loc.slot (!x) i' w' := by
  intro h
  injection h with hx
  exact absurd hx.symm (Bool.not_ne_self x)

theorem forall_sides {P : Bool → Prop} (x : Bool) (hx : P x) (hpeer : P (!x)) : ∀ y, P y := by
  intro y
  rcases Bool.eq_or_eq_not y x with rfl | rfl
  · exact hx
  · exact hpeer

theorem setEnd_self (s : State) (x : Bool) (e : End) : (setEnd s x e).ends x = e :=
  Function.update_self ..

theorem setEnd_peer (s : State) (x : Bool) (e : End) : (setEnd s x e).ends (!x) = s.ends (!x) :=
  Function.update_of_ne (Bool.not_ne_self x) ..

theorem setEnd_of_peer (s : State) (x : Bool) (e : End) : (setEnd s (!x) e).ends x = s.ends x :=
  Function.update_of_ne (Bool.not_ne_self x).symm ..

theorem invariant_init (cfg : Config) (garbage : Loc → Nat) : Invariant cfg (init cfg garbage) := by
  have hplace : ∀ n, 0 < n → (⟨0, n, true⟩ : UmpPos) = place n 0 := by
    intro n hn
    rw [place, Nat.zero_mod, epochOf_first hn]
  constructor
  · intro x
    constructor
    · exact hplace _ (cfg.pos x)
    · exact hplace _ (cfg.pos (!x))
    · rfl
    · rfl
    · rfl
    · rfl
    · rfl
    · exact Nat.le_refl _
    · exact Nat.le_refl _
    · exact Nat.zero_le _
    · exact False.elim
    · exact fun q hq => absurd hq List.not_mem_nil
    · exact .nil
    · exact fun q hq => absurd hq List.not_mem_nil
    · exact True.intro
    · exact .nil
  · exact fun x st hst => absurd hst List.not_mem_nil
  · exact fun x => ⟨0, Nat.le_refl _, published_init _ _ fun i => rfl⟩

section Reads

variable {cfg : Config} {s : State} {x : Bool}

/-- The ring from which an end receives. -/
theorem Invariant.incoming (h : Invariant cfg s) (x : Bool) :
    ∃ visible, (s.ends x).taken ≤ visible ∧ Ring cfg s (!x) visible := by
  have hring := h.rings (!x)
  rw [Bool.not_not] at hring
  exact hring

/-- No end has stores waiting for the ring of its peer. -/
theorem Invariant.view (h : Invariant cfg s) (i w : Nat) :
    settle s.mem (s.buffer x) (.slot (!x) i w) = s.mem (.slot (!x) i w) :=
  settle_untouched fun st hst => h.owns x st hst i w

theorem Ring.visible_le {visible : Nat} (h : Ring cfg s x visible) :
    visible ≤ (s.ends x).sent.length := by
  have hle := h.pending.le
  rw [entries_length] at hle
  exact hle

theorem Invariant.taken_le (h : Invariant cfg s) (x : Bool) :
    (s.ends x).taken ≤ (s.ends (!x)).sent.length := by
  obtain ⟨visible, htaken, hring⟩ := h.incoming x
  exact Nat.le_trans htaken hring.visible_le

/-- An end sees a message exactly when there is one in memory that it has not taken. -/
theorem Invariant.canRecv_iff (h : Invariant cfg s) {visible : Nat}
    (hring : Ring cfg s (!x) visible) (htaken : (s.ends x).taken ≤ visible) :
    canRecv x (settle s.mem (s.buffer x)) (s.ends x) = true ↔ (s.ends x).taken < visible := by
  have hn := cfg.pos (!x)
  have hend := h.ends x
  have hpeer := h.ends (!x)
  have hlap := hring.lap
  have hle := hring.pending.le
  rw [Bool.not_not] at hlap
  have hfreed : freed (s.ends x) ≤ (s.ends x).taken := Nat.sub_le _ _
  rw [canRecv, h.view, umpRxchanCanRecv, hend.rx, beq_iff_eq]
  dsimp only [place]
  constructor
  · intro heq
    by_contra hnot
    -- with all messages taken, the word there has the epoch of the lap before
    obtain rfl : visible = (s.ends x).taken := by omega
    rcases hring.next_control hn with ⟨hlt, hblank⟩ | ⟨k, ws, hk, hentry⟩
    · rw [hblank, epochOf_first hlt] at heq
      cases heq
    · have hsent : k < (s.ends (!x)).sent.length := by
        rw [entries_length] at hle
        omega
      have hget := List.getElem?_eq_getElem hsent
      have hword := (Prod.mk.inj (Option.some.inj (hentry.symm.trans (entries_getElem? hget)))).1
      have htag := hpeer.tags _ (List.getElem_mem hsent)
      rw [hword, control_epoch htag, hk, epochOf_lap hn] at heq
      exact absurd heq (Bool.not_ne_self _).symm
  · intro hlt
    have hsent : (s.ends x).taken < (s.ends (!x)).sent.length := by
      rw [entries_length] at hle
      omega
    have hget := List.getElem?_eq_getElem hsent
    rw [hring.control hlt (by omega) (entries_getElem? hget)]
    exact control_epoch (hpeer.tags _ (List.getElem_mem hsent))

end Reads

section Steps

variable {cfg : Config} {s s' : State} {x : Bool}

/-- An end moves, without sending and without storing a word of its next message. -/
theorem Invariant.move {e : End} (h : Invariant cfg s)
    (hend : EndOk (cfg.bufmsgs x) (cfg.bufmsgs (!x)) x e (s.ends (!x)))
    (hsent : e.sent = (s.ends x).sent) (hfill : fill e.pc = fill (s.ends x).pc)
    (hfreed : freed (s.ends x) ≤ freed e)
    (htaken : ∀ visible, (s.ends x).taken ≤ visible → Ring cfg s (!x) visible →
      e.taken ≤ visible) : Invariant cfg (setEnd s x e) := by
  constructor
  · refine forall_sides x ?_ ?_
    · rw [setEnd_self, setEnd_peer]
      exact hend
    · rw [setEnd_peer, Bool.not_not, setEnd_self]
      have hpeer := h.ends (!x)
      rw [Bool.not_not] at hpeer
      exact hpeer.congr_peer hsent
  · exact h.owns
  · refine forall_sides x ?_ ?_
    · unfold Ring
      rw [setEnd_self, setEnd_peer, hsent, hfill]
      exact h.rings x
    · obtain ⟨visible, hle, hring⟩ := h.incoming x
      unfold Ring at hring ⊢
      rw [setEnd_peer, Bool.not_not, setEnd_self]
      rw [Bool.not_not] at hring
      have hle' := htaken visible hle (by unfold Ring; rw [Bool.not_not]; exact hring)
      exact ⟨visible, hle', hring.free hfreed (Nat.le_trans (Nat.sub_le _ _) hle')⟩

/-- Effects that leave the rings alone. -/
def Effect.Quiet : Effect → Prop
  | .store l _ => l = .wakeState
  | .swap l _ => l = .wakeState
  | _ => True

theorem Invariant.effect {eff : Effect} (h : Invariant cfg s) (hquiet : Effect.Quiet eff)
    (hs : perform s x eff = some s') : Invariant cfg s' := by
  have hwake : ∀ y i w, Loc.wakeState ≠ Loc.slot y i w := fun y i w => Loc.noConfusion
  cases eff with
  | none =>
    obtain rfl := Option.some.inj hs
    exact h
  | store l v =>
    obtain rfl : l = .wakeState := hquiet
    obtain rfl := Option.some.inj hs
    refine ⟨h.ends, ?_, ?_⟩
    · refine forall_sides x ?_ ?_
      · intro st hst i w
        dsimp only at hst
        rw [Function.update_self] at hst
        rcases List.mem_append.mp hst with hst | hst
        · exact h.owns x st hst i w
        · obtain rfl := List.mem_singleton.mp hst
          exact hwake _ _ _
      · intro st hst
        dsimp only at hst
        rw [Function.update_of_ne (Bool.not_ne_self x)] at hst
        exact h.owns (!x) st hst
    · refine forall_sides x ?_ ?_
      · obtain ⟨visible, hle, hring⟩ := h.rings x
        refine ⟨visible, hle, ?_⟩
        unfold Ring
        dsimp only
        rw [Function.update_self]
        exact hring.store_other _ (hwake x)
      · unfold Ring
        dsimp only
        rw [Function.update_of_ne (Bool.not_ne_self x)]
        exact h.rings (!x)
  | fence =>
    obtain rfl := Option.some.inj (Option.ite_none_right_eq_some.mp hs).2
    exact h
  | swap l v =>
    obtain rfl : l = .wakeState := hquiet
    obtain rfl := Option.some.inj (Option.ite_none_right_eq_some.mp hs).2
    refine ⟨h.ends, h.owns, ?_⟩
    intro y
    obtain ⟨visible, hle, hring⟩ := h.rings y
    refine ⟨visible, hle, hring.mem_other ?_⟩
    intro i w
    exact Function.update_of_ne (hwake y i w).symm v s.mem
  | signal =>
    obtain rfl := Option.some.inj (Option.ite_none_right_eq_some.mp hs).2
    exact ⟨h.ends, h.owns, h.rings⟩
  | await =>
    obtain rfl := Option.some.inj (Option.ite_none_right_eq_some.mp hs).2
    exact ⟨h.ends, h.owns, h.rings⟩

/-- The oldest waiting store of a core reaches memory. -/
theorem Invariant.drain {l : Loc} {v : Nat} {rest : List (Loc × Nat)} (h : Invariant cfg s)
    (hbuf : s.buffer x = (l, v) :: rest) :
    Invariant cfg { s with
      mem := Function.update s.mem l v
      buffer := Function.update s.buffer x rest } := by
  have howns := h.owns x
  rw [hbuf] at howns
  refine ⟨h.ends, ?_, ?_⟩
  · refine forall_sides x ?_ ?_
    · intro st hst
      dsimp only at hst
      rw [Function.update_self] at hst
      exact howns st (List.mem_cons_of_mem _ hst)
    · intro st hst
      dsimp only at hst
      rw [Function.update_of_ne (Bool.not_ne_self x)] at hst
      exact h.owns (!x) st hst
  · refine forall_sides x ?_ ?_
    · obtain ⟨visible, hle, hring⟩ := h.rings x
      unfold Ring at hring
      rw [hbuf] at hring
      obtain ⟨visible', hmore, hring'⟩ := hring.flush (slot_injective x)
      refine ⟨visible', Nat.le_trans hle hmore, ?_⟩
      unfold Ring
      dsimp only
      rw [Function.update_self]
      exact hring'
    · obtain ⟨visible, hle, hring⟩ := h.rings (!x)
      refine ⟨visible, hle, ?_⟩
      unfold Ring
      dsimp only
      rw [Function.update_of_ne (Bool.not_ne_self x)]
      exact hring.mem_other fun i w =>
        Function.update_of_ne (howns (l, v) List.mem_cons_self i w).symm _ _

/-- Messages that the peer has acknowledged leave their slots free. -/
theorem Invariant.acked_le_freed (h : Invariant cfg s) (x : Bool) :
    acked (s.ends (!x)).sent (opened (s.ends x)) ≤ freed (s.ends (!x)) :=
  acked_le (h.ends (!x)).given

/-- An end that has seen room in its ring has room in it. -/
theorem Invariant.room (h : Invariant cfg s)
    (hroom : (s.ends x).sent.length <
      acked (s.ends (!x)).sent (opened (s.ends x)) + cfg.bufmsgs x) :
    (entries (cfg.bufmsgs x) (s.ends x).sent).length < freed (s.ends (!x)) + cfg.bufmsgs x := by
  have hle := h.acked_le_freed x
  rw [entries_length]
  omega

/-- An end stores a word of its ring and moves on. -/
theorem Invariant.storeSlot {e : End} {i w v : Nat} (h : Invariant cfg s)
    (hend : EndOk (cfg.bufmsgs x) (cfg.bufmsgs (!x)) x e (s.ends (!x)))
    (hpeer : EndOk (cfg.bufmsgs (!x)) (cfg.bufmsgs x) (!x) (s.ends (!x)) e)
    (hfreed : freed e = freed (s.ends x)) (htaken : e.taken = (s.ends x).taken)
    (hring : ∀ visible, Ring cfg s x visible →
      Published (Loc.slot x) (cfg.bufmsgs x) 0 s.mem (s.buffer x ++ [(.slot x i w, v)])
        (entries (cfg.bufmsgs x) e.sent) (fill e.pc) (freed (s.ends (!x))) visible)
    (hs : perform (setEnd s x e) x (.store (.slot x i w) v) = some s') :
    Invariant cfg s' := by
  obtain rfl := Option.some.inj hs
  refine ⟨?_, ?_, ?_⟩
  · refine forall_sides x ?_ ?_
    · dsimp only
      rw [setEnd_self, setEnd_peer]
      exact hend
    · dsimp only
      rw [setEnd_peer, Bool.not_not, setEnd_self]
      exact hpeer
  · refine forall_sides x ?_ ?_
    · intro st hst i' w'
      dsimp only at hst
      rw [Function.update_self] at hst
      rcases List.mem_append.mp hst with hst | hst
      · exact h.owns x st hst i' w'
      · obtain rfl := List.mem_singleton.mp hst
        exact slot_ne_peer x i w i' w'
    · intro st hst
      dsimp only at hst
      rw [Function.update_of_ne (Bool.not_ne_self x)] at hst
      exact h.owns (!x) st hst
  · refine forall_sides x ?_ ?_
    · obtain ⟨visible, hle, hold⟩ := h.rings x
      refine ⟨visible, ?_, ?_⟩
      · dsimp only
        rw [setEnd_peer]
        exact hle
      · unfold Ring
        dsimp only
        rw [setEnd_self, setEnd_peer, Function.update_self]
        exact hring visible hold
    · obtain ⟨visible, hle, hold⟩ := h.incoming x
      refine ⟨visible, ?_, ?_⟩
      · dsimp only
        rw [Bool.not_not, setEnd_self, htaken]
        exact hle
      · unfold Ring at hold ⊢
        dsimp only
        rw [setEnd_peer, Bool.not_not, setEnd_self, hfreed,
          Function.update_of_ne (Bool.not_ne_self x)]
        rw [Bool.not_not] at hold
        exact hold

/-- A word of the payload. -/
theorem Invariant.storeWord {vals : List Nat} {k v : Nat} (h : Invariant cfg s)
    (hpc : (s.ends x).pc = .fill vals k) (hk : vals[k]? = some v)
    (hs : perform (setEnd s x { s.ends x with pc := .fill vals (k + 1) }) x
      (.store (.slot x (s.ends x).chan.tx.pos (k + 1)) v) = some s') : Invariant cfg s' := by
  have hend := h.ends x
  have hlt := (List.getElem?_eq_some_iff.mp hk).1
  have hroom := hend.room (by rw [hpc]; trivial)
  have hnew : EndOk (cfg.bufmsgs x) (cfg.bufmsgs (!x)) x
      { s.ends x with pc := .fill vals (k + 1) } (s.ends (!x)) := by
    apply hend.setPc
    · rw [hpc]
      rfl
    · rw [hpc]
      rfl
    · rw [hpc]
      rfl
    · exact fun _ => hroom
    · exact hlt
  have hpeer := h.ends (!x)
  rw [Bool.not_not] at hpeer
  apply h.storeSlot hnew (hpeer.congr_peer rfl) _ rfl _ hs
  · rw [freed, freed, hpc]
    rfl
  · intro visible hring
    have hword := hring.store_word (slot_injective x) (h.room hroom) v
    rw [entries_length, hpc] at hword
    have hpos : (s.ends x).chan.tx.pos = (s.ends x).sent.length % cfg.bufmsgs x := by
      rw [hend.tx]
      rfl
    have hlen : (fill (.fill vals k)).length = k := by
      rw [fill, List.length_take, Nat.min_eq_left (Nat.le_of_lt hlt)]
    have hfill : fill (.fill vals k) ++ [v] = vals.take (k + 1) := by
      rw [fill, List.take_add_one, hk]
      rfl
    rw [hpos]
    rw [hlen, hfill] at hword
    exact hword

/-- The control word: the message is sent. -/
theorem Invariant.send {tag : Nat} {vals : List Nat} (h : Invariant cfg s)
    (hheld : held (s.ends x).pc = 0) (htag : tag ≤ umpAckMsgtag)
    (hfill : fill (s.ends x).pc = vals)
    (hroom : (s.ends x).sent.length <
      acked (s.ends (!x)).sent (opened (s.ends x)) + cfg.bufmsgs x)
    (hs : perform (setEnd s x (submit x (s.ends x) tag vals).1) x
      (submit x (s.ends x) tag vals).2 = some s') : Invariant cfg s' := by
  have hend := h.ends x
  have hnew := @EndOk.submit _ _ _ _ _ tag vals hend (cfg.pos x) (cfg.le x) hheld htag hroom
  have hpeer := h.ends (!x)
  rw [Bool.not_not] at hpeer
  have htaken := h.taken_le (!x)
  rw [Bool.not_not] at htaken
  apply h.storeSlot hnew (hpeer.peer_push htaken rfl) _ rfl _ hs
  · change (s.ends x).taken - 0 = (s.ends x).taken - _
    rw [hheld]
  · intro visible hring
    have hcontrol : umpChanTxControl (s.ends x).chan tag =
        control (cfg.bufmsgs x) (s.ends x).sent.length ⟨tag, (s.ends x).taken, vals⟩ := by
      rw [umpChanTxControl, hend.tx, hend.seq_id, (opened_of_held hheld).2.1]
      rfl
    have hpos : (s.ends x).chan.tx.pos = (s.ends x).sent.length % cfg.bufmsgs x := by
      rw [hend.tx]
      rfl
    have hpublish := hring.publish (slot_injective x) (h.room hroom)
      (umpChanTxControl (s.ends x).chan tag)
    rw [entries_length, hfill] at hpublish
    change Published _ _ _ _ (_ ++ [(Loc.slot x (s.ends x).chan.tx.pos 0, _)])
      (entries _ ((s.ends x).sent ++ [⟨tag, (s.ends x).taken, vals⟩])) [] _ _
    rw [hpos, entries_push, ← hcontrol]
    exact hpublish

/-- An end has no message in hand, has stored nothing and relies on no room. -/
structure Calm (pc : Pc) : Prop where
  held : held pc = 0
  fill : fill pc = []
  at_slot : ∀ m e p, AtSlot m e p pc

theorem Calm.uncounted {pc : Pc} (h : Calm pc) : uncounted pc = 0 :=
  Nat.le_zero.mp (h.held ▸ uncounted_le pc)

theorem Calm.unopened {pc : Pc} (h : Calm pc) : unopened pc = 0 :=
  Nat.le_zero.mp (h.uncounted ▸ unopened_le pc)

theorem calm_start (op : Op) : Calm (start op) ∧ ¬ roomy (start op) := by
  cases op <;> exact ⟨⟨rfl, rfl, fun _ _ _ => trivial⟩, id⟩

theorem calm_restart (call : Call) : Calm (restart call) ∧ ¬ roomy (restart call) := by
  cases call <;> exact ⟨⟨rfl, rfl, fun _ _ _ => trivial⟩, id⟩

theorem calm_resume (call : Call) : Calm (resume call) ∧ ¬ roomy (resume call) := by
  cases call <;> exact ⟨⟨rfl, rfl, fun _ _ _ => trivial⟩, id⟩

theorem calm_blocked (call : Call) : Calm (blocked call) ∧ ¬ roomy (blocked call) := by
  cases call with
  | enqueue vals mode => cases mode <;> exact ⟨⟨rfl, rfl, fun _ _ _ => trivial⟩, id⟩
  | retry vals => exact ⟨⟨rfl, rfl, fun _ _ _ => trivial⟩, id⟩
  | dequeue words mode => cases mode <;> exact ⟨⟨rfl, rfl, fun _ _ _ => trivial⟩, id⟩

theorem calm_granted (call : Call) : Calm (granted call) := by
  cases call with
  | enqueue vals mode =>
    refine ⟨?_, ?_, fun _ _ _ => ?_⟩ <;> cases mode <;>
      first | rfl | exact True.intro | exact Nat.zero_le _
  | retry vals => exact ⟨rfl, rfl, fun _ _ _ => Nat.zero_le _⟩
  | dequeue words mode => exact ⟨rfl, rfl, fun _ _ _ => trivial⟩

/-- The loop of `can_enqueue` goes on only where there is room. -/
theorem calm_rxNull (c : UmpChan) (call : Call) :
    Calm (rxNull c call) ∧ (roomy (rxNull c call) → umpChanCanSend c = true) := by
  have hack : Calm (afterAck c call) ∧ (roomy (afterAck c call) → umpChanCanSend c = true) := by
    unfold afterAck
    split
    case isTrue hcan => exact ⟨⟨rfl, rfl, fun _ _ _ => trivial⟩, fun _ => hcan⟩
    case isFalse => exact ⟨⟨rfl, rfl, fun _ _ _ => trivial⟩, False.elim⟩
  unfold rxNull
  split
  · exact ⟨(calm_blocked call).1, fun hr => absurd hr (calm_blocked call).2⟩
  · exact hack

/-- Only an operation that is calm goes on without taking, reading or storing anything. -/
theorem calm_of_turn {view : Loc → Nat} {e : End} {pc pc' : Pc} {eff : Effect}
    (h : Turn x view e pc pc' eff) : Calm pc := by
  cases h <;> exact ⟨rfl, rfl, fun _ _ _ => True.intro⟩

/-- It stays calm, and relies on room only where there is room. -/
theorem calm_turn {view : Loc → Nat} {e : End} {pc pc' : Pc} {eff : Effect}
    (h : Turn x view e pc pc' eff) :
    Calm pc' ∧ Effect.Quiet eff ∧ (roomy pc' → umpChanCanSend e.chan = true ∨ roomy pc) := by
  have hcalm : ∀ {eff : Effect} {pc'}, Calm pc' ∧ ¬ roomy pc' → Effect.Quiet eff →
      Calm pc' ∧ Effect.Quiet eff ∧ (roomy pc' → umpChanCanSend e.chan = true ∨ roomy pc) :=
    fun hnew hquiet => ⟨hnew.1, hquiet, fun hr => absurd hr hnew.2⟩
  cases h with
  | @granted call hroom => exact ⟨calm_granted call, trivial, fun _ => .inl hroom⟩
  | @enough call => exact ⟨calm_granted call, trivial, fun _ => .inr trivial⟩
  | @gone call =>
    obtain ⟨hnew, hroom⟩ := calm_rxNull e.chan call
    exact ⟨hnew, trivial, fun hr => .inl (hroom hr)⟩
  | @blocked call => exact hcalm (calm_blocked call) trivial
  | @again call => exact hcalm (calm_restart call) trivial
  | @arrived call => exact hcalm (calm_restart call) trivial
  | @refused call => exact hcalm (calm_restart call) trivial
  | @takenBack call => exact hcalm (calm_restart call) rfl
  | @woken call => exact hcalm (calm_resume call) rfl
  | swapped => exact hcalm ⟨⟨rfl, rfl, fun _ _ _ => trivial⟩, id⟩ rfl
  | _ => exact hcalm ⟨⟨rfl, rfl, fun _ _ _ => trivial⟩, id⟩ trivial

theorem Invariant.calm {pc : Pc} {eff : Effect} (h : Invariant cfg s)
    (hcalm : Calm (s.ends x).pc) (hpc : Calm pc)
    (hroom : roomy pc → (s.ends x).sent.length <
      acked (s.ends (!x)).sent (opened (s.ends x)) + cfg.bufmsgs x)
    (hs : perform (setEnd s x { s.ends x with pc := pc }) x eff = some s')
    (hquiet : Effect.Quiet eff) : Invariant cfg s' := by
  have hmove : Invariant cfg (setEnd s x { s.ends x with pc := pc }) := by
    refine h.move ?_ rfl ?_ ?_ fun _ hle _ => hle
    · apply (h.ends x).setPc
      · rw [hpc.held, hcalm.held]
      · rw [hpc.unopened, hcalm.unopened]
      · rw [hpc.uncounted, hcalm.uncounted]
      · exact hroom
      · exact hpc.at_slot _ _ _
    · rw [hcalm.fill]
      exact hpc.fill
    · unfold freed
      rw [hpc.held, hcalm.held]
  exact hmove.effect hquiet hs

/-- An operation starts. -/
theorem Invariant.goto {pc : Pc} (h : Invariant cfg s) (hcalm : Calm (s.ends x).pc)
    (hpc : Calm pc ∧ ¬ roomy pc) : Invariant cfg (setEnd s x { s.ends x with pc := pc }) := by
  have hs : perform (setEnd s x { s.ends x with pc := pc }) x .none = some _ := rfl
  exact h.calm hcalm hpc.1 (fun hr => absurd hr hpc.2) hs trivial

/-- The control word of the message in hand stays in its slot. -/
theorem Invariant.control {slot : Nat} (h : Invariant cfg s) (hheld : held (s.ends x).pc = 1)
    (hslot : slot = ((s.ends x).taken - 1) % cfg.bufmsgs (!x)) :
    ∃ q, (s.ends (!x)).sent[(s.ends x).taken - 1]? = some q ∧ q.tag ≤ umpAckMsgtag ∧
      q.acked ≤ (s.ends x).sent.length ∧
      settle s.mem (s.buffer x) (.slot (!x) slot 0) =
        Counts.control (cfg.bufmsgs (!x)) ((s.ends x).taken - 1) q := by
  obtain ⟨visible, htaken, hring⟩ := h.incoming x
  obtain ⟨k, hk⟩ := (h.ends x).taken_eq hheld
  have hvis := hring.visible_le
  have hlt : (s.ends x).taken - 1 < (s.ends (!x)).sent.length := by omega
  have hget := List.getElem?_eq_getElem hlt
  have hpeer := h.ends (!x)
  rw [Bool.not_not] at hpeer
  have hmem := List.getElem_mem hlt
  have hlap := hring.lap
  have hle := hring.pending.le
  rw [Bool.not_not] at hlap
  have hfreed : freed (s.ends x) = (s.ends x).taken - 1 := by rw [freed, hheld]
  refine ⟨_, hget, hpeer.tags _ hmem, ?_, ?_⟩
  · have hgiven := hpeer.given _ hmem
    have hless := h.taken_le (!x)
    have hsub : freed (s.ends (!x)) ≤ (s.ends (!x)).taken := Nat.sub_le _ _
    rw [Bool.not_not] at hless
    omega
  · rw [h.view, hslot, hring.control (by omega) (by omega) (entries_getElem? hget)]

/-- A word of the message in hand. -/
theorem Invariant.payload {words slot : Nat} {got : List Nat} (h : Invariant cfg s)
    (hpc : (s.ends x).pc = .read words slot got) {q : Packet} {v : Nat}
    (hq : (s.ends (!x)).sent[(s.ends x).taken - 1]? = some q)
    (hv : q.vals[got.length]? = some v) :
    settle s.mem (s.buffer x) (.slot (!x) slot (got.length + 1)) = v := by
  obtain ⟨visible, htaken, hring⟩ := h.incoming x
  obtain ⟨k, hk⟩ := (h.ends x).taken_eq (by rw [hpc]; rfl)
  have hslot := (h.ends x).at_slot
  rw [hpc] at hslot
  have hfreed : freed (s.ends x) = (s.ends x).taken - 1 := by
    rw [freed, hpc]
    rfl
  rw [h.view, hslot.1]
  apply hring.read (slot_injective (!x)) _ (by omega) (entries_getElem? hq) hv
  rw [Bool.not_not, hfreed]

section Act

variable {e : End} {eff : Effect} {call : Call} {slot : Nat}

/-- An operation goes on elsewhere. -/
theorem Invariant.turn {pc : Pc} (h : Invariant cfg s) (hn : ∀ y, cfg.bufmsgs y < 2 ^ 16 - 1)
    (hturn : Turn x (settle s.mem (s.buffer x)) (s.ends x) (s.ends x).pc pc eff)
    (hs : perform (setEnd s x { s.ends x with pc := pc }) x eff = some s') : Invariant cfg s' := by
  obtain ⟨hcalm, hquiet, hroom⟩ := calm_turn hturn
  have hcan := (h.ends x).canSend_iff (hn x)
  refine h.calm (calm_of_turn hturn) hcalm (fun hr => ?_) hs hquiet
  rcases hroom hr with hyes | hold
  · exact hcan.mp hyes
  · exact (h.ends x).room hold

/-- `ump_rxchan_recv` finds a message. -/
theorem Invariant.act_take (h : Invariant cfg s) (hpc : (s.ends x).pc = .recv call)
    (hrecv : canRecv x (settle s.mem (s.buffer x)) (s.ends x) = true) :
    Invariant cfg (setEnd s x { s.ends x with
      chan := umpRxchanRecv (s.ends x).chan
      pc := .header call (s.ends x).chan.rx.pos
      taken := (s.ends x).taken + 1 }) := by
  have hheld : held (s.ends x).pc = 0 := by
    rw [hpc]
    rfl
  refine h.move ((h.ends x).take call (cfg.pos (!x)) (cfg.le (!x)) hheld) rfl ?_ ?_ ?_
  · rw [hpc]
    rfl
  · unfold freed
    rw [hheld]
    exact Nat.le_refl _
  · intro visible hle hring
    exact (h.canRecv_iff hring hle).mp hrecv

/-- The first access to the header of the message in hand. -/
theorem Invariant.act_header (h : Invariant cfg s) (hpc : (s.ends x).pc = .header call slot) :
    Invariant cfg (setEnd s x { s.ends x with
      chan := umpChanRxAckId (s.ends x).chan (settle s.mem (s.buffer x) (.slot (!x) slot 0))
      pc := .tag call slot }) := by
  have hslot := (h.ends x).at_slot
  rw [hpc] at hslot
  obtain ⟨q, hq, htag, hacked, hword⟩ := h.control (by rw [hpc]; rfl) hslot
  rw [hword, umpChanRxAckId_control _ htag]
  refine h.move ((h.ends x).open hpc hq (h.ends (!x)).sorted hacked) rfl ?_ ?_ fun _ hle _ => hle
  · rw [hpc]
    rfl
  · unfold freed
    rw [hpc]
    exact Nat.le_refl _

/-- The second access tells what becomes of the message. -/
theorem Invariant.act_tag (h : Invariant cfg s) (hn : ∀ y, cfg.bufmsgs y < 2 ^ 16 - 1)
    (hpc : (s.ends x).pc = .tag call slot) :
    ∃ q, (s.ends (!x)).sent[(s.ends x).taken - 1]? = some q ∧
      umpChanRxMsgtag (settle s.mem (s.buffer x) (.slot (!x) slot 0)) = q.tag ∧
      ∀ pc, uncounted pc = 0 → fill pc = [] → held pc ≤ 1 → (held pc = 0 → q.tag = umpAckMsgtag) →
        (roomy pc → umpChanCanSend (s.ends x).chan = true) →
        AtSlot (cfg.bufmsgs (!x)) (s.ends x) (s.ends (!x)) pc →
        Invariant cfg (setEnd s x { s.ends x with
          chan := umpChanRxCount (s.ends x).chan
          pc := pc }) := by
  have hslot := (h.ends x).at_slot
  rw [hpc] at hslot
  obtain ⟨q, hq, htag, -, hword⟩ := h.control (by rw [hpc]; rfl) hslot
  refine ⟨q, hq, by rw [hword, umpChanRxMsgtag_control htag], ?_⟩
  intro pc hun hfill hheld hack hroom hat
  have hcan := (h.ends x).canSend_iff (hn x)
  refine h.move ((h.ends x).count hpc hq hun (fun hr => hcan.mp (hroom hr)) hat hheld hack) rfl
    ?_ ?_ fun _ hle _ => hle
  · rw [hpc]
    exact hfill
  · unfold freed
    rw [hpc]
    exact Nat.sub_le_sub_left hheld _

/-- An acknowledgement is no message of its own. -/
theorem Invariant.act_null (h : Invariant cfg s) (hn : ∀ y, cfg.bufmsgs y < 2 ^ 16 - 1)
    (hpc : (s.ends x).pc = .tag call slot)
    (hack : umpChanRxMsgtag (settle s.mem (s.buffer x) (.slot (!x) slot 0)) = umpAckMsgtag) :
    Invariant cfg (setEnd s x { s.ends x with
      chan := umpChanRxCount (s.ends x).chan
      pc := rxNull (umpChanRxCount (s.ends x).chan) call }) := by
  obtain ⟨q, -, htag, hcounted⟩ := h.act_tag hn hpc
  obtain ⟨hcalm, hroom⟩ := calm_rxNull (umpChanRxCount (s.ends x).chan) call
  exact hcounted _ hcalm.uncounted hcalm.fill (by rw [hcalm.held]; exact Nat.zero_le _)
    (fun _ => htag.symm.trans hack) hroom (hcalm.at_slot _ _ _)

/-- A message of the peer's user, which only a dequeue takes. -/
theorem Invariant.act_message (h : Invariant cfg s) (hn : ∀ y, cfg.bufmsgs y < 2 ^ 16 - 1)
    (hpc : (s.ends x).pc = .tag call slot)
    (hdata : umpChanRxMsgtag (settle s.mem (s.buffer x) (.slot (!x) slot 0)) ≠ umpAckMsgtag) :
    Invariant cfg (setEnd s x { s.ends x with
      chan := umpChanRxCount (s.ends x).chan
      pc := rxMsg call slot }) := by
  have hslot := (h.ends x).at_slot
  rw [hpc] at hslot
  obtain ⟨q, hq, htag, hcounted⟩ := h.act_tag hn hpc
  rw [htag] at hdata
  cases call with
  | dequeue words mode =>
    exact hcounted _ rfl rfl (Nat.le_refl 1) (fun hzero => absurd hzero Nat.one_ne_zero) False.elim
      ⟨hslot, Nat.zero_le _, q, hq, hdata, Agrees.nil _⟩
  | _ =>
    exact hcounted _ rfl rfl (Nat.le_refl 1) (fun hzero => absurd hzero Nat.one_ne_zero) False.elim
      trivial

/-- A word of the payload is copied. -/
theorem Invariant.act_copy {words : Nat} {got : List Nat} (h : Invariant cfg s)
    (hpc : (s.ends x).pc = .read words slot got) (hlt : got.length < words) :
    Invariant cfg (setEnd s x { s.ends x with
      pc := .read words slot
        (got ++ [settle s.mem (s.buffer x) (.slot (!x) slot (got.length + 1))]) }) := by
  have hat := (h.ends x).at_slot
  rw [hpc] at hat
  obtain ⟨hslot, hwords, q, hq, hdata, hagrees⟩ := hat
  refine h.move ?_ rfl ?_ ?_ fun _ hle _ => hle
  · apply (h.ends x).setPc
    · rw [hpc]
      rfl
    · rw [hpc]
      rfl
    · rw [hpc]
      rfl
    · exact False.elim
    · refine ⟨hslot, ?_, q, hq, hdata, hagrees.push fun v hv => h.payload hpc hq hv⟩
      rw [List.length_append, List.length_singleton]
      exact hlt
  · rw [hpc]
    rfl
  · unfold freed
    rw [hpc]
    exact Nat.le_refl _

/-- The payload is returned, and an acknowledgement sent if it is due. -/
theorem Invariant.act_hand {words : Nat} {got : List Nat} (h : Invariant cfg s)
    (hpc : (s.ends x).pc = .read words slot got) (needsAck : Bool) :
    Invariant cfg (setEnd s x { s.ends x with
      pc := if needsAck then .sendAck else .idle
      returned := (s.ends x).returned ++ [got] }) := by
  obtain ⟨hcalm, hroom⟩ : Calm (if needsAck then .sendAck else .idle) ∧
      ¬ roomy (if needsAck then .sendAck else .idle) := by
    cases needsAck <;> exact ⟨⟨rfl, rfl, fun _ _ _ => True.intro⟩, id⟩
  refine h.move ((h.ends x).hand hpc hcalm.held hroom (hcalm.at_slot _ _ _)) rfl ?_ ?_
    fun _ hle _ => hle
  · rw [hpc]
    exact hcalm.fill
  · unfold freed
    exact Nat.sub_le_sub_left (by rw [hcalm.held]; exact Nat.zero_le _) _

theorem Invariant.act (h : Invariant cfg s) (hn : ∀ y, cfg.bufmsgs y < 2 ^ 16 - 1)
    (hact : Acts x (settle s.mem (s.buffer x)) (s.ends x) e eff)
    (hs : perform (setEnd s x e) x eff = some s') : Invariant cfg s' := by
  cases hact with
  | turn hturn => exact h.turn hn hturn hs
  | take hpc hrecv => exact Option.some.inj hs ▸ h.act_take hpc hrecv
  | header hpc => exact Option.some.inj hs ▸ h.act_header hpc
  | null hpc hack => exact Option.some.inj hs ▸ h.act_null hn hpc hack
  | message hpc hdata => exact Option.some.inj hs ▸ h.act_message hn hpc hdata
  | copy hpc hlt => exact Option.some.inj hs ▸ h.act_copy hpc hlt
  | hand hpc => exact Option.some.inj hs ▸ h.act_hand hpc _
  | word hpc hv => exact h.storeWord hpc hv hs
  | submit hpc hall =>
    have hroom := (h.ends x).room (by rw [hpc]; exact True.intro)
    apply h.send (by rw [hpc]; rfl) (Nat.zero_le _) _ hroom hs
    rw [hpc]
    exact List.take_of_length_le (List.getElem?_eq_none_iff.mp hall)
  | ack hpc hyes =>
    have hroom := ((h.ends x).canSend_iff (hn x)).mp hyes
    have hfill : fill (s.ends x).pc = [] := by
      rw [hpc]
      rfl
    exact h.send (by rw [hpc]; rfl) (Nat.le_refl umpAckMsgtag) hfill hroom hs

end Act

end Steps

section Runs

variable {cfg : Config} {s s' : State}

theorem invariant_step (hn : ∀ y, cfg.bufmsgs y < 2 ^ 16 - 1) {a : Action} (h : Invariant cfg s)
    (hs : next cfg s a = some s') : Invariant cfg s' := by
  have hcalm : ∀ {x pc}, (s.ends x).pc = pc → Calm pc → Calm (s.ends x).pc := fun hpc hc => hpc ▸ hc
  cases next_cases hs with
  | @call x op hidle =>
    exact h.goto (hcalm hidle ⟨rfl, rfl, fun _ _ _ => True.intro⟩) (calm_start op)
  | step hact hs => exact h.act hn hact hs
  | timeout _ hpc =>
    exact h.goto (hcalm hpc ⟨rfl, rfl, fun _ _ _ => True.intro⟩)
      ⟨⟨rfl, rfl, fun _ _ _ => True.intro⟩, id⟩
  | flush hbuf => exact h.drain hbuf

theorem invariant {garbage : Loc → Nat} (hn : ∀ y, cfg.bufmsgs y < 2 ^ 16 - 1)
    (hr : Reachable (next cfg) (init cfg garbage) s) : Invariant cfg s :=
  hr.invariant (invariant_init cfg garbage) fun _ _ _ => invariant_step hn

end Runs

section Visible

/-- The store of a control word in the ring of end `x`. -/
def isControl (x : Bool) : Loc → Bool
  | .slot y _ 0 => y == x
  | _ => false

/-- How many of the messages of an end have reached memory. -/
def visible (s : State) (x : Bool) : Nat :=
  (s.ends x).sent.length - (s.buffer x).countP fun st => isControl x st.1

variable {cfg : Config} {s s' : State} {x : Bool}

theorem pending_count {n limit k : Nat} {log : List (Nat × List Nat)} {buf : List (Loc × Nat)}
    (h : Pending (Loc.slot x) n log limit k buf) :
    k + (buf.countP fun st => isControl x st.1) = log.length := by
  induction h with
  | nil => rfl
  | word _ _ ih =>
    rw [List.countP_cons_of_neg (by simp [isControl])]
    exact ih
  | publish _ _ ih =>
    rw [List.countP_cons_of_pos (by simp [isControl])]
    omega
  | @other k l v buf hl _ ih =>
    rw [List.countP_cons_of_neg]
    · exact ih
    · cases l with
      | wakeState => simp [isControl]
      | slot y i w =>
        cases w with
        | succ w => simp [isControl]
        | zero =>
          have hne : y ≠ x := fun heq => hl i 0 (by rw [heq])
          simpa [isControl] using hne

theorem Ring.eq_visible {k : Nat} (h : Ring cfg s x k) : k = visible s x := by
  have hcount := pending_count h.pending
  rw [entries_length] at hcount
  unfold visible
  omega

theorem Invariant.ring (h : Invariant cfg s) (x : Bool) : Ring cfg s x (visible s x) := by
  obtain ⟨k, -, hring⟩ := h.rings x
  rw [← hring.eq_visible]
  exact hring

theorem Invariant.taken_le_visible (h : Invariant cfg s) (x : Bool) :
    (s.ends x).taken ≤ visible s (!x) := by
  obtain ⟨k, hle, hring⟩ := h.incoming x
  rw [← hring.eq_visible]
  exact hle

/-- An end sees a message exactly when one that it has not taken is in memory. -/
theorem Invariant.sees_iff (h : Invariant cfg s) (x : Bool) :
    canRecv x (settle s.mem (s.buffer x)) (s.ends x) = true ↔ (s.ends x).taken < visible s (!x) :=
  h.canRecv_iff (h.ring (!x)) (h.taken_le_visible x)

theorem visible_of_empty (hbuf : s.buffer x = []) : visible s x = (s.ends x).sent.length := by
  rw [visible, hbuf, List.countP_nil, Nat.sub_zero]

/-- A step of an end sends a message or leaves the control words alone. -/
theorem acts_sent {view : Loc → Nat} {e e' : End} {eff : Effect} (hact : Acts x view e e' eff) :
    (e'.sent = e.sent ∧ ∀ l v, eff = .store l v → isControl x l = false) ∨
      ∃ p i v, e'.sent = e.sent ++ [p] ∧ e'.pc = .checkWake ∧ eff = .store (.slot x i 0) v := by
  have hnone : ∀ l v, Effect.none = .store l v → isControl x l = false :=
    fun _ _ => Effect.noConfusion
  cases hact with
  | turn hturn =>
    have hquiet := (calm_turn hturn).2.1
    refine .inl ⟨rfl, ?_⟩
    rintro l v rfl
    obtain rfl : l = .wakeState := hquiet
    rfl
  | word =>
    refine .inl ⟨rfl, ?_⟩
    intro l v heq
    injection heq with hl
    rw [← hl]
    rfl
  | submit => exact .inr ⟨_, _, _, rfl, rfl, rfl⟩
  | ack => exact .inr ⟨_, _, _, rfl, rfl, rfl⟩
  | _ => exact .inl ⟨rfl, hnone⟩

theorem perform_ends {eff : Effect} (hs : perform s x eff = some s') : s'.ends = s.ends := by
  cases eff with
  | none => rw [← Option.some.inj hs]
  | store => rw [← Option.some.inj hs]
  | _ => rw [← Option.some.inj (Option.ite_none_right_eq_some.mp hs).2]

theorem perform_buffer {eff : Effect} (hs : perform s x eff = some s') :
    (s'.buffer = s.buffer ∧ ∀ l v, eff ≠ .store l v) ∨
      ∃ l v, eff = .store l v ∧
        s'.buffer = Function.update s.buffer x (s.buffer x ++ [(l, v)]) := by
  cases eff with
  | store l v =>
    right
    refine ⟨l, v, rfl, ?_⟩
    rw [← Option.some.inj hs]
  | none =>
    left
    refine ⟨?_, fun _ _ => Effect.noConfusion⟩
    rw [← Option.some.inj hs]
  | _ =>
    left
    refine ⟨?_, fun _ _ => Effect.noConfusion⟩
    rw [← Option.some.inj (Option.ite_none_right_eq_some.mp hs).2]

/-- What has reached memory stays there. -/
theorem visible_step {a : Action} (hs : next cfg s a = some s') (y : Bool) :
    visible s y ≤ visible s' y := by
  have hgoto : ∀ x pc, visible (setEnd s x { s.ends x with pc := pc }) y = visible s y := by
    intro x pc
    unfold visible
    rcases Bool.eq_or_eq_not y x with rfl | rfl
    · rw [setEnd_self]
      rfl
    · rw [setEnd_peer]
      rfl
  cases next_cases hs with
  | @call x op => exact Nat.le_of_eq (hgoto x _).symm
  | @timeout x call => exact Nat.le_of_eq (hgoto x _).symm
  | @flush x l v rest hbuf =>
    unfold visible
    dsimp only
    rcases Bool.eq_or_eq_not y x with rfl | rfl
    · rw [Function.update_self, hbuf, List.countP_cons]
      omega
    · rw [Function.update_of_ne (Bool.not_ne_self x)]
  | @step x e eff s' hact hs =>
    have hends := perform_ends hs
    unfold visible
    rw [hends]
    rcases Bool.eq_or_eq_not y x with rfl | rfl
    · rw [setEnd_self]
      rcases acts_sent hact with ⟨hsent, hstore⟩ | ⟨p, i, v, hsent, -, hstore⟩
      · rw [hsent]
        rcases perform_buffer hs with ⟨hbuf, -⟩ | ⟨l, v, heff, hbuf⟩
        · rw [hbuf]
          exact Nat.le_refl _
        · rw [hbuf, Function.update_self, List.countP_append,
            List.countP_singleton, hstore l v heff]
          exact Nat.le_refl _
      · rw [hsent, List.length_append, List.length_singleton]
        rw [hstore] at hs
        obtain rfl := Option.some.inj hs
        dsimp only
        rw [Function.update_self, List.countP_append, List.countP_singleton]
        simp only [isControl, BEq.rfl, if_true]
        change _ ≤ _ - ((s.buffer y).countP _ + 1)
        omega
    · rw [setEnd_peer]
      rcases perform_buffer hs with ⟨hbuf, -⟩ | ⟨l, v, -, hbuf⟩
      · rw [hbuf]
        exact Nat.le_refl _
      · rw [hbuf, Function.update_of_ne (Bool.not_ne_self x)]
        exact Nat.le_refl _

end Visible

end SmeltConsensus.UmpQueue.RingInvariant
