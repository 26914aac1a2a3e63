import SmeltConsensus.UmpQueue.Delivery

/-!
A channel of which one end only enqueues and the other only dequeues, as the programs of
the repository use it. The receiver acknowledges after a fixed number of messages, and
this is enough for the assertions and for progress.
-/

set_option autoImplicit false
set_option relaxedAutoImplicit false

namespace SmeltConsensus.UmpQueue.OneWay

open SmeltConsensus.Foundation.Machine (Guarded Reachable run)
open SmeltConsensus.Foundation.StoreBuffer
open SmeltConsensus.UmpQueue.Channel
open SmeltConsensus.UmpQueue.Endpoint
open SmeltConsensus.UmpQueue.Counts
open SmeltConsensus.UmpQueue.RingInvariant
open SmeltConsensus.UmpQueue.Delivery

/-- How many messages an acknowledgement covers on a ring of `n` slots. -/
def period (n : Nat) : Nat := max 1 (n - 1)

def Op.sends : Op → Bool
  | .enqueueWord _ _ => true
  | .enqueue _ _ _ _ _ _ _ _ => true
  | _ => false

/-- Only end `x` enqueues and only its peer dequeues. -/
def OneWayUse (x : Bool) : Action → Bool
  | .call y op => Op.sends op == (y == x)
  | _ => true

theorem period_pos (n : Nat) : 0 < period n := Nat.lt_of_lt_of_le Nat.zero_lt_one (Nat.le_max_left _ _)

/-- An entry of a log with one more message is an old one or the new one. -/
theorem getElem?_push {log : List Packet} {p q : Packet} {j : Nat}
    (hj : (log ++ [p])[j]? = some q) : log[j]? = some q ∨ (j = log.length ∧ q = p) := by
  rcases Nat.lt_trichotomy j log.length with hlt | rfl | hgt
  · rw [List.getElem?_append_left hlt] at hj
    exact .inl hj
  · rw [List.getElem?_concat_length] at hj
    exact .inr ⟨rfl, (Option.some.inj hj).symm⟩
  · rw [List.getElem?_eq_none (by rw [List.length_append, List.length_singleton]; omega)] at hj
    cases hj

section Sender

/-- An enqueue before its last attempt. -/
def Polls : Call → Prop
  | .enqueue _ _ => True
  | _ => False

def SenderPc : Pc → Prop
  | .canSend call => call.isDequeue = false
  | .poll call _ => Polls call
  | .recv call => Polls call
  | .header call _ => Polls call
  | .tag call _ => Polls call
  | .again call => Polls call
  | .tryWait call => Polls call
  | .cas call => Polls call
  | .recheck call => Polls call
  | .sleep call => Polls call
  | .wakeup call => Polls call
  | .read _ _ _ => False
  | .sendAck => False
  | .failed _ => False
  | _ => True

/-- The end that enqueues, when `vis` messages from its peer have reached memory: it has
stayed within a ring of what it knew to be received, and it only turns to its ring where
there is a message, and to its last attempt where there is room. -/
structure SenderOk (n vis : Nat) (e : End) : Prop where
  pc : SenderPc e.pc
  data : ∀ q ∈ e.sent, q.tag ≠ umpAckMsgtag
  window : ∀ j q, e.sent[j]? = some q → j < q.acked * period n + n
  last : ∀ vals, e.pc = .canSend (.retry vals) → umpChanCanSend e.chan = true
  polled : ∀ call, e.pc = .recv call → e.taken < vis

variable {n vis : Nat} {e : End}

theorem SenderOk.keep {e' : End} (h : SenderOk n vis e) (hsent : e'.sent = e.sent)
    (hpc : SenderPc e'.pc)
    (hlast : ∀ vals, e'.pc = .canSend (.retry vals) → umpChanCanSend e'.chan = true)
    (hpolled : ∀ call, e'.pc = .recv call → e'.taken < vis) : SenderOk n vis e' := by
  refine ⟨hpc, ?_, ?_, hlast, hpolled⟩
  · rw [hsent]
    exact h.data
  · rw [hsent]
    exact h.window

/-- A step to a place where nothing needs to be known. -/
theorem SenderOk.goto {pc : Pc} (h : SenderOk n vis e) (hpc : SenderPc pc)
    (hlast : ∀ vals, pc ≠ .canSend (.retry vals)) (hpolled : ∀ call, pc ≠ .recv call) :
    SenderOk n vis { e with pc := pc } :=
  h.keep rfl hpc (fun vals heq => absurd heq (hlast vals)) fun call heq => absurd heq (hpolled call)

theorem SenderOk.restart (h : SenderOk n vis e) (call : Call) (hcall : Polls call) :
    SenderOk n vis { e with pc := restart call } := by
  cases call with
  | enqueue vals mode => exact h.goto rfl (fun _ => by simp [Endpoint.restart]) fun _ => Pc.noConfusion
  | _ => exact hcall.elim

theorem SenderOk.resume (h : SenderOk n vis e) (call : Call) (hcall : Polls call) :
    SenderOk n vis { e with pc := resume call } := by
  cases call with
  | enqueue vals mode => exact h.goto rfl (fun _ => by simp [Endpoint.resume]) fun _ => Pc.noConfusion
  | _ => exact hcall.elim

theorem SenderOk.blocked (h : SenderOk n vis e) (call : Call) (hcall : Polls call) :
    SenderOk n vis { e with pc := blocked call } := by
  cases call with
  | enqueue vals mode =>
    cases mode with
    | nonblock => exact h.goto True.intro (fun _ => Pc.noConfusion) fun _ => Pc.noConfusion
    | busy => exact h.goto True.intro (fun _ => Pc.noConfusion) fun _ => Pc.noConfusion
    | first => exact h.restart (.enqueue vals .first) True.intro
    | woken => exact h.restart (.enqueue vals .woken) True.intro
  | _ => exact hcall.elim

/-- With room in the ring an enqueue goes on. -/
theorem SenderOk.granted (h : SenderOk n vis e) (call : Call) (hcall : call.isDequeue = false)
    (hroom : umpChanCanSend e.chan = true) : SenderOk n vis { e with pc := granted call } := by
  have hretry : ∀ vals, SenderOk n vis { e with pc := .canSend (.retry vals) } :=
    fun vals => h.keep rfl rfl (fun _ _ => hroom) fun _ => Pc.noConfusion
  have hfill : ∀ vals, SenderOk n vis { e with pc := .fill vals 0 } :=
    fun vals => h.goto True.intro (fun _ => Pc.noConfusion) fun _ => Pc.noConfusion
  cases call with
  | enqueue vals mode =>
    cases mode with
    | nonblock => exact hfill vals
    | first => exact hfill vals
    | busy => exact hretry vals
    | woken => exact hretry vals
  | retry vals => exact hfill vals
  | dequeue words mode => cases hcall

theorem Polls.isDequeue {call : Call} (h : Polls call) : call.isDequeue = false := by
  cases call with
  | enqueue vals mode => rfl
  | _ => exact h.elim

/-- An enqueue goes on elsewhere. The message that its loop has seen is still there. -/
theorem SenderOk.turn {x : Bool} {view : Loc → Nat} {pc : Pc} {eff : Effect}
    (h : SenderOk n vis e) (hturn : Turn x view e e.pc pc eff)
    (hroom : roomy e.pc → umpChanCanSend e.chan = true)
    (hsees : canRecv x view e = true ↔ e.taken < vis) : SenderOk n vis { e with pc := pc } := by
  have hpcs := h.pc
  generalize hpc : e.pc = old at hturn hpcs hroom
  cases hturn with
  | @granted call hyes => exact h.granted call hpcs hyes
  | @full call hfull =>
    cases call with
    | enqueue vals mode => exact h.goto True.intro (fun _ => Pc.noConfusion) fun _ => Pc.noConfusion
    | retry vals =>
      rw [h.last vals hpc] at hfull
      cases hfull
    | dequeue words mode => cases hpcs
  | found hrecv => exact h.keep rfl hpcs (fun _ => Pc.noConfusion) fun _ _ => hsees.mp hrecv
  | @enough call => exact h.granted call (Polls.isDequeue hpcs) (hroom True.intro)
  | @blocked call => exact h.blocked call hpcs
  | @gone call hempty =>
    rw [hsees.mpr (h.polled call hpc)] at hempty
    cases hempty
  | unacked => exact hpcs.elim
  | @again call => exact h.restart call hpcs
  | @arrived call => exact h.restart call hpcs
  | @refused call => exact h.restart call hpcs
  | @takenBack call => exact h.restart call hpcs
  | @woken call => exact h.resume call hpcs
  | _ => exact h.goto hpcs (fun _ => Pc.noConfusion) fun _ => Pc.noConfusion

/-- With an acknowledgement taken the loop of an enqueue goes on. -/
theorem SenderOk.null {call : Call} {slot : Nat} (h : SenderOk n vis e) (hpc : e.pc = .tag call slot)
    (hroom : umpChanCanSend (umpChanRxCount e.chan) = true) :
    SenderOk n vis { e with
      chan := umpChanRxCount e.chan
      pc := rxNull (umpChanRxCount e.chan) call } := by
  have hpcs := h.pc
  rw [hpc] at hpcs
  have hnull : rxNull (umpChanRxCount e.chan) call = .poll call true := by
    unfold rxNull afterAck
    rw [Polls.isDequeue hpcs, if_pos hroom]
    rfl
  rw [hnull]
  exact h.keep rfl hpcs (fun _ => Pc.noConfusion) fun _ => Pc.noConfusion

/-- The control word of a payload: the message is within the ring. -/
theorem SenderOk.submit {x : Bool} {vals : List Nat} (h : SenderOk n vis e)
    (hroom : e.sent.length < e.taken * period n + n) : SenderOk n vis (submit x e 0 vals).1 := by
  refine ⟨True.intro, ?_, ?_, fun _ => Pc.noConfusion, fun _ => Pc.noConfusion⟩
  · intro q hq
    rcases List.mem_append.mp hq with hq | hq
    · exact h.data q hq
    · obtain rfl := List.mem_singleton.mp hq
      exact (by decide : 0 ≠ umpAckMsgtag)
  · intro j q hj
    rcases getElem?_push hj with hj | ⟨rfl, rfl⟩
    · exact h.window j q hj
    · exact hroom

/-- Messages that were sent before an acknowledgement are no more than a ring ahead of those
it follows. -/
theorem SenderOk.sent_le {k : Nat} (h : SenderOk n vis e) (hgiven : ∀ q ∈ e.sent, q.acked ≤ k) :
    e.sent.length ≤ k * period n + n := by
  rcases Nat.eq_zero_or_pos e.sent.length with hzero | hpos
  · rw [hzero]
    exact Nat.zero_le _
  · have hget := List.getElem?_eq_getElem (Nat.sub_one_lt_of_lt hpos)
    have hwindow := h.window _ _ hget
    have hacked := Nat.mul_le_mul_right (period n) (hgiven _ (List.mem_of_getElem? hget))
    omega

end Sender

section Receiver

def ReceiverPc : Pc → Prop
  | .recv call => call.isDequeue = true
  | .header call _ => call.isDequeue = true
  | .tag call _ => call.isDequeue = true
  | .again call => call.isDequeue = true
  | .tryWait call => call.isDequeue = true
  | .cas call => call.isDequeue = true
  | .recheck call => call.isDequeue = true
  | .sleep call => call.isDequeue = true
  | .wakeup call => call.isDequeue = true
  | .canSend _ => False
  | .poll _ _ => False
  | .fill _ _ => False
  | .failed _ => False
  | _ => True

/-- The end that dequeues has sent one acknowledgement for each period of messages. -/
structure ReceiverOk (n : Nat) (e : End) : Prop where
  pc : ReceiverPc e.pc
  acks : ∀ i q, e.sent[i]? = some q → q.tag = umpAckMsgtag ∧ q.acked = (i + 1) * period n
  low : e.sent.length * period n ≤ freed e
  high : e.pc ≠ .sendAck → freed e < (e.sent.length + 1) * period n
  due : e.pc = .sendAck → freed e = (e.sent.length + 1) * period n

variable {n : Nat} {e : End}

/-- The counts stay as they are. -/
theorem ReceiverOk.keep {e' : End} (h : ReceiverOk n e) (hsent : e'.sent = e.sent)
    (hpc : ReceiverPc e'.pc) (hfreed : freed e' = freed e) (hold : e.pc ≠ .sendAck)
    (hnew : e'.pc ≠ .sendAck) : ReceiverOk n e' := by
  refine ⟨hpc, ?_, ?_, ?_, fun heq => absurd heq hnew⟩
  · rw [hsent]
    exact h.acks
  · rw [hsent, hfreed]
    exact h.low
  · rw [hsent, hfreed]
    exact fun _ => h.high hold

theorem ReceiverOk.goto {pc : Pc} (h : ReceiverOk n e) (hpc : ReceiverPc pc)
    (hheld : held pc = held e.pc) (hold : e.pc ≠ .sendAck) (hnew : pc ≠ .sendAck) :
    ReceiverOk n { e with pc := pc } := by
  refine h.keep rfl hpc ?_ hold hnew
  unfold freed
  rw [hheld]

theorem receiver_restart {call : Call} (h : call.isDequeue = true) :
    ReceiverPc (restart call) ∧ restart call ≠ .sendAck := by
  cases call with
  | dequeue words mode => exact ⟨rfl, Pc.noConfusion⟩
  | _ => cases h

theorem receiver_resume {call : Call} (h : call.isDequeue = true) :
    ReceiverPc (resume call) ∧ resume call ≠ .sendAck := by
  cases call with
  | dequeue words mode => exact ⟨rfl, Pc.noConfusion⟩
  | _ => cases h

theorem receiver_blocked {call : Call} (h : call.isDequeue = true) :
    ReceiverPc (blocked call) ∧ blocked call ≠ .sendAck := by
  cases call with
  | dequeue words mode => cases mode <;> exact ⟨by first | rfl | exact True.intro, Pc.noConfusion⟩
  | _ => cases h

/-- A dequeue goes on elsewhere. -/
theorem ReceiverOk.turn {x : Bool} {view : Loc → Nat} {pc : Pc} {eff : Effect}
    (h : ReceiverOk n e) (hturn : Turn x view e e.pc pc eff)
    (hroom : e.pc = .sendAck → umpChanCanSend e.chan = true) : ReceiverOk n { e with pc := pc } := by
  have hheld : held pc = held e.pc := by
    rw [(calm_turn hturn).1.held, (calm_of_turn hturn).held]
  have hpcs := h.pc
  generalize hpc : e.pc = old at hturn hpcs hroom
  have hto : old ≠ .sendAck → ReceiverPc pc ∧ pc ≠ .sendAck → ReceiverOk n { e with pc := pc } :=
    fun hold hnew => h.goto hnew.1 hheld (by rw [hpc]; exact hold) hnew.2
  cases hturn with
  | @gone call =>
    have hnull : rxNull e.chan call = blocked call := if_pos hpcs
    apply hto Pc.noConfusion
    rw [hnull]
    exact receiver_blocked hpcs
  | unacked hfull =>
    rw [hroom rfl] at hfull
    cases hfull
  | granted => exact hpcs.elim
  | full => exact hpcs.elim
  | found => exact hpcs.elim
  | enough => exact hpcs.elim
  | blocked => exact hpcs.elim
  | again => exact hto Pc.noConfusion (receiver_restart hpcs)
  | arrived => exact hto Pc.noConfusion (receiver_restart hpcs)
  | refused => exact hto Pc.noConfusion (receiver_restart hpcs)
  | takenBack => exact hto Pc.noConfusion (receiver_restart hpcs)
  | woken => exact hto Pc.noConfusion (receiver_resume hpcs)
  | _ => exact hto Pc.noConfusion ⟨hpcs, Pc.noConfusion⟩

/-- The payload is returned, and an acknowledgement follows at the end of a period. -/
theorem ReceiverOk.hand {words slot : Nat} {got : List Nat} {needsAck : Bool}
    (h : ReceiverOk n e) (hpc : e.pc = .read words slot got)
    (hneeds : needsAck = true ↔ e.taken = (e.sent.length + 1) * period n) :
    ReceiverOk n { e with
      pc := if needsAck then .sendAck else .idle
      returned := e.returned ++ [got] } := by
  have hlow := h.low
  have hhigh := h.high (by rw [hpc]; exact Pc.noConfusion)
  have hfreed : freed e = e.taken - 1 := by
    rw [freed, hpc]
    rfl
  rw [hfreed] at hlow hhigh
  cases needsAck with
  | true =>
    have hdue := hneeds.mp rfl
    refine ⟨True.intro, h.acks, ?_, fun hne => absurd rfl hne, fun _ => hdue⟩
    change e.sent.length * period n ≤ e.taken
    omega
  | false =>
    have hnot : e.taken ≠ (e.sent.length + 1) * period n :=
      fun heq => Bool.false_ne_true (hneeds.mpr heq)
    refine ⟨True.intro, h.acks, ?_, ?_, Pc.noConfusion⟩
    · change e.sent.length * period n ≤ e.taken
      omega
    · intro _
      change e.taken < (e.sent.length + 1) * period n
      omega

/-- The acknowledgement of a period is sent. -/
theorem ReceiverOk.ack {x : Bool} (h : ReceiverOk n e) (hpc : e.pc = .sendAck) :
    ReceiverOk n (submit x e umpAckMsgtag []).1 := by
  have hdue : e.taken = (e.sent.length + 1) * period n := by
    rw [← h.due hpc, freed, hpc]
    rfl
  have hlen : (e.sent ++ [Packet.mk umpAckMsgtag e.taken []]).length = e.sent.length + 1 := by
    rw [List.length_append, List.length_singleton]
  have hpos := period_pos n
  refine ⟨True.intro, ?_, ?_, ?_, Pc.noConfusion⟩
  · intro i q hi
    rcases getElem?_push hi with hi | ⟨rfl, rfl⟩
    · exact h.acks i q hi
    · exact ⟨rfl, hdue⟩
  · change (e.sent ++ [_]).length * period n ≤ e.taken
    rw [hlen]
    exact Nat.le_of_eq hdue.symm
  · intro _
    change e.taken < ((e.sent ++ [_]).length + 1) * period n
    rw [hlen, Nat.succ_mul, ← hdue]
    omega

end Receiver

section Steps

variable {cfg : Config} {s s' : State} {x : Bool} {r : End × Effect}

/-- What an end has sent and received so far is the sum of its acknowledgements. -/
theorem ReceiverOk.acked_eq {n : Nat} {e : End} (h : ReceiverOk n e) {k : Nat}
    (hk : k ≤ e.sent.length) : acked e.sent k = k * period n := by
  cases k with
  | zero => rw [acked, Nat.zero_mul]
  | succ k =>
    have hget := List.getElem?_eq_getElem (Nat.lt_of_succ_le hk)
    rw [acked_succ hget]
    exact (h.acks k _ hget).2

/-- What is left of the room in the ring once an acknowledgement has been taken. -/
theorem SenderOk.room_after_ack {n m vis : Nat} {e p : End} {call : Call} {slot : Nat}
    (hs : SenderOk n vis e) (hr : ReceiverOk n p) (hend : EndOk n m x e p) (hn : n < 2 ^ 16 - 1)
    (hpc : e.pc = .tag call slot) (htaken : e.taken ≤ p.sent.length) :
    umpChanCanSend e.chan = true := by
  obtain ⟨k, hk⟩ := hend.taken_eq (by rw [hpc]; rfl)
  have hopened : opened e = e.taken := by
    rw [opened, hpc]
    rfl
  have hfreed : freed e = k := by
    rw [freed, hpc, hk]
    rfl
  -- the messages in the ring were sent when it was not there
  have hsent := hs.sent_le hend.given
  have hperiod := period_pos n
  apply (hend.canSend_iff hn).mpr
  rw [hopened, hr.acked_eq htaken, hk, Nat.succ_mul]
  rw [hfreed] at hsent
  omega

/-- One step of the end that enqueues. -/
theorem sender_act {e : End} {eff : Effect} (h : Invariant cfg s)
    (hn : ∀ y, cfg.bufmsgs y < 2 ^ 16 - 1)
    (hs : SenderOk (cfg.bufmsgs x) (visible s (!x)) (s.ends x))
    (hr : ReceiverOk (cfg.bufmsgs x) (s.ends (!x)))
    (hact : Acts x (settle s.mem (s.buffer x)) (s.ends x) e eff) :
    SenderOk (cfg.bufmsgs x) (visible s (!x)) e := by
  have hend := h.ends x
  have hcan := hend.canSend_iff (hn x)
  have hpcs := hs.pc
  cases hact with
  | turn hturn => exact hs.turn hturn (fun hroom => hcan.mpr (hend.room hroom)) (h.sees_iff x)
  | take hpc =>
    rw [hpc] at hpcs
    exact hs.keep rfl hpcs (fun _ => Pc.noConfusion) fun _ => Pc.noConfusion
  | header hpc =>
    rw [hpc] at hpcs
    exact hs.keep rfl hpcs (fun _ => Pc.noConfusion) fun _ => Pc.noConfusion
  | null hpc => exact hs.null hpc (hs.room_after_ack hr hend (hn x) hpc (h.taken_le x))
  | message hpc hdata =>
    obtain ⟨q, hq, htag, -⟩ := h.act_tag hn hpc
    exact absurd (htag.trans (hr.acks _ q hq).1) hdata
  | copy hpc =>
    rw [hpc] at hpcs
    exact hpcs.elim
  | hand hpc =>
    rw [hpc] at hpcs
    exact hpcs.elim
  | word => exact hs.goto True.intro (fun _ => Pc.noConfusion) fun _ => Pc.noConfusion
  | submit hpc =>
    have hroom := hend.room (by rw [hpc]; exact True.intro)
    have hopened : opened (s.ends x) = (s.ends x).taken := by
      rw [opened, hpc]
      rfl
    rw [hopened, hr.acked_eq (h.taken_le x)] at hroom
    exact hs.submit hroom
  | ack hpc =>
    rw [hpc] at hpcs
    exact hpcs.elim

theorem period_cases (n : Nat) : (n ≤ 2 ∧ period n = 1) ∨ (3 ≤ n ∧ period n = n - 1) := by
  unfold period
  omega

/-- Where an acknowledgement is due there is room for it: of those sent, the sender has
seen so many before it sent the last message. -/
theorem ack_room {n m seen given : Nat} (hn : 0 < n) (hm : 0 < m) (hsize : n = 2 → m ≠ 1)
    (hwindow : (given + 1) * period n - 1 < seen * period n + n) : given < seen + m := by
  by_contra hge
  have hmul := Nat.mul_le_mul_right (period n) (Nat.le_of_not_lt hge)
  have hpos := period_pos n
  rw [Nat.add_mul] at hmul
  rw [Nat.succ_mul] at hwindow
  rcases period_cases n with ⟨hle, hone⟩ | ⟨hge3, hperiod⟩
  · rw [hone, Nat.mul_one] at hmul hwindow
    omega
  · have hring := Nat.mul_le_mul_right (period n) hm
    omega

/-- The receiver is asked for an acknowledgement exactly at the end of a period. -/
theorem needsAck_iff {n m : Nat} {y : Bool} {e p : End} (hend : EndOk n m y e p) (hm : 0 < m)
    (hle : m ≤ 2 ^ 16 - 1) (hr : ReceiverOk m e) {words slot : Nat} {got : List Nat}
    (hpc : e.pc = .read words slot got) :
    umpChanNeedsAck e.chan = true ↔ e.taken = (e.sent.length + 1) * period m := by
  have hheld := hend.held_le
  rw [hpc] at hheld
  have hpos : 1 ≤ e.taken := hheld
  have hcounted : counted e = e.taken := by
    rw [counted, hpc]
    rfl
  have hfreed : freed e = e.taken - 1 := by
    rw [freed, hpc]
    rfl
  have hlow := hr.low
  have hhigh := hr.high (by rw [hpc]; exact Pc.noConfusion)
  have hbuf : e.chan.rx.bufmsgs = m := by
    rw [hend.rx]
    rfl
  have hperiod := period_cases m
  rw [hfreed] at hlow hhigh
  rw [Nat.succ_mul] at hhigh ⊢
  rw [umpChanNeedsAck, decide_eq_true_eq, hend.seq_id, hcounted, hend.last_ack,
    hr.acked_eq (Nat.le_refl _), hbuf, umpIndexSub_one hm (by omega),
    umpIndexSub_eq (by omega) (by omega)]
  omega

/-- There is room for an acknowledgement that is due. -/
theorem ReceiverOk.room {n m vis : Nat} {y : Bool} {e p : End} (hr : ReceiverOk m e)
    (hs : SenderOk m vis p) (hend : EndOk n m y e p) (hn : n < 2 ^ 16 - 1) (hpos : 0 < n)
    (hm : 0 < m) (hsize : m = 2 → n ≠ 1) (htaken : e.taken ≤ p.sent.length)
    (hpc : e.pc = .sendAck) : umpChanCanSend e.chan = true := by
  obtain ⟨hopened, -, hfreed⟩ := opened_of_held (e := e) (by rw [hpc]; rfl)
  have hdue := hr.due hpc
  have hperiod := period_pos m
  rw [hfreed] at hdue
  have hone : 1 ≤ e.taken := by
    rw [hdue, Nat.succ_mul]
    omega
  have hget := List.getElem?_eq_getElem (show e.taken - 1 < p.sent.length by omega)
  have hwindow := hs.window _ _ hget
  have hacked := acked_succ hget
  rw [Nat.sub_add_cancel hone] at hacked
  apply (hend.canSend_iff hn).mpr
  rw [hopened, hacked]
  apply ack_room hm hpos hsize
  rw [← hdue]
  exact hwindow

/-- One step of the end that dequeues. -/
theorem receiver_act {y : Bool} {e : End} {eff : Effect} (h : Invariant cfg s)
    (hn : ∀ z, cfg.bufmsgs z < 2 ^ 16 - 1) (hsize : cfg.bufmsgs (!y) = 2 → cfg.bufmsgs y ≠ 1)
    {vis : Nat} (hs : SenderOk (cfg.bufmsgs (!y)) vis (s.ends (!y)))
    (hr : ReceiverOk (cfg.bufmsgs (!y)) (s.ends y))
    (hact : Acts y (settle s.mem (s.buffer y)) (s.ends y) e eff) :
    ReceiverOk (cfg.bufmsgs (!y)) e := by
  have hend := h.ends y
  have hpcs := hr.pc
  have hnot : ∀ {pc : Pc}, (s.ends y).pc = pc → pc ≠ .sendAck → (s.ends y).pc ≠ .sendAck :=
    fun hpc hne => by rw [hpc]; exact hne
  have hheld : ∀ {pc pc' : Pc}, (s.ends y).pc = pc → held pc' = held pc →
      (s.ends y).taken - held pc' = freed (s.ends y) :=
    fun hpc heq => by rw [freed, hpc, heq]
  cases hact with
  | turn hturn =>
    exact hr.turn hturn (hr.room hs hend (hn y) (cfg.pos y) (cfg.pos (!y)) hsize (h.taken_le y))
  | take hpc =>
    rw [hpc] at hpcs
    refine hr.keep rfl hpcs ?_ (hnot hpc Pc.noConfusion) Pc.noConfusion
    unfold freed
    rw [hpc]
    rfl
  | header hpc =>
    rw [hpc] at hpcs
    exact hr.keep rfl hpcs (hheld hpc rfl) (hnot hpc Pc.noConfusion) Pc.noConfusion
  | null hpc hack =>
    -- what the peer sends are payloads
    obtain ⟨q, hq, htag, -⟩ := h.act_tag hn hpc
    exact absurd (htag.symm.trans hack) (hs.data q (List.mem_of_getElem? hq))
  | @message call slot hpc =>
    rw [hpc] at hpcs
    cases call with
    | dequeue words mode =>
      exact hr.keep rfl True.intro (hheld hpc rfl) (hnot hpc Pc.noConfusion) Pc.noConfusion
    | _ => cases hpcs
  | copy hpc =>
    exact hr.keep rfl True.intro (hheld hpc rfl) (hnot hpc Pc.noConfusion) Pc.noConfusion
  | hand hpc => exact hr.hand hpc (needsAck_iff hend (cfg.pos (!y)) (cfg.le (!y)) hr hpc)
  | word hpc =>
    rw [hpc] at hpcs
    exact hpcs.elim
  | submit hpc =>
    rw [hpc] at hpcs
    exact hpcs.elim
  | ack hpc => exact hr.ack hpc

end Steps

section Runs

variable {cfg : Config} {s s' : State} {x : Bool}

/-- What holds along every run in which only end `x` enqueues and only its peer dequeues. -/
structure Flow (cfg : Config) (x : Bool) (s : State) : Prop where
  invariant : Invariant cfg s
  sender : SenderOk (cfg.bufmsgs x) (visible s (!x)) (s.ends x)
  receiver : ReceiverOk (cfg.bufmsgs x) (s.ends (!x))

theorem SenderOk.mono {n vis vis' : Nat} {e : End} (h : SenderOk n vis e) (hle : vis ≤ vis') :
    SenderOk n vis' e :=
  ⟨h.pc, h.data, h.window, h.last, fun call hpc => Nat.lt_of_lt_of_le (h.polled call hpc) hle⟩

theorem SenderOk.start {n vis : Nat} {e : End} (h : SenderOk n vis e) {op : Op}
    (hop : Op.sends op = true) : SenderOk n vis { e with pc := start op } := by
  cases op with
  | enqueueWord => exact h.goto rfl (fun _ => by simp [Endpoint.start]) fun _ => Pc.noConfusion
  | enqueue => exact h.goto rfl (fun _ => by simp [Endpoint.start]) fun _ => Pc.noConfusion
  | _ => cases hop

theorem ReceiverOk.start {n : Nat} {e : End} (h : ReceiverOk n e) (hidle : e.pc = .idle) {op : Op}
    (hop : Op.sends op = false) : ReceiverOk n { e with pc := start op } := by
  have hold : e.pc ≠ .sendAck := by
    rw [hidle]
    exact Pc.noConfusion
  cases op with
  | dequeueWord => exact h.goto rfl (by rw [hidle]; rfl) hold Pc.noConfusion
  | dequeue => exact h.goto rfl (by rw [hidle]; rfl) hold Pc.noConfusion
  | _ => cases hop

theorem flow_init (cfg : Config) (garbage : Loc → Nat) (x : Bool) :
    Flow cfg x (init cfg garbage) := by
  have hpos := period_pos (cfg.bufmsgs x)
  refine ⟨invariant_init cfg garbage, ?_, ?_⟩
  · exact ⟨True.intro, fun q hq => absurd hq List.not_mem_nil, fun j q hj => (by cases hj),
      fun _ => Pc.noConfusion, fun _ => Pc.noConfusion⟩
  · refine ⟨True.intro, fun i q hi => (by cases hi), ?_, ?_, Pc.noConfusion⟩
    · exact Nat.le_of_eq (Nat.zero_mul _)
    · intro _
      change 0 < (0 + 1) * _
      rw [Nat.zero_add, Nat.one_mul]
      exact hpos

/-- The end that enqueues moves. -/
theorem Flow.sender_moves {e : End} (h : Flow cfg x s) (hinv : Invariant cfg s')
    (hvis : visible s (!x) ≤ visible s' (!x)) (hends : s'.ends = (setEnd s x e).ends)
    (hsender : SenderOk (cfg.bufmsgs x) (visible s (!x)) e) : Flow cfg x s' := by
  refine ⟨hinv, ?_, ?_⟩
  · rw [hends, setEnd_self]
    exact hsender.mono hvis
  · rw [hends, setEnd_peer]
    exact h.receiver

/-- The end that dequeues moves. -/
theorem Flow.receiver_moves {e : End} (h : Flow cfg x s) (hinv : Invariant cfg s')
    (hvis : visible s (!x) ≤ visible s' (!x)) (hends : s'.ends = (setEnd s (!x) e).ends)
    (hreceiver : ReceiverOk (cfg.bufmsgs x) e) : Flow cfg x s' := by
  refine ⟨hinv, ?_, ?_⟩
  · rw [hends, setEnd_of_peer]
    exact h.sender.mono hvis
  · rw [hends, setEnd_self]
    exact hreceiver

theorem flow_step (hn : ∀ y, cfg.bufmsgs y < 2 ^ 16 - 1)
    (hsize : cfg.bufmsgs x = 2 → cfg.bufmsgs (!x) ≠ 1) {a : Action} (h : Flow cfg x s)
    (huse : OneWayUse x a = true) (hs : next cfg s a = some s') : Flow cfg x s' := by
  have hinv := invariant_step hn h.invariant hs
  have hvis := visible_step hs (!x)
  cases next_cases hs with
  | @call y op hidle =>
    have hop : Op.sends op = (y == x) := beq_iff_eq.mp huse
    rcases Bool.eq_or_eq_not y x with rfl | rfl
    · exact h.sender_moves hinv hvis rfl (h.sender.start (by rw [hop, BEq.rfl]))
    · have hreceives : Op.sends op = false := by
        rw [hop]
        exact beq_false_of_ne (Bool.not_ne_self x)
      exact h.receiver_moves hinv hvis rfl (h.receiver.start hidle hreceives)
  | @step y e eff s' hact hs =>
    rcases Bool.eq_or_eq_not y x with rfl | rfl
    · exact h.sender_moves hinv hvis (perform_ends hs)
        (sender_act h.invariant hn h.sender h.receiver hact)
    · have hsender := h.sender
      have hreceiver := h.receiver
      have hstep := receiver_act (y := !x) h.invariant hn
        (by rw [Bool.not_not]; exact hsize) (by rw [Bool.not_not]; exact hsender)
        (by rw [Bool.not_not]; exact hreceiver) hact
      rw [Bool.not_not] at hstep
      exact h.receiver_moves hinv hvis (perform_ends hs) hstep
  | @timeout y call hsleep hpc =>
    rcases Bool.eq_or_eq_not y x with rfl | rfl
    · have hcall := h.sender.pc
      rw [hpc] at hcall
      exact h.sender_moves hinv hvis rfl
        (h.sender.goto hcall (fun _ => Pc.noConfusion) fun _ => Pc.noConfusion)
    · have hcall := h.receiver.pc
      rw [hpc] at hcall
      have hold : (s.ends (!x)).pc ≠ .sendAck := by
        rw [hpc]
        exact Pc.noConfusion
      exact h.receiver_moves hinv hvis rfl
        (h.receiver.goto hcall (by rw [hpc]; rfl) hold Pc.noConfusion)
  | flush => exact ⟨hinv, h.sender.mono hvis, h.receiver⟩

theorem flow {garbage : Loc → Nat} {as : List Action} (hn : ∀ y, cfg.bufmsgs y ≠ 2 ^ 16 - 1)
    (hsize : cfg.bufmsgs x = 2 → cfg.bufmsgs (!x) ≠ 1) (huse : ∀ a ∈ as, OneWayUse x a = true)
    (hrun : run (next cfg) (init cfg garbage) as = some s) : Flow cfg x s := by
  have hguard : Guarded (next cfg) (fun _ a => OneWayUse x a = true) (init cfg garbage) as := by
    intro as' a t hp _
    apply huse
    exact hp.subset (List.mem_append_right _ List.mem_cons_self)
  apply Foundation.Machine.guarded_invariant _ (flow_init cfg garbage x) hguard hrun
  exact fun t a t' ht ha hs => flow_step (lt_of_ne hn) hsize ht ha hs

theorem Flow.not_failed (h : Flow cfg x s) (y : Bool) (a : Assert) : (s.ends y).pc ≠ .failed a := by
  intro hpc
  rcases Bool.eq_or_eq_not y x with rfl | rfl
  · have hsender := h.sender.pc
    rw [hpc] at hsender
    exact hsender
  · have hreceiver := h.receiver.pc
    rw [hpc] at hreceiver
    exact hreceiver

/-- A full ring holds a message that the receiver has not taken, unless an acknowledgement
waits for the sender. -/
theorem Flow.progress (h : Flow cfg x s) (hn : ∀ y, cfg.bufmsgs y < 2 ^ 16 - 1)
    (hbuf : ∀ y, s.buffer y = []) (hsender : held (s.ends x).pc = 0)
    (hreceiver : held (s.ends (!x)).pc = 0) (hack : (s.ends (!x)).pc ≠ .sendAck)
    (hfull : umpChanCanSend (s.ends x).chan = false) :
    canRecv x (settle s.mem (s.buffer x)) (s.ends x) = true ∨
      canRecv (!x) (settle s.mem (s.buffer (!x))) (s.ends (!x)) = true := by
  have hend := h.invariant.ends x
  obtain ⟨hopened, -, -⟩ := opened_of_held hsender
  obtain ⟨-, -, hfreed⟩ := opened_of_held hreceiver
  have hhigh := h.receiver.high hack
  have htaken := h.invariant.taken_le x
  have hroom := mt (hend.canSend_iff (hn x)).mpr (by rw [hfull]; exact Bool.false_ne_true)
  have hpos := cfg.pos x
  have hperiod := period_cases (cfg.bufmsgs x)
  rw [h.invariant.sees_iff x, h.invariant.sees_iff (!x), Bool.not_not, visible_of_empty (hbuf _),
    visible_of_empty (hbuf _)]
  rw [hopened, h.receiver.acked_eq htaken] at hroom
  rw [hfreed, Nat.succ_mul] at hhigh
  rcases Nat.lt_or_ge (s.ends x).taken (s.ends (!x)).sent.length with hlt | hge
  · exact .inl hlt
  · right
    rw [Nat.le_antisymm htaken hge] at hroom
    omega

end Runs

section Asserts

/-- A ring of two slots, with room for a single acknowledgement. -/
def unevenRings (x sleepEnabled : Bool) : Config where
  bufmsgs := fun y => if y == x then 2 else 1
  sleepEnabled := sleepEnabled
  pos := fun y => by cases y == x <;> decide
  le := fun y => by cases y == x <;> decide

def enqueued (x : Bool) (val : Nat) : List Action :=
  [.call x (.enqueueWord val false), .step x, .step x, .step x, .step x, .flush x, .flush x]

/-- The second message leaves before the first acknowledgement is seen. -/
def secondAck (x : Bool) : List Action :=
  enqueued x 5 ++
    operation (!x) (.dequeueWord false) 7 0 ++ enqueued x 6 ++
    operation (!x) (.dequeueWord false) 6 0

def Pc.isFailed : Pc → Bool
  | .failed _ => true
  | _ => false

theorem secondAck_fails (x sleepEnabled : Bool) :
    ((run (next (unevenRings x sleepEnabled)) (init (unevenRings x sleepEnabled) fun _ => 0)
      (secondAck x)).map fun s => Pc.isFailed (s.ends (!x)).pc) = some true := by
  cases x <;> cases sleepEnabled <;> decide +kernel

theorem unevenRings_eq {cfg : Config} {x : Bool} (hx : cfg.bufmsgs x = 2)
    (hpeer : cfg.bufmsgs (!x) = 1) : cfg = unevenRings x cfg.sleepEnabled := by
  obtain ⟨bufmsgs, sleepEnabled, hpos, hle⟩ := cfg
  have hsizes : bufmsgs = fun y => if y == x then 2 else 1 := by
    funext y
    rcases Bool.eq_or_eq_not y x with rfl | rfl
    · rw [BEq.rfl]
      exact hx
    · rw [beq_false_of_ne (Bool.not_ne_self x)]
      exact hpeer
  subst hsizes
  rfl

/-- With one end that enqueues and one that dequeues no assertion fails in any run, unless
the ring has two slots and the ring for the acknowledgements one. -/
theorem asserts_hold_iff {cfg : Config} (hn : ∀ y, cfg.bufmsgs y ≠ 2 ^ 16 - 1) (x : Bool) :
    (∀ garbage as s, (∀ a ∈ as, OneWayUse x a = true) →
      run (next cfg) (init cfg garbage) as = some s → ∀ y a, (s.ends y).pc ≠ .failed a) ↔
    ¬ (cfg.bufmsgs x = 2 ∧ cfg.bufmsgs (!x) = 1) := by
  constructor
  · rintro h ⟨hx, hpeer⟩
    have hcfg := unevenRings_eq hx hpeer
    obtain ⟨s, hrun, hfailed⟩ := Option.map_eq_some_iff.mp (secondAck_fails x cfg.sleepEnabled)
    rw [← hcfg] at hrun
    have huse : ∀ a ∈ secondAck x, OneWayUse x a = true := by
      cases x <;> decide
    have hnever := h _ _ s huse hrun (!x)
    cases hpc : (s.ends (!x)).pc with
    | failed a => exact hnever a hpc
    | _ =>
      rw [hpc] at hfailed
      cases hfailed
  · intro hsize garbage as s huse hrun y a
    exact (flow hn (fun hx hpeer => hsize ⟨hx, hpeer⟩) huse hrun).not_failed y a

theorem asserts_hold_even :
    (∀ garbage as s, (∀ a ∈ as, OneWayUse true a = true) →
      run (next (evenRings 2 true two_fit)) (init (evenRings 2 true two_fit) garbage) as = some s →
      ∀ y a, (s.ends y).pc ≠ .failed a) ↔ ¬ (2 = 2 ∧ 2 = 1) :=
  asserts_hold_iff (by decide) true

end Asserts

section Progress

variable {cfg : Config} {x : Bool} {garbage : Loc → Nat} {as : List Action} {s : State}

/-- An end that has a message in hand or an acknowledgement to send. -/
def Busy (e : End) : Prop := held e.pc ≠ 0 ∨ e.pc = .sendAck

/-- A one-way channel never comes to a stop: once all stores have reached memory, an end
has something in hand, or the sender has room or an acknowledgement to take, or the
receiver has a message to take. -/
theorem one_way_progress (hn : ∀ y, cfg.bufmsgs y ≠ 2 ^ 16 - 1)
    (hsize : cfg.bufmsgs x = 2 → cfg.bufmsgs (!x) ≠ 1) (huse : ∀ a ∈ as, OneWayUse x a = true)
    (hrun : run (next cfg) (init cfg garbage) as = some s) (hbuf : ∀ y, s.buffer y = []) :
    (∃ y, Busy (s.ends y)) ∨ umpChanCanSend (s.ends x).chan = true ∨
      ∃ y, canRecv y (settle s.mem (s.buffer y)) (s.ends y) = true := by
  by_contra hstuck
  push Not at hstuck
  obtain ⟨hbusy, hfull, hempty⟩ := hstuck
  have hsender : ¬ Busy (s.ends x) := hbusy x
  have hreceiver : ¬ Busy (s.ends (!x)) := hbusy (!x)
  have hprogress := (flow hn hsize huse hrun).progress (lt_of_ne hn) hbuf
    (by_contra fun h => hsender (.inl h)) (by_contra fun h => hreceiver (.inl h))
    (fun h => hreceiver (.inr h)) (Bool.eq_false_iff.mpr hfull)
  rcases hprogress with h | h
  · exact hempty x h
  · exact hempty (!x) h

/-- Two messages fill a ring of two slots. -/
theorem one_way_progress_full :
    ∃ s, run (next (evenRings 2 true two_fit)) (init (evenRings 2 true two_fit) fun _ => 9)
        (enqueued true 5 ++ enqueued true 6) = some s ∧
      umpChanCanSend (s.ends true).chan = false ∧
      ((∃ y, Busy (s.ends y)) ∨ umpChanCanSend (s.ends true).chan = true ∨
        ∃ y, canRecv y (settle s.mem (s.buffer y)) (s.ends y) = true) := by
  have hend : ((run (next (evenRings 2 true two_fit)) (init (evenRings 2 true two_fit) fun _ => 9)
      (enqueued true 5 ++ enqueued true 6)).map fun s =>
        (umpChanCanSend (s.ends true).chan, s.buffer true, s.buffer false)) =
      some (false, [], []) := by decide +kernel
  obtain ⟨s, hrun, hs⟩ := Option.map_eq_some_iff.mp hend
  obtain ⟨hfull, hbuf⟩ := Prod.mk.inj hs
  obtain ⟨htrue, hfalse⟩ := Prod.mk.inj hbuf
  exact ⟨s, hrun, hfull, one_way_progress (by decide) (by decide) (by decide) hrun
    (Bool.forall_bool.mpr ⟨hfalse, htrue⟩)⟩

end Progress

end SmeltConsensus.UmpQueue.OneWay
