import SmeltConsensus.UmpQueue.RingInvariant

/-!
What the channel delivers, in both directions and whatever its two ends call. The sequence
numbers have 16 bits, which is one ring too few: the largest ring that the initialisers
accept is never found full.
-/

set_option autoImplicit false
set_option relaxedAutoImplicit false

namespace SmeltConsensus.UmpQueue.Delivery

open SmeltConsensus.Foundation.Machine (Reachable run)
open SmeltConsensus.Foundation.StoreBuffer
open SmeltConsensus.UmpQueue.Channel
open SmeltConsensus.UmpQueue.Endpoint
open SmeltConsensus.UmpQueue.Counts
open SmeltConsensus.UmpQueue.RingInvariant

section Words

/-- One word, or a whole payload. -/
def Words (k : Nat) : Prop := k = 1 ∨ k = umpPayloadWords

def CallOk : Call → Prop
  | .enqueue vals _ => Words vals.length
  | .retry vals => Words vals.length
  | .dequeue words _ => Words words

def PcOk : Pc → Prop
  | .canSend call => CallOk call
  | .poll call _ => CallOk call
  | .recv call => CallOk call
  | .header call _ => CallOk call
  | .tag call _ => CallOk call
  | .read words _ got => Words words ∧ got.length ≤ words
  | .fill vals _ => Words vals.length
  | .again call => CallOk call
  | .tryWait call => CallOk call
  | .cas call => CallOk call
  | .recheck call => CallOk call
  | .sleep call => CallOk call
  | .wakeup call => CallOk call
  | _ => True

/-- All payloads that an end sends and returns have these lengths. -/
structure Sized (e : End) : Prop where
  pc : PcOk e.pc
  returned : ∀ got ∈ e.returned, Words got.length
  sent : ∀ p ∈ e.sent, p.tag ≠ umpAckMsgtag → Words p.vals.length

variable {call : Call}

theorem start_ok (op : Op) : PcOk (start op) := by
  cases op with
  | enqueueWord => exact .inl rfl
  | enqueue => exact .inr rfl
  | dequeueWord => exact .inl rfl
  | dequeue => exact .inr rfl

theorem restart_ok (h : CallOk call) : PcOk (restart call) := by
  cases call <;> exact h

theorem resume_ok (h : CallOk call) : PcOk (resume call) := by
  cases call <;> exact h

theorem blocked_ok (h : CallOk call) : PcOk (blocked call) := by
  cases call with
  | enqueue vals mode => cases mode <;> first | exact h | exact True.intro
  | retry vals => exact True.intro
  | dequeue words mode => cases mode <;> first | exact h | exact True.intro

theorem granted_ok (h : CallOk call) : PcOk (granted call) := by
  cases call with
  | enqueue vals mode => cases mode <;> exact h
  | retry vals => exact h
  | dequeue words mode => exact True.intro

theorem rxNull_ok (c : UmpChan) (h : CallOk call) : PcOk (rxNull c call) := by
  have hack : PcOk (afterAck c call) := by
    unfold afterAck
    split
    · exact h
    · exact True.intro
  unfold rxNull
  split
  · exact blocked_ok h
  · exact hack

theorem rxMsg_ok (slot : Nat) (h : CallOk call) : PcOk (rxMsg call slot) := by
  cases call with
  | dequeue words mode => exact ⟨h, Nat.zero_le _⟩
  | _ => exact True.intro

variable {x : Bool} {view : Loc → Nat} {e e' : End} {eff : Effect}

theorem turn_ok {pc pc' : Pc} (hturn : Turn x view e pc pc' eff) (h : PcOk pc) : PcOk pc' := by
  cases hturn with
  | granted => exact granted_ok h
  | enough => exact granted_ok h
  | blocked => exact blocked_ok h
  | gone => exact rxNull_ok _ h
  | again => exact restart_ok h
  | arrived => exact restart_ok h
  | refused => exact restart_ok h
  | takenBack => exact restart_ok h
  | woken => exact resume_ok h
  | unacked => exact True.intro
  | running => exact True.intro
  | waits => exact True.intro
  | wakes => exact True.intro
  | _ => exact h

theorem Sized.submit {tag : Nat} {vals : List Nat} (h : Sized e)
    (hvals : tag ≠ umpAckMsgtag → Words vals.length) : Sized (submit x e tag vals).1 := by
  refine ⟨True.intro, h.returned, ?_⟩
  intro p hp
  rcases List.mem_append.mp hp with hp | hp
  · exact h.sent p hp
  · obtain rfl := List.mem_singleton.mp hp
    exact hvals

theorem Sized.goto {c : UmpChan} {pc : Pc} {taken : Nat} (h : Sized e) (hpc : PcOk pc) :
    Sized { e with chan := c, pc := pc, taken := taken } :=
  ⟨hpc, h.returned, h.sent⟩

/-- The payload in hand is returned with the length that was asked for. -/
theorem Sized.hand {words slot : Nat} {got : List Nat} (h : Sized e)
    (hpc : e.pc = .read words slot got) (hge : words ≤ got.length) (needsAck : Bool) :
    Sized { e with
      pc := if needsAck then .sendAck else .idle
      returned := e.returned ++ [got] } := by
  have hold := h.pc
  rw [hpc] at hold
  obtain ⟨hwords, hlen⟩ := hold
  refine ⟨by cases needsAck <;> exact True.intro, ?_, h.sent⟩
  intro got' hgot
  rcases List.mem_append.mp hgot with hgot | hgot
  · exact h.returned got' hgot
  · obtain rfl := List.mem_singleton.mp hgot
    rw [Nat.le_antisymm hlen hge]
    exact hwords

/-- The lengths are kept by every step of an end, whatever it reads. -/
theorem Sized.act (h : Sized e) (hact : Acts x view e e' eff) : Sized e' := by
  have hold := h.pc
  cases hact with
  | turn hturn => exact h.goto (turn_ok hturn hold)
  | hand hpc hge => exact h.hand hpc hge _
  | take hpc =>
    rw [hpc] at hold
    exact h.goto hold
  | header hpc =>
    rw [hpc] at hold
    exact h.goto hold
  | null hpc =>
    rw [hpc] at hold
    exact h.goto (rxNull_ok _ hold)
  | message hpc =>
    rw [hpc] at hold
    exact h.goto (rxMsg_ok _ hold)
  | copy hpc hlt =>
    rw [hpc] at hold
    refine h.goto ⟨hold.1, ?_⟩
    rw [List.length_append, List.length_singleton]
    exact hlt
  | word hpc =>
    rw [hpc] at hold
    exact h.goto hold
  | submit hpc =>
    rw [hpc] at hold
    exact h.submit fun _ => hold
  | ack => exact h.submit fun hne => absurd rfl hne

end Words

section Runs

variable {cfg : Config} {garbage : Loc → Nat} {s s' : State}

/-- What each end keeps, whatever its core reads, holds of both along every run. -/
theorem each_end {I : Bool → End → Prop} (hr : Reachable (next cfg) (init cfg garbage) s)
    (hinit : ∀ x, I x (initEnd cfg x))
    (hcall : ∀ x e op, I x e → e.pc = .idle → I x { e with pc := start op })
    (hacts : ∀ x view e e' eff, I x e → Acts x view e e' eff → I x e')
    (htimeout : cfg.sleepEnabled = true → ∀ x e call, I x e → e.pc = .again call →
      I x { e with pc := .tryWait call }) : ∀ x, I x (s.ends x) := by
  apply hr.invariant (I := fun t => ∀ x, I x (t.ends x)) hinit
  intro t a t' h ht
  have hset : ∀ x e, I x e → ∀ y, I y ((setEnd t x e).ends y) := by
    intro x e he
    refine forall_sides x ?_ ?_
    · rw [setEnd_self]
      exact he
    · rw [setEnd_peer]
      exact h (!x)
  cases next_cases ht with
  | @call x op hidle => exact hset x _ (hcall x _ op (h x) hidle)
  | @step x e eff t' hact hs =>
    rw [perform_ends hs]
    exact hset x _ (hacts x _ _ _ _ (h x) hact)
  | @timeout x call hsleep hpc => exact hset x _ (htimeout hsleep x _ call (h x) hpc)
  | flush => exact h

theorem sized (hr : Reachable (next cfg) (init cfg garbage) s) (x : Bool) : Sized (s.ends x) := by
  apply each_end (I := fun _ e => Sized e) hr
  · exact fun y => ⟨True.intro, fun _ hg => absurd hg List.not_mem_nil,
      fun _ hp => absurd hp List.not_mem_nil⟩
  · exact fun y e op h _ => h.goto (start_ok op)
  · exact fun y view e e' eff h hact => h.act hact
  · intro _ y e call h hpc
    have hcall := h.pc
    rw [hpc] at hcall
    exact h.goto hcall

end Runs

/-- What a dequeue returns of the payload of an enqueue: both have one word or seven, and
they agree on the words that both have. -/
def Carries (got vals : List Nat) : Prop :=
  Words got.length ∧ Words vals.length ∧ Agrees got vals

theorem carries_of_agrees {returned : List (List Nat)} {log : List Packet}
    (h : List.Forall₂ Agrees returned (payloads log)) (hgot : ∀ got ∈ returned, Words got.length)
    (hlog : ∀ p ∈ log, p.tag ≠ umpAckMsgtag → Words p.vals.length) :
    List.Forall₂ Carries returned (payloads log) := by
  have hvals : ∀ vals ∈ payloads log, Words vals.length := by
    intro vals hvals
    obtain ⟨p, hp, rfl⟩ := List.mem_map.mp hvals
    obtain ⟨hmem, htag⟩ := List.mem_filter.mp hp
    exact hlog p hmem (of_decide_eq_true htag)
  generalize payloads log = sent at h hvals
  induction h with
  | nil => exact .nil
  | @cons got vals returned sent hagrees _ ih =>
    have hhead : Carries got vals :=
      ⟨hgot got List.mem_cons_self, hvals vals List.mem_cons_self, hagrees⟩
    exact .cons hhead (ih (fun g hg => hgot g (List.mem_cons_of_mem _ hg))
      fun v hv => hvals v (List.mem_cons_of_mem _ hv))

section Delivery

variable {cfg : Config} {garbage : Loc → Nat} {s : State}

theorem lt_of_ne (hn : ∀ x, cfg.bufmsgs x ≠ 2 ^ 16 - 1) (x : Bool) :
    cfg.bufmsgs x < 2 ^ 16 - 1 := Nat.lt_of_le_of_ne (cfg.le x) (hn x)

/-- In every run, what the dequeue operations of an end return are the payloads that its
peer enqueued, in their order, none lost and none twice; the sender is never more than a
ring ahead; and when the receiver is idle and sees no message, it has returned them all. -/
theorem ump_delivered (hn : ∀ x, cfg.bufmsgs x ≠ 2 ^ 16 - 1)
    (hr : Reachable (next cfg) (init cfg garbage) s) (x : Bool) :
    (∃ k, k ≤ (s.ends (!x)).sent.length ∧
      List.Forall₂ Carries (s.ends x).returned (payloads ((s.ends (!x)).sent.take k))) ∧
    (s.ends (!x)).sent.length ≤ (s.ends x).taken + cfg.bufmsgs (!x) ∧
    ((s.ends x).pc = .idle → s.buffer (!x) = [] →
      canRecv x (settle s.mem (s.buffer x)) (s.ends x) = false →
      List.Forall₂ Carries (s.ends x).returned (payloads (s.ends (!x)).sent)) := by
  have h := invariant (lt_of_ne hn) hr
  have hend := h.ends x
  have hgot := (sized hr x).returned
  have hsent := (sized hr (!x)).sent
  have hcarries : List.Forall₂ Carries (s.ends x).returned
      (payloads ((s.ends (!x)).sent.take (freed (s.ends x)))) :=
    carries_of_agrees hend.delivered hgot fun p hp => hsent p (List.mem_of_mem_take hp)
  have htaken := h.taken_le x
  have hfreed : freed (s.ends x) ≤ (s.ends x).taken := Nat.sub_le _ _
  refine ⟨⟨_, Nat.le_trans hfreed htaken, hcarries⟩, ?_, ?_⟩
  · have hroom := (h.ends (!x)).flow
    have hacked := h.acked_le_freed (!x)
    rw [Bool.not_not] at hroom hacked
    omega
  · intro hidle hbuf hempty
    obtain ⟨visible, hle, hring⟩ := h.incoming x
    have hall : visible = (s.ends (!x)).sent.length := by
      have hpending := hring.pending
      rw [hbuf] at hpending
      cases hpending
      exact entries_length _ _
    have hnot : ¬ (s.ends x).taken < visible := by
      rw [← h.canRecv_iff hring hle, hempty]
      exact Bool.false_ne_true
    have heq : freed (s.ends x) = (s.ends (!x)).sent.length := by
      have hzero : held (s.ends x).pc = 0 := by
        rw [hidle]
        rfl
      rw [freed, hzero]
      omega
    rw [heq, List.take_length] at hcarries
    exact hcarries

end Delivery

/-- Rings of the same size in both directions. -/
def evenRings (n : Nat) (sleepEnabled : Bool) (h : 0 < n ∧ n ≤ 2 ^ 16 - 1) : Config where
  bufmsgs := fun _ => n
  sleepEnabled := sleepEnabled
  pos := fun _ => h.1
  le := fun _ => h.2

theorem two_fit : 0 < 2 ∧ 2 ≤ 2 ^ 16 - 1 := by decide

/-- An end calls an operation, takes `k` steps, and its core's stores reach memory. -/
def operation (x : Bool) (op : Op) (k stores : Nat) : List Action :=
  .call x op :: (List.replicate k (.step x) ++ List.replicate stores (.flush x))

/-- Three messages go one way, over two slots, and one the other way. -/
def bothWays : List Action :=
  operation true (.enqueueWord 5 false) 4 2 ++ operation false (.dequeueWord false) 7 1 ++
    operation true (.enqueueWord 6 false) 4 2 ++ operation false (.dequeueWord false) 7 1 ++
    operation true (.enqueue 1 2 3 4 5 6 7 false) 19 8 ++ operation false (.dequeue false) 13 1 ++
    operation false (.enqueueWord 8 false) 4 2 ++ operation true (.dequeueWord false) 3 0 ++
    operation true (.dequeueWord false) 7 1 ++ operation false (.dequeueWord false) 3 0

def Pc.isIdle : Pc → Bool
  | .idle => true
  | _ => false

theorem eq_idle_of_isIdle {pc : Pc} (h : Pc.isIdle pc = true) : pc = .idle := by
  cases pc <;> first | rfl | cases h

theorem ump_delivered_both_ways :
    ∃ s, Reachable (next (evenRings 2 true two_fit)) (init (evenRings 2 true two_fit) fun _ => 9) s ∧
      (s.ends false).returned = [[5], [6], [1, 2, 3, 4, 5, 6, 7]] ∧ (s.ends true).returned = [[8]] ∧
      ∀ x, (s.ends (!x)).sent.length ≤ (s.ends x).taken + 2 ∧
        List.Forall₂ Carries (s.ends x).returned (payloads (s.ends (!x)).sent) := by
  have hend : ((run (next (evenRings 2 true two_fit)) (init (evenRings 2 true two_fit) fun _ => 9)
      bothWays).map fun s => ((s.ends false).returned, (s.ends true).returned,
        [false, true].all fun x => Pc.isIdle (s.ends x).pc && (s.buffer (!x)).isEmpty &&
          !canRecv x (settle s.mem (s.buffer x)) (s.ends x))) =
        some ([[5], [6], [1, 2, 3, 4, 5, 6, 7]], [[8]], true) := by decide +kernel
  obtain ⟨s, hrun, hs⟩ := Option.map_eq_some_iff.mp hend
  obtain ⟨hfalse, hs⟩ := Prod.mk.inj hs
  obtain ⟨htrue, hrest⟩ := Prod.mk.inj hs
  have hr : Reachable (next (evenRings 2 true two_fit)) (init (evenRings 2 true two_fit) fun _ => 9)
      s := ⟨bothWays, hrun⟩
  refine ⟨s, hr, hfalse, htrue, fun x => ?_⟩
  have hx := List.all_eq_true.mp hrest x (by cases x <;> decide)
  simp only [Bool.and_eq_true, Bool.not_eq_true', List.isEmpty_iff] at hx
  obtain ⟨⟨hidle, hbuf⟩, hempty⟩ := hx
  obtain ⟨-, hring, hall⟩ := ump_delivered (by decide) hr x
  exact ⟨hring, hall (eq_idle_of_isIdle hidle) hbuf hempty⟩

section Overflow

variable {cfg : Config} {garbage : Loc → Nat} {s : State} {x : Bool} {k : Nat}

/-- The state with another end and another buffer on one side. -/
def side (s : State) (x : Bool) (e : End) (buf : List (Loc × Nat)) : State :=
  { s with buffer := Function.update s.buffer x buf, ends := Function.update s.ends x e }

theorem next_local {e e' : End} {buf : List (Loc × Nat)}
    (hact : act x (settle s.mem buf) e = some (e', .none)) :
    next cfg (side s x e buf) (.step x) = some (side s x e' buf) := by
  unfold next side setEnd
  dsimp only
  rw [Function.update_self, Function.update_self, hact, Option.bind_some, perform,
    Function.update_idem]

theorem next_store {e e' : End} {buf : List (Loc × Nat)} {l : Loc} {v : Nat}
    (hact : act x (settle s.mem buf) e = some (e', .store l v)) :
    next cfg (side s x e buf) (.step x) = some (side s x e' (buf ++ [(l, v)])) := by
  unfold next side setEnd
  dsimp only
  rw [Function.update_self, Function.update_self, hact, Option.bind_some, perform]
  dsimp only
  rw [Function.update_idem, Function.update_self, Function.update_idem]

/-- An end has sent `k` messages that wait in its buffer, and its peer has done nothing. -/
structure Sending (cfg : Config) (garbage : Loc → Nat) (x : Bool) (s : State) (k : Nat) : Prop where
  idle : (s.ends x).pc = .idle
  length : (s.ends x).sent.length = k
  bufmsgs : (s.ends x).chan.tx.bufmsgs = cfg.bufmsgs x
  running : settle s.mem (s.buffer x) .wakeState = umpRunning
  mem : s.mem = initMem garbage
  flags : s.wakeup = fun _ => false
  peer : s.ends (!x) = initEnd cfg (!x)
  peer_buffer : s.buffer (!x) = []

theorem sending_init (cfg : Config) (garbage : Loc → Nat) (x : Bool) :
    Sending cfg garbage x (init cfg garbage) 0 := ⟨rfl, rfl, rfl, rfl, rfl, rfl, rfl, rfl⟩

theorem advance_bufmsgs (c : UmpPos) : c.advance.bufmsgs = c.bufmsgs := by
  unfold UmpPos.advance
  dsimp only
  split <;> rfl

/-- With the largest ring the sequence numbers always leave room. -/
theorem Sending.canSend (h : Sending cfg garbage x s k) (hx : cfg.bufmsgs x = 2 ^ 16 - 1) :
    umpChanCanSend (s.ends x).chan = true := by
  have hlt := umpIndex_lt ((s.ends x).chan.nextId + 2 ^ umpIndexBits - (s.ends x).chan.ackId)
  rw [umpChanCanSend, decide_eq_true_eq, h.bufmsgs, hx, umpIndexSub]
  omega

/-- One more message, to a peer that does not receive. -/
theorem Sending.send (h : Sending cfg garbage x s k)
    (hcan : umpChanCanSend (s.ends x).chan = true) {start : State}
    (hr : Reachable (next cfg) start s) :
    ∃ s', Reachable (next cfg) start s' ∧ Sending cfg garbage x s' (k + 1) := by
  have hpc := h.idle
  have hrunning := h.running
  have hwake : ∀ i w, Loc.wakeState ≠ .slot x i w := fun _ _ => Loc.noConfusion
  generalize he : s.ends x = e at hcan hpc
  generalize hb : s.buffer x = buf at hrunning
  let word := (Loc.slot x e.chan.tx.pos 1, 0)
  let control := (Loc.slot x e.chan.tx.pos 0, umpChanTxControl e.chan 0)
  let sent := (submit x { e with pc := .fill [0] 1 } 0 [0]).1
  have hcall : next cfg s (.call x (.enqueueWord 0 false)) =
      some (side s x { e with pc := .canSend (.enqueue [0] .nonblock) } buf) := by
    unfold next side setEnd
    dsimp only
    rw [he, hpc, ← hb, Function.update_eq_self]
    rfl
  have hgrant : next cfg (side s x { e with pc := .canSend (.enqueue [0] .nonblock) } buf) (.step x) =
      some (side s x { e with pc := .fill [0] 0 } buf) := by
    apply next_local
    unfold act
    dsimp only
    rw [if_pos hcan]
    rfl
  have hfill : next cfg (side s x { e with pc := .fill [0] 0 } buf) (.step x) =
      some (side s x { e with pc := .fill [0] 1 } (buf ++ [word])) := next_store rfl
  have hsubmit : next cfg (side s x { e with pc := .fill [0] 1 } (buf ++ [word])) (.step x) =
      some (side s x sent (buf ++ [word] ++ [control])) := next_store rfl
  have hrunning' : settle s.mem (buf ++ [word] ++ [control]) .wakeState = umpRunning := by
    rw [settle_push, Function.update_of_ne (hwake _ _), settle_push,
      Function.update_of_ne (hwake _ _)]
    exact hrunning
  have hidle : next cfg (side s x sent (buf ++ [word] ++ [control])) (.step x) =
      some (side s x { sent with pc := .idle } (buf ++ [word] ++ [control])) := by
    apply next_local
    unfold act
    dsimp only [sent, submit]
    rw [if_pos hrunning']
  refine ⟨_, ((((hr.step hcall).step hgrant).step hfill).step hsubmit).step hidle, ?_⟩
  have hlength := h.length
  have hbufmsgs := h.bufmsgs
  rw [he] at hlength hbufmsgs
  unfold side
  constructor
  · dsimp only
    rw [Function.update_self]
  · dsimp only
    rw [Function.update_self, ← hlength]
    exact List.length_append
  · dsimp only
    rw [Function.update_self, ← hbufmsgs]
    exact advance_bufmsgs e.chan.tx
  · dsimp only
    rw [Function.update_self]
    exact hrunning'
  · exact h.mem
  · exact h.flags
  · dsimp only
    rw [Function.update_of_ne (Bool.not_ne_self x)]
    exact h.peer
  · dsimp only
    rw [Function.update_of_ne (Bool.not_ne_self x)]
    exact h.peer_buffer

theorem sends_forever (hx : cfg.bufmsgs x = 2 ^ 16 - 1) (garbage : Loc → Nat) (k : Nat) :
    ∃ s, Reachable (next cfg) (init cfg garbage) s ∧ Sending cfg garbage x s k := by
  induction k with
  | zero => exact ⟨_, Foundation.Machine.Reachable.refl _, sending_init cfg garbage x⟩
  | succ k ih =>
    obtain ⟨s, hr, hs⟩ := ih
    exact hs.send (hs.canSend hx) hr

/-- The sequence numbers keep each sender within a ring of its receiver exactly if neither
ring has the largest size that the initialisers accept. -/
theorem flow_control_iff (cfg : Config) :
    (∀ garbage s, Reachable (next cfg) (init cfg garbage) s →
      ∀ x, (s.ends x).sent.length ≤ (s.ends (!x)).taken + cfg.bufmsgs x) ↔
    ∀ x, cfg.bufmsgs x ≠ 2 ^ 16 - 1 := by
  constructor
  · intro h x hx
    obtain ⟨s, hr, hs⟩ := sends_forever hx (fun _ => 0) (2 ^ 16)
    have hle := h _ s hr x
    rw [hs.length, hs.peer, hx] at hle
    change 2 ^ 16 ≤ 0 + _ at hle
    omega
  · intro hn garbage s hr x
    have hinv := invariant (lt_of_ne hn) hr
    have hroom := (hinv.ends x).flow
    have hacked := hinv.acked_le_freed x
    have hfreed : freed (s.ends (!x)) ≤ (s.ends (!x)).taken := Nat.sub_le _ _
    omega

end Overflow

end SmeltConsensus.UmpQueue.Delivery
