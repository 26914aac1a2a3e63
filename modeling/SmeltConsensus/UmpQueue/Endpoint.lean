import SmeltConsensus.Foundation.Machine
import SmeltConsensus.Foundation.StoreBuffer
import SmeltConsensus.UmpQueue.Channel

/-!
The queue operations on the two ends of a channel, one shared access a step. Stores wait
in the buffer of the core that issued them; a compare-and-swap, and the mutex around the
wake-up flag, first empty it.
-/

set_option autoImplicit false
set_option relaxedAutoImplicit false

namespace SmeltConsensus.UmpQueue.Endpoint

open SmeltConsensus.Foundation.StoreBuffer (settle)
open SmeltConsensus.UmpQueue.Channel

/-- Shared memory: word `w` of slot `i` in the ring that an end sends on (word 0 is the
control word), and the wake state. -/
inductive Loc
  | slot (side : Bool) (i w : Nat)
  | wakeState
  deriving DecidableEq

/-- `UMP_RUNNING` -/
def umpRunning : Nat := 0

/-- `UMP_WAIT_0` for the end with the discriminant, else `UMP_WAIT_1`. -/
def umpWait (discriminant : Bool) : Nat := if discriminant then 1 else 2

/-- Where an operation stands: one attempt, the first attempt of a blocking operation, the
polling after it, or the attempt after waking up. -/
inductive Mode
  | nonblock
  | first
  | busy
  | woken

/-- An operation in progress. `retry` is the attempt that ends a blocking enqueue. -/
inductive Call
  | enqueue (vals : List Nat) (mode : Mode)
  | retry (vals : List Nat)
  | dequeue (words : Nat) (mode : Mode)

/-- The assertions of `ump_queue.c` that can fail. -/
inductive Assert
  /-- `can_enqueue`: what arrives is just an acknowledgement. -/
  | msgNull
  /-- `can_enqueue`: it leaves space in the channel. -/
  | canSend
  /-- `ump_dequeue_nonblock`: the acknowledgement is sent. -/
  | acked
  /-- `ump_enqueue`: the last attempt succeeds. -/
  | enqueued

inductive Pc
  | idle
  /-- `can_enqueue`, before the loop. -/
  | canSend (call : Call)
  /-- `ump_chan_can_recv` in the loop of `can_enqueue`. -/
  | poll (call : Call) (sawAck : Bool)
  /-- `ump_rxchan_recv` -/
  | recv (call : Call)
  /-- The header of the message in this slot, for what it acknowledges. -/
  | header (call : Call) (slot : Nat)
  /-- The header again, for the tag. -/
  | tag (call : Call) (slot : Nat)
  /-- The payload, as far as it has been copied. -/
  | read (words slot : Nat) (got : List Nat)
  /-- The next word of the payload to store, or the control word after them. -/
  | fill (vals : List Nat) (k : Nat)
  /-- `ump_chan_send_ack` -/
  | sendAck
  /-- The wake state, after a message was sent. -/
  | checkWake
  /-- `ump_wake_peer` -/
  | wakePeer
  /-- A blocking operation that has polled in vain. -/
  | again (call : Call)
  /-- `ump_chan_try_wait`, its three steps. -/
  | tryWait (call : Call)
  | cas (call : Call)
  | recheck (call : Call)
  /-- `ump_sleep` -/
  | sleep (call : Call)
  /-- `ump_chan_wakeup` -/
  | wakeup (call : Call)
  | failed (a : Assert)

/-- A message as its sender knows it: the tag, how many messages it acknowledges, and the
words of the payload. -/
structure Packet where
  tag : Nat
  acked : Nat
  vals : List Nat

/-- One end: its state, its program, the messages it has sent, how many it has taken from
the other ring, and what its dequeue operations have returned. -/
structure End where
  chan : UmpChan
  pc : Pc
  sent : List Packet
  taken : Nat
  returned : List (List Nat)

/-- What a step does to memory and to the wake-up flags. -/
inductive Effect
  | none
  | store (l : Loc) (v : Nat)
  | fence
  | swap (l : Loc) (v : Nat)
  | signal
  | await

/-- The queue operations; `block` tells the plain ones from those named `nonblock`. -/
inductive Op
  | enqueueWord (val : Nat) (block : Bool)
  | enqueue (val1 val2 val3 val4 val5 val6 val7 : Nat) (block : Bool)
  | dequeueWord (block : Bool)
  | dequeue (block : Bool)

def firstMode (block : Bool) : Mode := if block then .first else .nonblock

def start : Op → Pc
  | .enqueueWord val block => .canSend (.enqueue [val] (firstMode block))
  | .enqueue val1 val2 val3 val4 val5 val6 val7 block =>
      .canSend (.enqueue [val1, val2, val3, val4, val5, val6, val7] (firstMode block))
  | .dequeueWord block => .recv (.dequeue 1 (firstMode block))
  | .dequeue block => .recv (.dequeue umpPayloadWords (firstMode block))

/-- The polling of a blocking operation. -/
def restart : Call → Pc
  | .enqueue vals _ => .canSend (.enqueue vals .busy)
  | .retry vals => .canSend (.enqueue vals .busy)
  | .dequeue words _ => .recv (.dequeue words .busy)

/-- The attempt would block. -/
def blocked : Call → Pc
  | .enqueue _ .nonblock => .idle
  | .enqueue vals .first => restart (.enqueue vals .first)
  | .enqueue vals .busy => .again (.enqueue vals .busy)
  | .enqueue vals .woken => restart (.enqueue vals .woken)
  | .retry _ => .failed .enqueued
  | .dequeue _ .nonblock => .idle
  | .dequeue words .first => restart (.dequeue words .first)
  | .dequeue words .busy => .again (.dequeue words .busy)
  | .dequeue words .woken => restart (.dequeue words .woken)

/-- `can_enqueue` returns true: an attempt goes on with the message, the polling with the
last attempt. -/
def granted : Call → Pc
  | .enqueue vals .nonblock => .fill vals 0
  | .enqueue vals .first => .fill vals 0
  | .enqueue vals .busy => .canSend (.retry vals)
  | .enqueue vals .woken => .canSend (.retry vals)
  | .retry vals => .fill vals 0
  | .dequeue _ _ => .idle

/-- After `ump_chan_wakeup`. -/
def resume : Call → Pc
  | .enqueue vals _ => .canSend (.enqueue vals .woken)
  | .retry vals => .canSend (.enqueue vals .woken)
  | .dequeue words _ => .recv (.dequeue words .woken)

def Call.isDequeue : Call → Bool
  | .dequeue _ _ => true
  | _ => false

/-- `can_enqueue` after a received acknowledgement. -/
def afterAck (c : UmpChan) (call : Call) : Pc :=
  if umpChanCanSend c then .poll call true else .failed .canSend

/-- `ump_chan_rx` returns NULL. -/
def rxNull (c : UmpChan) (call : Call) : Pc :=
  if call.isDequeue then blocked call else afterAck c call

/-- `ump_chan_rx` returns a message. -/
def rxMsg (call : Call) (slot : Nat) : Pc :=
  match call with
  | .dequeue words _ => .read words slot []
  | _ => .failed .msgNull

/-- `ump_chan_tx_submit_unchecked`, as far as the control word. -/
def submit (x : Bool) (e : End) (msgtag : Nat) (vals : List Nat) : End × Effect :=
  ({ e with
      chan := umpChanTxSubmit e.chan
      pc := .checkWake
      sent := e.sent ++ [⟨msgtag, e.taken, vals⟩] },
    .store (.slot x e.chan.tx.pos 0) (umpChanTxControl e.chan msgtag))

/-- The control word at the receive position has the epoch of the next message. -/
def canRecv (x : Bool) (view : Loc → Nat) (e : End) : Bool :=
  umpRxchanCanRecv e.chan.rx (view (.slot (!x) e.chan.rx.pos 0))

/-- The next step of an end, given what its core reads. -/
def act (x : Bool) (view : Loc → Nat) (e : End) : Option (End × Effect) :=
  match e.pc with
  | .idle => none
  | .canSend call =>
      if umpChanCanSend e.chan then some ({ e with pc := granted call }, .none)
      else some ({ e with pc := .poll call false }, .none)
  | .poll call sawAck =>
      if canRecv x view e then some ({ e with pc := .recv call }, .none)
      else if sawAck then some ({ e with pc := granted call }, .none)
      else some ({ e with pc := blocked call }, .none)
  | .recv call =>
      if canRecv x view e then
        some ({ e with
          chan := umpRxchanRecv e.chan
          pc := .header call e.chan.rx.pos
          taken := e.taken + 1 }, .none)
      else some ({ e with pc := rxNull e.chan call }, .none)
  | .header call slot =>
      let raw := view (.slot (!x) slot 0)
      some ({ e with chan := umpChanRxAckId e.chan raw, pc := .tag call slot }, .none)
  | .tag call slot =>
      let chan := umpChanRxCount e.chan
      if umpChanRxMsgtag (view (.slot (!x) slot 0)) = umpAckMsgtag then
        some ({ e with chan := chan, pc := rxNull chan call }, .none)
      else some ({ e with chan := chan, pc := rxMsg call slot }, .none)
  | .read words slot got =>
      if got.length < words then
        let w := view (.slot (!x) slot (got.length + 1))
        some ({ e with pc := .read words slot (got ++ [w]) }, .none)
      else
        some ({ e with
          pc := if umpChanNeedsAck e.chan then .sendAck else .idle
          returned := e.returned ++ [got] }, .none)
  | .fill vals k =>
      match vals[k]? with
      | some v => some ({ e with pc := .fill vals (k + 1) }, .store (.slot x e.chan.tx.pos (k + 1)) v)
      | none => some (submit x e 0 vals)
  | .sendAck =>
      if umpChanCanSend e.chan then some (submit x e umpAckMsgtag [])
      else some ({ e with pc := .failed .acked }, .none)
  | .checkWake =>
      -- the assertion on the wake state compares it with the discriminant and cannot fail
      if view .wakeState = umpRunning then some ({ e with pc := .idle }, .none)
      else some ({ e with pc := .wakePeer }, .none)
  | .wakePeer => some ({ e with pc := .idle }, .signal)
  | .again call => some ({ e with pc := restart call }, .none)
  | .tryWait call =>
      if canRecv x view e then some ({ e with pc := restart call }, .none)
      else some ({ e with pc := .cas call }, .none)
  | .cas call =>
      if view .wakeState = umpRunning then
        some ({ e with pc := .recheck call }, .swap .wakeState (umpWait e.chan.discriminant))
      else some ({ e with pc := restart call }, .fence)
  | .recheck call =>
      if canRecv x view e then some ({ e with pc := restart call }, .store .wakeState umpRunning)
      else some ({ e with pc := .sleep call }, .none)
  | .sleep call => some ({ e with pc := .wakeup call }, .await)
  | .wakeup call => some ({ e with pc := resume call }, .store .wakeState umpRunning)
  | .failed _ => none

/-- A step of an end that only goes on elsewhere in its operation, with what it does to
memory and to the wake-up flags. -/
inductive Turn (x : Bool) (view : Loc → Nat) (e : End) : Pc → Pc → Effect → Prop
  | granted {call : Call} (hroom : umpChanCanSend e.chan = true) :
      Turn x view e (.canSend call) (granted call) .none
  | full {call : Call} (hfull : umpChanCanSend e.chan = false) :
      Turn x view e (.canSend call) (.poll call false) .none
  | found {call : Call} {sawAck : Bool} (hrecv : canRecv x view e = true) :
      Turn x view e (.poll call sawAck) (.recv call) .none
  | enough {call : Call} : Turn x view e (.poll call true) (granted call) .none
  | blocked {call : Call} : Turn x view e (.poll call false) (blocked call) .none
  | gone {call : Call} (hempty : canRecv x view e = false) :
      Turn x view e (.recv call) (rxNull e.chan call) .none
  | unacked (hfull : umpChanCanSend e.chan = false) :
      Turn x view e .sendAck (.failed .acked) .none
  | running (hrunning : view .wakeState = umpRunning) : Turn x view e .checkWake .idle .none
  | waits : Turn x view e .checkWake .wakePeer .none
  | wakes : Turn x view e .wakePeer .idle .signal
  | again {call : Call} : Turn x view e (.again call) (restart call) .none
  | arrived {call : Call} : Turn x view e (.tryWait call) (restart call) .none
  | empty {call : Call} : Turn x view e (.tryWait call) (.cas call) .none
  | swapped {call : Call} (hrunning : view .wakeState = umpRunning) :
      Turn x view e (.cas call) (.recheck call) (.swap .wakeState (umpWait e.chan.discriminant))
  | refused {call : Call} : Turn x view e (.cas call) (restart call) .fence
  | takenBack {call : Call} :
      Turn x view e (.recheck call) (restart call) (.store .wakeState umpRunning)
  | asleep {call : Call} (hempty : canRecv x view e = false) :
      Turn x view e (.recheck call) (.sleep call) .none
  | awaited {call : Call} : Turn x view e (.sleep call) (.wakeup call) .await
  | woken {call : Call} : Turn x view e (.wakeup call) (resume call) (.store .wakeState umpRunning)

/-- Everything that a step of an end can do. -/
inductive Acts (x : Bool) (view : Loc → Nat) (e : End) : End → Effect → Prop
  | turn {pc : Pc} {eff : Effect} (h : Turn x view e e.pc pc eff) :
      Acts x view e { e with pc := pc } eff
  | take {call : Call} (hpc : e.pc = .recv call) (hrecv : canRecv x view e = true) :
      Acts x view e { e with
        chan := umpRxchanRecv e.chan
        pc := .header call e.chan.rx.pos
        taken := e.taken + 1 } .none
  | header {call : Call} {slot : Nat} (hpc : e.pc = .header call slot) :
      Acts x view e { e with
        chan := umpChanRxAckId e.chan (view (.slot (!x) slot 0))
        pc := .tag call slot } .none
  | null {call : Call} {slot : Nat} (hpc : e.pc = .tag call slot)
      (hack : umpChanRxMsgtag (view (.slot (!x) slot 0)) = umpAckMsgtag) :
      Acts x view e { e with
        chan := umpChanRxCount e.chan
        pc := rxNull (umpChanRxCount e.chan) call } .none
  | message {call : Call} {slot : Nat} (hpc : e.pc = .tag call slot)
      (hdata : umpChanRxMsgtag (view (.slot (!x) slot 0)) ≠ umpAckMsgtag) :
      Acts x view e { e with chan := umpChanRxCount e.chan, pc := rxMsg call slot } .none
  | copy {words slot : Nat} {got : List Nat} (hpc : e.pc = .read words slot got)
      (hlt : got.length < words) :
      Acts x view e { e with
        pc := .read words slot (got ++ [view (.slot (!x) slot (got.length + 1))]) } .none
  | hand {words slot : Nat} {got : List Nat} (hpc : e.pc = .read words slot got)
      (hge : words ≤ got.length) :
      Acts x view e { e with
        pc := if umpChanNeedsAck e.chan then .sendAck else .idle
        returned := e.returned ++ [got] } .none
  | word {vals : List Nat} {k v : Nat} (hpc : e.pc = .fill vals k) (hv : vals[k]? = some v) :
      Acts x view e { e with pc := .fill vals (k + 1) } (.store (.slot x e.chan.tx.pos (k + 1)) v)
  | submit {vals : List Nat} {k : Nat} (hpc : e.pc = .fill vals k) (hall : vals[k]? = none) :
      Acts x view e (submit x e 0 vals).1 (submit x e 0 vals).2
  | ack (hpc : e.pc = .sendAck) (hroom : umpChanCanSend e.chan = true) :
      Acts x view e (submit x e umpAckMsgtag []).1 (submit x e umpAckMsgtag []).2

theorem act_cases {x : Bool} {view : Loc → Nat} {e : End} {r : End × Effect}
    (hact : act x view e = some r) : Acts x view e r.1 r.2 := by
  have hturn : ∀ {pc pc' : Pc} {eff : Effect}, e.pc = pc → Turn x view e pc pc' eff →
      some ({ e with pc := pc' }, eff) = some r → Acts x view e r.1 r.2 := by
    intro pc pc' eff hpc h hr
    obtain rfl := Option.some.inj hr
    subst hpc
    exact .turn h
  unfold act at hact
  cases hpc : e.pc <;> rw [hpc] at hact <;> dsimp only at hact
  case idle => cases hact
  case failed => cases hact
  case canSend call =>
    split at hact
    case isTrue hroom => exact hturn hpc (.granted hroom) hact
    case isFalse hfull => exact hturn hpc (.full (Bool.eq_false_iff.mpr hfull)) hact
  case poll call sawAck =>
    split at hact
    case isTrue hrecv => exact hturn hpc (.found hrecv) hact
    case isFalse =>
      cases sawAck with
      | true => exact hturn hpc .enough hact
      | false => exact hturn hpc .blocked hact
  case recv call =>
    split at hact
    case isTrue hrecv =>
      obtain rfl := Option.some.inj hact
      exact .take hpc hrecv
    case isFalse hempty => exact hturn hpc (.gone (Bool.eq_false_iff.mpr hempty)) hact
  case header call slot =>
    obtain rfl := Option.some.inj hact
    exact .header hpc
  case tag call slot =>
    split at hact <;> obtain rfl := Option.some.inj hact
    case isTrue hack => exact .null hpc hack
    case isFalse hdata => exact .message hpc hdata
  case read words slot got =>
    split at hact <;> obtain rfl := Option.some.inj hact
    case isTrue hlt => exact .copy hpc hlt
    case isFalse hge => exact .hand hpc (Nat.le_of_not_lt hge)
  case fill vals k =>
    split at hact <;> obtain rfl := Option.some.inj hact
    case h_1 v hv => exact .word hpc hv
    case h_2 hall => exact .submit hpc hall
  case sendAck =>
    split at hact
    case isTrue hroom =>
      obtain rfl := Option.some.inj hact
      exact .ack hpc hroom
    case isFalse hfull => exact hturn hpc (.unacked (Bool.eq_false_iff.mpr hfull)) hact
  case checkWake =>
    split at hact
    case isTrue hrunning => exact hturn hpc (.running hrunning) hact
    case isFalse => exact hturn hpc .waits hact
  case wakePeer => exact hturn hpc .wakes hact
  case again call => exact hturn hpc .again hact
  case tryWait call =>
    split at hact
    · exact hturn hpc .arrived hact
    · exact hturn hpc .empty hact
  case cas call =>
    split at hact
    case isTrue hrunning => exact hturn hpc (.swapped hrunning) hact
    case isFalse => exact hturn hpc .refused hact
  case recheck call =>
    split at hact
    case isTrue => exact hturn hpc .takenBack hact
    case isFalse hempty => exact hturn hpc (.asleep (Bool.eq_false_iff.mpr hempty)) hact
  case sleep call => exact hturn hpc .awaited hact
  case wakeup call => exact hturn hpc .woken hact

/-- The sizes of the two rings, in messages, as the initialisers accept them, and whether
blocking operations sleep. -/
structure Config where
  bufmsgs : Bool → Nat
  sleepEnabled : Bool
  pos : ∀ x, 0 < bufmsgs x
  le : ∀ x, bufmsgs x ≤ 2 ^ 16 - 1

/-- Memory, the buffers of the two cores, the flags of the wake contexts that the ends
sleep on, and the ends. -/
structure State where
  mem : Loc → Nat
  buffer : Bool → List (Loc × Nat)
  wakeup : Bool → Bool
  ends : Bool → End

def perform (s : State) (x : Bool) : Effect → Option State
  | .none => some s
  | .store l v => some { s with buffer := Function.update s.buffer x (s.buffer x ++ [(l, v)]) }
  | .fence => if s.buffer x = [] then some s else none
  | .swap l v => if s.buffer x = [] then some { s with mem := Function.update s.mem l v } else none
  | .signal =>
      if s.buffer x = [] then some { s with wakeup := Function.update s.wakeup (!x) true } else none
  | .await =>
      if s.buffer x = [] ∧ s.wakeup x = true then
        some { s with wakeup := Function.update s.wakeup x false }
      else none

inductive Action
  | call (x : Bool) (op : Op)
  | step (x : Bool)
  | timeout (x : Bool)
  | flush (x : Bool)

def setEnd (s : State) (x : Bool) (e : End) : State :=
  { s with ends := Function.update s.ends x e }

def next (cfg : Config) (s : State) : Action → Option State
  | .call x op =>
      match (s.ends x).pc with
      | .idle => some (setEnd s x { s.ends x with pc := start op })
      | _ => none
  | .step x =>
      (act x (settle s.mem (s.buffer x)) (s.ends x)).bind fun r => perform (setEnd s x r.1) x r.2
  | .timeout x =>
      match (s.ends x).pc with
      | .again call =>
          if cfg.sleepEnabled then some (setEnd s x { s.ends x with pc := .tryWait call }) else none
      | _ => none
  | .flush x =>
      match s.buffer x with
      | [] => none
      | (l, v) :: rest =>
          some { s with
            mem := Function.update s.mem l v
            buffer := Function.update s.buffer x rest }

/-- Everything that a step of the channel can do. -/
inductive Moves (cfg : Config) (s : State) : Action → State → Prop
  | call {x : Bool} {op : Op} (hidle : (s.ends x).pc = .idle) :
      Moves cfg s (.call x op) (setEnd s x { s.ends x with pc := start op })
  | step {x : Bool} {e : End} {eff : Effect} {s' : State}
      (hact : Acts x (settle s.mem (s.buffer x)) (s.ends x) e eff)
      (hs : perform (setEnd s x e) x eff = some s') : Moves cfg s (.step x) s'
  | timeout {x : Bool} {call : Call} (hsleep : cfg.sleepEnabled = true)
      (hpc : (s.ends x).pc = .again call) :
      Moves cfg s (.timeout x) (setEnd s x { s.ends x with pc := .tryWait call })
  | flush {x : Bool} {l : Loc} {v : Nat} {rest : List (Loc × Nat)}
      (hbuf : s.buffer x = (l, v) :: rest) :
      Moves cfg s (.flush x) { s with
        mem := Function.update s.mem l v
        buffer := Function.update s.buffer x rest }

theorem next_cases {cfg : Config} {s s' : State} {a : Action} (hs : next cfg s a = some s') :
    Moves cfg s a s' := by
  cases a with
  | call x op =>
    unfold next at hs
    dsimp only at hs
    split at hs
    case h_1 hidle =>
      obtain rfl := Option.some.inj hs
      exact .call hidle
    case h_2 => cases hs
  | step x =>
    obtain ⟨r, hact, hs⟩ := Option.bind_eq_some_iff.mp hs
    exact .step (act_cases hact) hs
  | timeout x =>
    unfold next at hs
    dsimp only at hs
    split at hs
    case h_1 call hpc =>
      obtain ⟨hsleep, hs⟩ := Option.ite_none_right_eq_some.mp hs
      obtain rfl := Option.some.inj hs
      exact .timeout hsleep hpc
    case h_2 => cases hs
  | flush x =>
    unfold next at hs
    dsimp only at hs
    split at hs
    case h_1 => cases hs
    case h_2 hbuf =>
      obtain rfl := Option.some.inj hs
      exact .flush hbuf

/-- Memory at the start: the control words are zeroed, the payload is not. -/
def initMem (garbage : Loc → Nat) : Loc → Nat
  | .slot _ _ 0 => 0
  | .wakeState => umpRunning
  | l => garbage l

def initEnd (cfg : Config) (x : Bool) : End where
  chan := umpChanNew ⟨0, cfg.bufmsgs x, true⟩ ⟨0, cfg.bufmsgs (!x), true⟩ x
  pc := .idle
  sent := []
  taken := 0
  returned := []

def init (cfg : Config) (garbage : Loc → Nat) : State where
  mem := initMem garbage
  buffer := fun _ => []
  wakeup := fun _ => false
  ends := initEnd cfg

end SmeltConsensus.UmpQueue.Endpoint
