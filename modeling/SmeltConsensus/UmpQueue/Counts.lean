import Mathlib.Data.List.Forall2
import SmeltConsensus.UmpQueue.Endpoint

/-!
What the private state of an end says about the messages sent and received: positions and
16-bit numbers stand for counts, and the test of the numbers is a test of the counts.
-/

set_option autoImplicit false
set_option relaxedAutoImplicit false

namespace SmeltConsensus.UmpQueue.Counts

open SmeltConsensus.Foundation.StoreBuffer
open SmeltConsensus.UmpQueue.Channel
open SmeltConsensus.UmpQueue.Endpoint

section Counts

/-- The epoch of message `k`: it changes from lap to lap. -/
def epochOf (n k : Nat) : Bool := decide (k / n % 2 = 0)

/-- The position after `k` messages. -/
def place (n k : Nat) : UmpPos := ⟨k % n, n, epochOf n k⟩

variable {n k : Nat}

theorem epochOf_lap (hn : 0 < n) : epochOf n (k + n) = !epochOf n k := by
  unfold epochOf
  rw [Nat.add_div_right k hn, ← decide_not, decide_eq_decide]
  omega

theorem epochOf_first (hlt : k < n) : epochOf n k = true := by
  rw [epochOf, Nat.div_eq_of_lt hlt]
  rfl

theorem advance_place (hn : 0 < n) (hle : n ≤ 2 ^ 16 - 1) : (place n k).advance = place n (k + 1) := by
  have hlt := Nat.mod_lt k hn
  have hindex : umpIndex (k % n + 1) = k % n + 1 := Nat.mod_eq_of_lt (by rw [umpIndexBits]; omega)
  unfold UmpPos.advance place
  dsimp only
  rw [hindex]
  by_cases hlast : k % n + 1 = n
  · obtain ⟨hmod, hdiv⟩ := Foundation.RingLog.last_of_lap hn hlast
    rw [if_pos hlast, hmod]
    unfold epochOf
    rw [hdiv, ← decide_not, UmpPos.mk.injEq, decide_eq_decide]
    exact ⟨rfl, rfl, by omega⟩
  · obtain ⟨hmod, hdiv⟩ := Foundation.RingLog.within_lap (n := n) (k := k) (by omega)
    rw [if_neg hlast, hmod, epochOf, epochOf, hdiv]

end Counts

section Log

/-- The control word of message `k`. -/
def control (n k : Nat) (p : Packet) : Nat :=
  (UmpControl.mk (epochOf n k) (umpHeader p.tag (umpIndex p.acked))).raw

/-- The messages as they lie in the ring. -/
def entries (n : Nat) (sent : List Packet) : List (Nat × List Nat) :=
  sent.mapIdx fun k p => (control n k p, p.vals)

/-- How many messages the first `k` of a log acknowledge. -/
def acked (log : List Packet) : Nat → Nat
  | 0 => 0
  | k + 1 => (log[k]?.map Packet.acked).getD 0

/-- The payloads of the messages that are not just acknowledgements. -/
def payloads (log : List Packet) : List (List Nat) :=
  (log.filter fun p => p.tag ≠ umpAckMsgtag).map Packet.vals

/-- A read payload is the stored one, on the words that both have. -/
def Agrees (got vals : List Nat) : Prop :=
  ∀ j w v : Nat, got[j]? = some w → vals[j]? = some v → w = v

variable {log : List Packet} {p : Packet}

theorem entries_length (n : Nat) (sent : List Packet) : (entries n sent).length = sent.length :=
  List.length_mapIdx

theorem entries_push (n : Nat) (sent : List Packet) (p : Packet) :
    entries n (sent ++ [p]) = entries n sent ++ [(control n sent.length p, p.vals)] :=
  List.mapIdx_concat

theorem entries_getElem? {n k : Nat} {sent : List Packet} (hk : sent[k]? = some p) :
    (entries n sent)[k]? = some (control n k p, p.vals) := by
  rw [entries, List.getElem?_mapIdx, hk]
  rfl

theorem acked_succ {k : Nat} (hk : log[k]? = some p) : acked log (k + 1) = p.acked := by
  rw [acked, hk]
  rfl

theorem acked_push {k : Nat} (hk : k ≤ log.length) : acked (log ++ [p]) k = acked log k := by
  cases k with
  | zero => rfl
  | succ k => rw [acked, acked, List.getElem?_append_left hk]

theorem acked_push_self : acked (log ++ [p]) (log.length + 1) = p.acked :=
  acked_succ List.getElem?_concat_length

theorem acked_le {k bound : Nat} (h : ∀ q ∈ log, q.acked ≤ bound) : acked log k ≤ bound := by
  cases k with
  | zero => exact Nat.zero_le _
  | succ k =>
    rw [acked]
    cases hk : log[k]? with
    | none => exact Nat.zero_le _
    | some q => exact h q (List.mem_of_getElem? hk)

theorem acked_mono {k : Nat} (h : log.Pairwise fun a b => a.acked ≤ b.acked) (hk : k < log.length) :
    acked log k ≤ acked log (k + 1) := by
  rw [acked_succ (List.getElem?_eq_getElem hk)]
  cases k with
  | zero => exact Nat.zero_le _
  | succ k =>
    rw [acked_succ (List.getElem?_eq_getElem (Nat.lt_of_succ_lt hk))]
    exact List.pairwise_iff_getElem.mp h k (k + 1) (Nat.lt_of_succ_lt hk) hk (Nat.lt_succ_self k)

theorem payloads_push_ack (hp : p.tag = umpAckMsgtag) : payloads (log ++ [p]) = payloads log := by
  simp [payloads, hp]

theorem payloads_push_data (hp : p.tag ≠ umpAckMsgtag) :
    payloads (log ++ [p]) = payloads log ++ [p.vals] := by
  simp [payloads, hp]

theorem Agrees.nil (vals : List Nat) : Agrees [] vals := by
  intro j w v hw
  cases hw

theorem Agrees.push {got vals : List Nat} {w : Nat} (h : Agrees got vals)
    (hw : ∀ v, vals[got.length]? = some v → w = v) : Agrees (got ++ [w]) vals := by
  intro j u v hu hv
  rcases Nat.lt_trichotomy j got.length with hlt | rfl | hgt
  · rw [List.getElem?_append_left hlt] at hu
    exact h j u v hu hv
  · rw [List.getElem?_concat_length] at hu
    obtain rfl := Option.some.inj hu
    exact hw v hv
  · rw [List.getElem?_eq_none (by rw [List.length_append, List.length_singleton]; omega)] at hu
    cases hu

end Log

/-- Messages that are taken from the ring and whose acknowledgement is not read yet. -/
def unopened : Pc → Nat
  | .header _ _ => 1
  | _ => 0

/-- Messages that are taken from the ring and not counted yet. -/
def uncounted : Pc → Nat
  | .header _ _ => 1
  | .tag _ _ => 1
  | _ => 0

/-- Messages that are taken and whose slot is still in use. -/
def held : Pc → Nat
  | .header _ _ => 1
  | .tag _ _ => 1
  | .read _ _ _ => 1
  | .failed .msgNull => 1
  | _ => 0

def opened (e : End) : Nat := e.taken - unopened e.pc

def counted (e : End) : Nat := e.taken - uncounted e.pc

def freed (e : End) : Nat := e.taken - held e.pc

/-- What an end has stored of its next message. -/
def fill : Pc → List Nat
  | .fill vals k => vals.take k
  | _ => []

/-- Where an end has seen that there is room for a message. -/
def roomy : Pc → Prop
  | .fill _ _ => True
  | .poll _ true => True
  | _ => False

/-- The message that an end has in hand, if it is taking one from a ring of `m` slots. -/
def AtSlot (m : Nat) (e p : End) : Pc → Prop
  | .header _ slot => slot = (e.taken - 1) % m
  | .tag _ slot => slot = (e.taken - 1) % m
  | .read words slot got => slot = (e.taken - 1) % m ∧ got.length ≤ words ∧
      ∃ q, p.sent[e.taken - 1]? = some q ∧ q.tag ≠ umpAckMsgtag ∧ Agrees got q.vals
  | .fill vals k => k ≤ vals.length
  | _ => True

/-- End `x` sends on a ring of `n` slots and receives from one of `m`; `p` is its peer. -/
structure EndOk (n m : Nat) (x : Bool) (e p : End) : Prop where
  tx : e.chan.tx = place n e.sent.length
  rx : e.chan.rx = place m e.taken
  discriminant : e.chan.discriminant = x
  next_id : e.chan.nextId = umpIndex (e.sent.length + 1)
  seq_id : e.chan.seqId = umpIndex (counted e)
  ack_id : e.chan.ackId = umpIndex (acked p.sent (opened e))
  last_ack : e.chan.lastAck = umpIndex (acked e.sent e.sent.length)
  held_le : held e.pc ≤ e.taken
  acked_le : acked p.sent (opened e) ≤ e.sent.length
  flow : e.sent.length ≤ acked p.sent (opened e) + n
  room : roomy e.pc → e.sent.length < acked p.sent (opened e) + n
  given : ∀ q ∈ e.sent, q.acked ≤ freed e
  sorted : e.sent.Pairwise fun a b => a.acked ≤ b.acked
  tags : ∀ q ∈ e.sent, q.tag ≤ umpAckMsgtag
  at_slot : AtSlot m e p e.pc
  delivered : List.Forall₂ Agrees e.returned (payloads (p.sent.take (freed e)))

section Ends

variable {n m : Nat} {x : Bool} {e p : End}

theorem uncounted_le (pc : Pc) : uncounted pc ≤ held pc := by
  cases pc <;> simp only [uncounted, held, Nat.le_refl, Nat.zero_le]

theorem unopened_le (pc : Pc) : unopened pc ≤ uncounted pc := by
  cases pc <;> simp only [unopened, uncounted, Nat.le_refl, Nat.zero_le]

/-- With no message in hand all counts are the same. -/
theorem opened_of_held {e : End} (h : held e.pc = 0) :
    opened e = e.taken ∧ counted e = e.taken ∧ freed e = e.taken := by
  have hcounted : uncounted e.pc = 0 := Nat.le_zero.mp (h ▸ uncounted_le e.pc)
  have hopened : unopened e.pc = 0 := Nat.le_zero.mp (hcounted ▸ unopened_le e.pc)
  rw [opened, counted, freed, h, hcounted, hopened]
  exact ⟨rfl, rfl, rfl⟩

/-- Nothing but the messages that the peer has sent matters of it. -/
theorem EndOk.congr_peer {p' : End} (h : EndOk n m x e p) (hsent : p'.sent = p.sent) :
    EndOk n m x e p' := by
  have hat : AtSlot m e p' e.pc ↔ AtSlot m e p e.pc := by
    cases e.pc <;> simp only [AtSlot, hsent]
  refine ⟨h.tx, h.rx, h.discriminant, h.next_id, h.seq_id, ?_, h.last_ack, h.held_le, ?_, ?_, ?_,
    h.given, h.sorted, h.tags, hat.mpr h.at_slot, ?_⟩
  · rw [hsent]
    exact h.ack_id
  · rw [hsent]
    exact h.acked_le
  · rw [hsent]
    exact h.flow
  · rw [hsent]
    exact h.room
  · rw [hsent]
    exact h.delivered

/-- The peer sends one more message. -/
theorem EndOk.peer_push {p' : End} {q : Packet} (h : EndOk n m x e p)
    (hle : e.taken ≤ p.sent.length) (hsent : p'.sent = p.sent ++ [q]) : EndOk n m x e p' := by
  have hopened : opened e ≤ p.sent.length := Nat.le_trans (Nat.sub_le _ _) hle
  have hfreed : freed e ≤ p.sent.length := Nat.le_trans (Nat.sub_le _ _) hle
  have hacked : acked p'.sent (opened e) = acked p.sent (opened e) := by
    rw [hsent, acked_push hopened]
  have hat : AtSlot m e p' e.pc := by
    have hheld := h.held_le
    have hold := h.at_slot
    cases hpc : e.pc with
    | read words slot got =>
      rw [hpc] at hold hheld
      obtain ⟨hslot, hwords, q', hq', hrest⟩ := hold
      have hlt := (List.getElem?_eq_some_iff.mp hq').1
      refine ⟨hslot, hwords, q', ?_, hrest⟩
      rw [hsent, List.getElem?_append_left hlt]
      exact hq'
    | _ =>
      rw [hpc] at hold
      exact hold
  refine ⟨h.tx, h.rx, h.discriminant, h.next_id, h.seq_id, ?_, h.last_ack, h.held_le, ?_, ?_, ?_,
    h.given, h.sorted, h.tags, hat, ?_⟩
  · rw [hacked]
    exact h.ack_id
  · rw [hacked]
    exact h.acked_le
  · rw [hacked]
    exact h.flow
  · rw [hacked]
    exact h.room
  · rw [hsent, List.take_append_of_le_length hfreed]
    exact h.delivered

/-- Only the program counter changes. -/
theorem EndOk.setPc {pc : Pc} (h : EndOk n m x e p) (hheld : held pc = held e.pc)
    (hun : unopened pc = unopened e.pc) (hcount : uncounted pc = uncounted e.pc)
    (hroom : roomy pc → e.sent.length < acked p.sent (opened e) + n) (hat : AtSlot m e p pc) :
    EndOk n m x { e with pc := pc } p := by
  have hopened : opened { e with pc := pc } = opened e := by
    rw [opened, opened, hun]
  have hcounted : counted { e with pc := pc } = counted e := by
    rw [counted, counted, hcount]
  have hfreed : freed { e with pc := pc } = freed e := by
    rw [freed, freed, hheld]
  have hat' : AtSlot m { e with pc := pc } p pc := by
    cases pc <;> exact hat
  constructor
  · exact h.tx
  · exact h.rx
  · exact h.discriminant
  · exact h.next_id
  · rw [hcounted]
    exact h.seq_id
  · rw [hopened]
    exact h.ack_id
  · exact h.last_ack
  · rw [hheld]
    exact h.held_le
  · rw [hopened]
    exact h.acked_le
  · rw [hopened]
    exact h.flow
  · rw [hopened]
    exact hroom
  · rw [hfreed]
    exact h.given
  · exact h.sorted
  · exact h.tags
  · exact hat'
  · rw [hfreed]
    exact h.delivered

/-- The test of the sequence numbers is one of the counts. -/
theorem canSend_counts {c : UmpChan} {sent ackd : Nat} (hn : c.tx.bufmsgs < 2 ^ 16 - 1)
    (hnext : c.nextId = umpIndex (sent + 1)) (hack : c.ackId = umpIndex ackd) (hle : ackd ≤ sent)
    (hflow : sent ≤ ackd + c.tx.bufmsgs) :
    umpChanCanSend c = true ↔ sent < ackd + c.tx.bufmsgs := by
  rw [umpChanCanSend, decide_eq_true_eq, hnext, hack,
    umpIndexSub_eq (Nat.le_succ_of_le hle) (by omega)]
  omega

theorem EndOk.bufmsgs (h : EndOk n m x e p) : e.chan.tx.bufmsgs = n := by
  rw [h.tx]
  rfl

theorem EndOk.canSend_iff (h : EndOk n m x e p) (hn : n < 2 ^ 16 - 1) :
    umpChanCanSend e.chan = true ↔ e.sent.length < acked p.sent (opened e) + n := by
  have hbuf := h.bufmsgs
  have hcan := canSend_counts (by rw [hbuf]; exact hn) h.next_id h.ack_id h.acked_le
    (by rw [hbuf]; exact h.flow)
  rw [hbuf] at hcan
  exact hcan

/-- The next message is taken. -/
theorem EndOk.take (h : EndOk n m x e p) (call : Call) (hm : 0 < m) (hle : m ≤ 2 ^ 16 - 1)
    (hheld : held e.pc = 0) :
    EndOk n m x { e with
      chan := umpRxchanRecv e.chan
      pc := .header call e.chan.rx.pos
      taken := e.taken + 1 } p := by
  obtain ⟨hopened, hcounted, hfreed⟩ := opened_of_held hheld
  have hseq := h.seq_id
  have hack := h.ack_id
  have hacked := h.acked_le
  have hflow := h.flow
  have hgiven := h.given
  have hdelivered := h.delivered
  rw [hcounted] at hseq
  rw [hopened] at hack hacked hflow
  rw [hfreed] at hgiven hdelivered
  refine ⟨h.tx, ?_, h.discriminant, h.next_id, hseq, hack, h.last_ack, Nat.succ_le_succ (Nat.zero_le _),
    hacked, hflow, False.elim, hgiven, h.sorted, h.tags, ?_, hdelivered⟩
  · change e.chan.rx.advance = place m (e.taken + 1)
    rw [h.rx, advance_place hm hle]
  · change e.chan.rx.pos = e.taken % m
    rw [h.rx]
    rfl

section Header

variable {q : Packet} {k : Nat} {call : Call} {slot : Nat}

/-- What the header of a message acknowledges. -/
theorem umpChanRxAckId_control (c : UmpChan) (htag : q.tag ≤ umpAckMsgtag) :
    umpChanRxAckId c (control m k q) = { c with ackId := umpIndex q.acked } := by
  obtain ⟨hraw, hseq, -⟩ := control_round_trip (epochOf m k) htag (umpIndex_lt q.acked)
  unfold umpChanRxAckId control
  rw [hraw]
  dsimp only
  rw [hseq]

theorem umpChanRxMsgtag_control (htag : q.tag ≤ umpAckMsgtag) :
    umpChanRxMsgtag (control m k q) = q.tag := by
  obtain ⟨hraw, -, hmsgtag⟩ := control_round_trip (epochOf m k) htag (umpIndex_lt q.acked)
  unfold umpChanRxMsgtag control
  rw [hraw]
  exact hmsgtag

theorem control_epoch (htag : q.tag ≤ umpAckMsgtag) :
    (UmpControl.ofRaw (control m k q)).epoch = epochOf m k := by
  rw [control, (control_round_trip (epochOf m k) htag (umpIndex_lt q.acked)).1]

/-- The message in hand has a position. -/
theorem EndOk.taken_eq (h : EndOk n m x e p) (hheld : held e.pc = 1) : ∃ k, e.taken = k + 1 := by
  have hle := h.held_le
  rw [hheld] at hle
  exact ⟨e.taken - 1, (Nat.sub_add_cancel hle).symm⟩

/-- The acknowledgement of the message in hand is read. -/
theorem EndOk.open (h : EndOk n m x e p) (hpc : e.pc = .header call slot)
    (hq : p.sent[e.taken - 1]? = some q) (hsorted : p.sent.Pairwise fun a b => a.acked ≤ b.acked)
    (hacked : q.acked ≤ e.sent.length) :
    EndOk n m x { e with
      chan := { e.chan with ackId := umpIndex q.acked }
      pc := .tag call slot } p := by
  obtain ⟨k, hktaken⟩ := h.taken_eq (by rw [hpc]; rfl)
  have hopened : opened e = k := by rw [opened, hpc, hktaken]; rfl
  rw [hktaken, Nat.add_sub_cancel] at hq
  have hnew : acked p.sent e.taken = q.acked := by rw [hktaken, acked_succ hq]
  have hseq := h.seq_id
  have hflow := h.flow
  have hgiven := h.given
  have hdelivered := h.delivered
  have hslot := h.at_slot
  have hmono := acked_mono hsorted (List.getElem?_eq_some_iff.mp hq).1
  rw [counted, hpc] at hseq
  rw [hopened] at hflow
  rw [freed, hpc] at hgiven hdelivered
  rw [hpc] at hslot
  rw [acked_succ hq] at hmono
  refine ⟨h.tx, h.rx, h.discriminant, h.next_id, hseq, ?_, h.last_ack, ?_, ?_, ?_, False.elim,
    hgiven, h.sorted, h.tags, hslot, hdelivered⟩
  · change umpIndex q.acked = umpIndex (acked p.sent e.taken)
    rw [hnew]
  · change 1 ≤ e.taken
    omega
  · change acked p.sent e.taken ≤ e.sent.length
    rw [hnew]
    exact hacked
  · change e.sent.length ≤ acked p.sent e.taken + n
    omega

/-- The message in hand is counted. -/
theorem EndOk.count {pc : Pc} (h : EndOk n m x e p) (hpc : e.pc = .tag call slot)
    (hq : p.sent[e.taken - 1]? = some q) (hun : uncounted pc = 0)
    (hroom : roomy pc → e.sent.length < acked p.sent (opened e) + n) (hat : AtSlot m e p pc)
    (hheld : held pc ≤ 1) (hack : held pc = 0 → q.tag = umpAckMsgtag) :
    EndOk n m x { e with chan := umpChanRxCount e.chan, pc := pc } p := by
  obtain ⟨k, hktaken⟩ := h.taken_eq (by rw [hpc]; rfl)
  have hfreed : freed e = k := by rw [freed, hpc, hktaken]; rfl
  have hcounted : counted e = k := by rw [counted, hpc, hktaken]; rfl
  rw [hktaken, Nat.add_sub_cancel] at hq
  have hgiven := h.given
  have hdelivered := h.delivered
  rw [hfreed] at hgiven hdelivered
  have hopened' : opened { e with chan := umpChanRxCount e.chan, pc := pc } = opened e := by
    have hzero : unopened pc = 0 := Nat.le_zero.mp (hun ▸ unopened_le pc)
    change e.taken - unopened pc = e.taken - unopened e.pc
    rw [hzero, hpc]
    rfl
  have hcounted' : counted { e with chan := umpChanRxCount e.chan, pc := pc } = k + 1 := by
    change e.taken - uncounted pc = k + 1
    rw [hun, hktaken, Nat.sub_zero]
  have hfreed' : freed { e with chan := umpChanRxCount e.chan, pc := pc } = k + 1 - held pc := by
    change e.taken - held pc = _
    rw [hktaken]
  have hat' : AtSlot m { e with chan := umpChanRxCount e.chan, pc := pc } p pc := by
    cases pc <;> exact hat
  constructor
  · exact h.tx
  · exact h.rx
  · exact h.discriminant
  · exact h.next_id
  · change umpIndex (e.chan.seqId + 1) = _
    rw [hcounted', h.seq_id, umpIndex_succ, hcounted]
  · rw [hopened']
    exact h.ack_id
  · exact h.last_ack
  · change held pc ≤ e.taken
    omega
  · rw [hopened']
    exact h.acked_le
  · rw [hopened']
    exact h.flow
  · rw [hopened']
    exact hroom
  · rw [hfreed']
    intro q' hq'
    have hold := hgiven q' hq'
    omega
  · exact h.sorted
  · exact h.tags
  · exact hat'
  · rw [hfreed']
    rcases Nat.lt_or_ge 0 (held pc) with hone | hzero
    · have hone : held pc = 1 := by omega
      rw [hone]
      exact hdelivered
    · have hzero := Nat.le_zero.mp hzero
      rw [hzero, Nat.sub_zero, List.take_add_one, hq, Option.toList_some,
        payloads_push_ack (hack hzero)]
      exact hdelivered

end Header

/-- The payload in hand is returned. -/
theorem EndOk.hand {words slot : Nat} {got : List Nat} {pc : Pc} (h : EndOk n m x e p)
    (hpc : e.pc = .read words slot got) (hheld : held pc = 0) (hroom : ¬ roomy pc)
    (hat : AtSlot m e p pc) :
    EndOk n m x { e with pc := pc, returned := e.returned ++ [got] } p := by
  obtain ⟨k, hktaken⟩ := h.taken_eq (by rw [hpc]; rfl)
  obtain ⟨hnewOpened, hnewCounted, hnewFreed⟩ := opened_of_held
    (e := { e with pc := pc, returned := e.returned ++ [got] }) hheld
  have hopened : opened { e with pc := pc, returned := e.returned ++ [got] } = opened e := by
    rw [hnewOpened, opened, hpc]
    rfl
  have hcounted : counted { e with pc := pc, returned := e.returned ++ [got] } = counted e := by
    rw [hnewCounted, counted, hpc]
    rfl
  have hfreed : freed e = k := by rw [freed, hpc, hktaken]; rfl
  have hfreed' : freed { e with pc := pc, returned := e.returned ++ [got] } = k + 1 := by
    rw [hnewFreed]
    exact hktaken
  have hold := h.at_slot
  have hgiven := h.given
  have hdelivered := h.delivered
  rw [hpc] at hold
  rw [hfreed] at hgiven hdelivered
  obtain ⟨-, -, q, hq, htag, hagrees⟩ := hold
  rw [hktaken, Nat.add_sub_cancel] at hq
  have hat' : AtSlot m { e with pc := pc, returned := e.returned ++ [got] } p pc := by
    cases pc <;> exact hat
  constructor
  · exact h.tx
  · exact h.rx
  · exact h.discriminant
  · exact h.next_id
  · rw [hcounted]
    exact h.seq_id
  · rw [hopened]
    exact h.ack_id
  · exact h.last_ack
  · change held pc ≤ e.taken
    omega
  · rw [hopened]
    exact h.acked_le
  · rw [hopened]
    exact h.flow
  · exact fun hr => absurd hr hroom
  · rw [hfreed']
    exact fun q' hq' => Nat.le_succ_of_le (hgiven q' hq')
  · exact h.sorted
  · exact h.tags
  · exact hat'
  · rw [hfreed', List.take_add_one, hq, Option.toList_some, payloads_push_data htag]
    exact List.rel_append hdelivered (.cons hagrees .nil)

/-- A message is sent. -/
theorem EndOk.submit {tag : Nat} {vals : List Nat} (h : EndOk n m x e p) (hn : 0 < n)
    (hle : n ≤ 2 ^ 16 - 1) (hheld : held e.pc = 0) (htag : tag ≤ umpAckMsgtag)
    (hroom : e.sent.length < acked p.sent (opened e) + n) :
    EndOk n m x (submit x e tag vals).1 p := by
  obtain ⟨hopened, hcounted, hfreed⟩ := opened_of_held hheld
  have hlen : (e.sent ++ [Packet.mk tag e.taken vals]).length = e.sent.length + 1 := by
    rw [List.length_append, List.length_singleton]
  have hseq := h.seq_id
  have hack := h.ack_id
  have hacked := h.acked_le
  have hgiven := h.given
  have hdelivered := h.delivered
  rw [hcounted] at hseq
  rw [hopened] at hack hacked hroom
  rw [hfreed] at hgiven hdelivered
  constructor
  · change e.chan.tx.advance = place n (e.sent ++ [Packet.mk tag e.taken vals]).length
    rw [hlen, h.tx, advance_place hn hle]
  · exact h.rx
  · exact h.discriminant
  · change umpIndex (e.chan.nextId + 1) =
      umpIndex ((e.sent ++ [Packet.mk tag e.taken vals]).length + 1)
    rw [hlen, h.next_id, umpIndex_succ]
  · exact hseq
  · exact hack
  · change e.chan.seqId = umpIndex (acked (e.sent ++ [Packet.mk tag e.taken vals])
      (e.sent ++ [Packet.mk tag e.taken vals]).length)
    rw [hlen, acked_push_self]
    exact hseq
  · exact Nat.zero_le _
  · change acked p.sent e.taken ≤ (e.sent ++ [Packet.mk tag e.taken vals]).length
    rw [hlen]
    exact Nat.le_succ_of_le hacked
  · change (e.sent ++ [Packet.mk tag e.taken vals]).length ≤ acked p.sent e.taken + n
    rw [hlen]
    exact hroom
  · exact False.elim
  · intro q hq
    rcases List.mem_append.mp hq with hq | hq
    · exact hgiven q hq
    · obtain rfl := List.mem_singleton.mp hq
      exact Nat.le_refl _
  · refine List.pairwise_append.mpr ⟨h.sorted, List.pairwise_singleton _ _, ?_⟩
    intro q hq q' hq'
    obtain rfl := List.mem_singleton.mp hq'
    exact hgiven q hq
  · intro q hq
    rcases List.mem_append.mp hq with hq | hq
    · exact h.tags q hq
    · obtain rfl := List.mem_singleton.mp hq
      exact htag
  · exact True.intro
  · exact hdelivered

end Ends

end SmeltConsensus.UmpQueue.Counts
