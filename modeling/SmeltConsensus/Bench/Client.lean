import SmeltConsensus.Cluster.Algorithms
import SmeltConsensus.KeyValue.Client

/-!
The client of the benchmark: it sets itself up with the leader, and each
`consensus_send_request` sends one request to the leader and waits for a message
from the replica on the core `recv_from`.
-/

set_option autoImplicit false
set_option relaxedAutoImplicit false

namespace SmeltConsensus.Bench.Client

open SmeltConsensus.Foundation.Network
open SmeltConsensus.Message.Header
open SmeltConsensus.Cluster.Parties
open SmeltConsensus.Cluster.Algorithms
open SmeltConsensus.KeyValue.Client (Phase ClientT setupMsg receive)

inductive Call
  | setup
  | request (payload : Payload)

/-- The id of the replica whose core `consensus_bench_clients_init` makes `recv_from`. -/
def recvReplica (cfg : Config) : Algorithm → Nat
  | .chain => cfg.numReplicas - 1
  | _ => 0

variable (cfg : Config) (recv : Nat)

/-- The message of `consensus_send_request`. -/
def requestMsg (client : ClientT) (payload : Payload) : SmltMsg :=
  client.msgBuf.stamp client.id client.requestCount (cfg.coreOf recv) payload

/-- A call up to its `smlt_recv`. -/
def call (core : Nat) (client : ClientT) : Call → Option (ClientT × SmltMsg)
  | .setup =>
    if client.phase = .start then
      let msg := setupMsg core client
      some ({ client with phase := .settingUp, msgBuf := msg }, msg)
    else none
  | .request payload =>
    if client.phase = .ready then
      let msg := requestMsg cfg recv client payload
      some ({ client with phase := .waiting, msgBuf := msg }, msg)
    else none

/-- The set-up waits for the leader and a request for `recv_from`. -/
def polls (client : ClientT) (src : Party) : Bool :=
  match client.phase with
  | .settingUp => decide (src = .replica 0)
  | .waiting => decide (src = .replica recv)
  | _ => false

/-- The client process; its buffers come from `smlt_message_alloc` with whatever is in
them. Its messages are checked to be its own; the check never fails for the clients
of the group. -/
def benchClient (buf : Nat → SmltMsg) : ClientProc cfg where
  State := ClientT
  Call := Call
  init core := ⟨.start, 0, 0, buf core⟩
  polls _ := polls recv
  receive _ client _ msg := receive client msg
  call core client x := (call cfg recv core client x).filter fun r => cfg.FromClient core r.2
  call_ok core client x r h := by
    obtain ⟨-, hf⟩ := Option.filter_eq_some_iff.mp h
    exact of_decide_eq_true hf

variable {cfg recv} {buf : Nat → SmltMsg}

theorem setupMsg_tag (core : Nat) (client : ClientT) : (setupMsg core client).tag = SETUP_TAG := by
  show getTag (setClientId (setTag client.msgBuf.data0 SETUP_TAG) core) = SETUP_TAG
  rw [getTag_setClientId, getTag_setTag]
  rfl

theorem requestMsg_tag (client : ClientT) (payload : Payload) :
    (requestMsg cfg recv client payload).tag = REQ_TAG := SmltMsg.tag_stamp _ _ _ _ _

theorem requestsSent_recv (src : Party) (msg : SmltMsg) (t : List Ev) :
    requestsSent (t ++ [.recv src msg]) = requestsSent t := by
  rw [requestsSent, sentTo_append, sentTo_recv, sentTo_nil, List.append_nil, requestsSent]

/-- How far a client is: one message received for the set-up and one for each request but the
current one. -/
structure ClientHistory (recv : Nat) (l : ClientT) (t : List Ev) : Prop where
  sources : ∀ x ∈ inputs t, x.1 = .replica 0 ∨ x.1 = .replica recv
  setups : ((sentTo (.replica 0) t).filter (·.tag = SETUP_TAG)).length ≤ 1
  fresh : l.phase = .start → (sentTo (.replica 0) t).filter (·.tag = SETUP_TAG) = []
  early : l.phase = .start ∨ l.phase = .settingUp → requestsSent t = []
  received : (inputs t).length = (requestsSent t).length + if l.phase = .ready then 1 else 0

/-- From the set-up on, `client.id` is the client's own id. -/
def OwnId (cfg : Config) (core : Nat) (l : ClientT) : Prop :=
  l.phase = .ready ∨ l.phase = .waiting → cfg.clients[l.id]? = some core

theorem setupMsg_clientId {core : Nat} (hcore : core < 2 ^ 16) (client : ClientT) :
    (setupMsg core client).clientId = core := by
  show getClientId (setClientId (setTag client.msgBuf.data0 SETUP_TAG) core) = core
  rw [getClientId_setClientId, Nat.mod_eq_of_lt hcore]

theorem requestMsg_clientId {client : ClientT} (hid : client.id < 2 ^ 16) (payload : Payload) :
    (requestMsg cfg recv client payload).clientId = client.id := by
  rw [requestMsg, SmltMsg.clientId_stamp, Nat.mod_eq_of_lt hid]

/-- A client with its own id sends nothing that is not its own. -/
theorem call_unchecked {core : Nat} (hcore : core ∈ cfg.clients) {l : ClientT}
    (hown : OwnId cfg core l) (x : Call) :
    (benchClient cfg recv buf).call core l x = call cfg recv core l x := by
  cases x with
  | setup =>
    by_cases hstart : l.phase = .start
    · have hlt := cfg.core_lt core hcore
      have hf : cfg.FromClient core (setupMsg core l) :=
        .inr ⟨setupMsg_tag core l, setupMsg_clientId (by omega) l⟩
      show (call cfg recv core l .setup).filter _ = _
      rw [call, if_pos hstart]
      exact Option.filter_some_pos (decide_eq_true hf)
    · show (call cfg recv core l .setup).filter _ = _
      rw [call, if_neg hstart, Option.filter_none]
  | request payload =>
    by_cases hready : l.phase = .ready
    · have hcid := hown (.inl hready)
      have hlt := (List.getElem?_eq_some_iff.mp hcid).1
      have hmax := cfg.numClients_lt
      have hf : cfg.FromClient core (requestMsg cfg recv l payload) := by
        refine .inl ⟨requestMsg_tag l payload, ?_⟩
        rw [requestMsg_clientId (by omega)]
        exact hcid
      show (call cfg recv core l (.request payload)).filter _ = _
      rw [call, if_pos hready]
      exact Option.filter_some_pos (decide_eq_true hf)
    · show (call cfg recv core l (.request payload)).filter _ = _
      rw [call, if_neg hready, Option.filter_none]

/-- Everything a call can do. -/
theorem call_cases {core : Nat} {l : ClientT} {x : Call} {r : ClientT × SmltMsg}
    (h : (benchClient cfg recv buf).call core l x = some r) :
    (l.phase = .start ∧ r = ({ l with phase := .settingUp, msgBuf := setupMsg core l },
        setupMsg core l)) ∨
      (l.phase = .ready ∧ ∃ payload, r = ({ l with
        phase := .waiting, msgBuf := requestMsg cfg recv l payload },
        requestMsg cfg recv l payload)) := by
  obtain ⟨hcall, -⟩ := Option.filter_eq_some_iff.mp h
  cases x with
  | setup =>
    rw [call] at hcall
    split at hcall
    · rename_i hstart
      exact .inl ⟨hstart, (Option.some.inj hcall).symm⟩
    · cases hcall
  | request payload =>
    rw [call] at hcall
    split at hcall
    · rename_i hready
      exact .inr ⟨hready, payload, (Option.some.inj hcall).symm⟩
    · cases hcall

/-- Everything a reception can do. -/
theorem receive_cases {l : ClientT} {src : Party} (h : polls recv l src = true) (msg : SmltMsg) :
    (l.phase = .settingUp ∧ src = .replica 0 ∧
        receive l msg = { l with phase := .ready, id := msg.data4, msgBuf := msg }) ∨
      (l.phase = .waiting ∧ src = .replica recv ∧
        receive l msg = { l with
          phase := .ready, requestCount := (l.requestCount + 1) % 2 ^ 32, msgBuf := msg }) := by
  unfold polls at h
  unfold receive
  cases hphase : l.phase <;> simp_all

/-- A reception ends the set-up or the current request. -/
theorem ClientHistory.receive {l : ClientT} {t : List Ev} (h : ClientHistory recv l t) {src : Party}
    (hp : polls recv l src = true) (msg : SmltMsg) :
    ClientHistory recv (KeyValue.Client.receive l msg) (t ++ [.recv src msg]) := by
  have hsent : sentTo (.replica 0) (t ++ [.recv src msg]) = sentTo (.replica 0) t := by
    rw [sentTo_append, sentTo_recv, sentTo_nil, List.append_nil]
  have hrequests := requestsSent_recv src msg t
  have hsource : src = .replica 0 ∨ src = .replica recv := by
    rcases receive_cases hp msg with ⟨-, hsrc, -⟩ | ⟨-, hsrc, -⟩
    · exact .inl hsrc
    · exact .inr hsrc
  have hsources : ∀ x ∈ inputs (t ++ [.recv src msg]), x.1 = .replica 0 ∨ x.1 = .replica recv := by
    intro x hx
    rw [inputs_append, List.mem_append] at hx
    rcases hx with hx | hx
    · exact h.sources x hx
    · obtain rfl := List.mem_singleton.mp hx
      exact hsource
  rcases receive_cases hp msg with ⟨hphase, -, hl⟩ | ⟨hphase, -, hl⟩
  all_goals
    have hreceived := h.received
    rw [hphase, if_neg (by decide)] at hreceived
    rw [hl]
    constructor
    · exact hsources
    · rw [hsent]
      exact h.setups
    · intro hstart
      cases hstart
    · rintro (hearly | hearly) <;> cases hearly
    · rw [hrequests, if_pos rfl, inputs_append, List.length_append, hreceived]
      rfl

/-- The one set-up message. -/
theorem ClientHistory.setup {core : Nat} {l : ClientT} {t : List Ev} (h : ClientHistory recv l t)
    (hphase : l.phase = .start) :
    ClientHistory recv { l with phase := .settingUp, msgBuf := setupMsg core l }
      (t ++ [.out (.send (.replica 0) (setupMsg core l))]) := by
  have htag := setupMsg_tag core l
  have hsent : sentTo (.replica 0) (t ++ [.out (.send (.replica 0) (setupMsg core l))]) =
      sentTo (.replica 0) t ++ [setupMsg core l] := by
    rw [sentTo_append, sentTo_send, if_pos rfl, sentTo_nil]
  have hrequests : requestsSent (t ++ [.out (.send (.replica 0) (setupMsg core l))]) = [] := by
    rw [requestsSent, hsent, List.filter_append, ← requestsSent, h.early (.inl hphase)]
    simp [htag]
  have hreceived := h.received
  rw [h.early (.inl hphase), hphase, if_neg (by decide)] at hreceived
  constructor
  · intro x hx
    rw [inputs_append, inputs_out, inputs_nil, List.append_nil] at hx
    exact h.sources x hx
  · rw [hsent, List.filter_append, h.fresh hphase, List.nil_append]
    exact List.length_filter_le _ _
  · intro hstart
    cases hstart
  · exact fun _ => hrequests
  · rw [hrequests, inputs_append, List.length_append, hreceived]
    rfl

/-- One more request, which is the current one. -/
theorem ClientHistory.request {l : ClientT} {t : List Ev} (h : ClientHistory recv l t)
    (hphase : l.phase = .ready) (payload : Payload) :
    ClientHistory recv { l with phase := .waiting, msgBuf := requestMsg cfg recv l payload }
      (t ++ [.out (.send (.replica 0) (requestMsg cfg recv l payload))]) := by
  have htag : (requestMsg cfg recv l payload).tag = REQ_TAG := requestMsg_tag l payload
  have hsent : sentTo (.replica 0)
      (t ++ [.out (.send (.replica 0) (requestMsg cfg recv l payload))]) =
        sentTo (.replica 0) t ++ [requestMsg cfg recv l payload] := by
    rw [sentTo_append, sentTo_send, if_pos rfl, sentTo_nil]
  have hsetups : (sentTo (.replica 0)
      (t ++ [.out (.send (.replica 0) (requestMsg cfg recv l payload))])).filter
        (·.tag = SETUP_TAG) = (sentTo (.replica 0) t).filter (·.tag = SETUP_TAG) := by
    rw [hsent, List.filter_append]
    simp [htag]
  have hrequests : requestsSent
      (t ++ [.out (.send (.replica 0) (requestMsg cfg recv l payload))]) =
        requestsSent t ++ [requestMsg cfg recv l payload] := by
    rw [requestsSent, hsent, List.filter_append, ← requestsSent]
    simp [htag]
  have hreceived := h.received
  rw [hphase, if_pos rfl] at hreceived
  constructor
  · intro x hx
    rw [inputs_append, inputs_out, inputs_nil, List.append_nil] at hx
    exact h.sources x hx
  · rw [hsetups]
    exact h.setups
  · intro hstart
    cases hstart
  · rintro (hearly | hearly) <;> cases hearly
  · rw [hrequests, inputs_append, List.length_append, List.length_append, hreceived]
    rfl

theorem clientHistory {R : ReplicaProc} {s : Net (cluster R (benchClient cfg recv buf))}
    (h : s.Reachable) (core : Nat) :
    ClientHistory recv (s.loc (.client core)) (s.trace (.client core)) := by
  refine client_induction (C := benchClient cfg recv buf) core (ClientHistory recv) ?_ ?_ ?_ h
  · exact ⟨fun _ => (nomatch ·), Nat.zero_le _, fun _ => rfl, fun _ => rfl, rfl⟩
  · intro s s' (l : ClientT) src msg _ _ hI hp ht
    rw [ht]
    exact hI.receive hp msg
  · intro (l : ClientT) t x r hI hx
    rcases call_cases hx with ⟨hphase, rfl⟩ | ⟨hphase, payload, rfl⟩
    · exact hI.setup hphase
    · exact hI.request hphase payload

end SmeltConsensus.Bench.Client
