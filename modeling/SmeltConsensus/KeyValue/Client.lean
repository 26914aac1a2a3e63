import SmeltConsensus.Cluster.Parties

/-!
The client of the key-value store: it sets itself up with the leader, sends one
request for each `kvs_set` and waits for its reply.
-/

set_option autoImplicit false
set_option relaxedAutoImplicit false

namespace SmeltConsensus.KeyValue.Client

open SmeltConsensus.Foundation.Network
open SmeltConsensus.Message.Header
open SmeltConsensus.Cluster.Parties

/-- Where the client is: before or in its set-up, or outside or inside of a `kvs_set`. -/
inductive Phase
  | start
  | settingUp
  | ready
  | waiting
  deriving DecidableEq

/-- The fields of `client_t` that the calls use. -/
structure ClientT where
  phase : Phase
  id : Nat
  requestCount : Nat
  msgBuf : SmltMsg

inductive Call
  | setup
  | kvsSet (key v1 v2 : Nat)

/-- The id of the replica whose core is `recv_from`: the one on the client's NUMA
node, but from the first two nodes two further. -/
def recvReplica (numaNodeOfCpu : Nat → Nat) (core : Nat) : Nat :=
  let numa := numaNodeOfCpu core
  if numa = 1 ∨ numa = 0 then numa + 2 else numa

variable (cfg : Config) (numaNodeOfCpu : Nat → Nat)

/-- The message of `init_consensus_client`. -/
def setupMsg (core : Nat) (client : ClientT) : SmltMsg :=
  { client.msgBuf with data0 := setClientId (setTag client.msgBuf.data0 SETUP_TAG) core }

/-- The message of `consensus_send_request`. -/
def requestMsg (core : Nat) (client : ClientT) (payload : Payload) : SmltMsg :=
  client.msgBuf.stamp client.id client.requestCount
    (cfg.coreOf (recvReplica numaNodeOfCpu core)) payload

/-- A call up to its `smlt_recv`. -/
def call (core : Nat) (client : ClientT) : Call → Option (ClientT × SmltMsg)
  | .setup =>
    if client.phase = .start then
      let msg := setupMsg core client
      some ({ client with phase := .settingUp, msgBuf := msg }, msg)
    else none
  | .kvsSet key v1 v2 =>
    if client.phase = .ready then
      let msg := requestMsg cfg numaNodeOfCpu core client ⟨key, v1, v2⟩
      some ({ client with phase := .waiting, msgBuf := msg }, msg)
    else none

/-- The two calls of `smlt_recv` each wait for one core. -/
def polls (core : Nat) (client : ClientT) (src : Party) : Bool :=
  match client.phase with
  | .settingUp => decide (src = .replica 0)
  | .waiting => decide (src = .replica (recvReplica numaNodeOfCpu core))
  | _ => false

/-- What follows the `smlt_recv`; the request count is an `uint32_t`. -/
def receive (client : ClientT) (msg : SmltMsg) : ClientT :=
  match client.phase with
  | .settingUp => { client with phase := .ready, id := msg.data4, msgBuf := msg }
  | .waiting => { client with
      phase := .ready
      requestCount := (client.requestCount + 1) % 2 ^ 32
      msgBuf := msg }
  | _ => client

/-- The client process. Its messages are checked to be its own; the check never
fails for the clients of the group. -/
def kvsClient (msgBuf : SmltMsg) : ClientProc cfg where
  State := ClientT
  Call := Call
  init _ := ⟨.start, 0, 0, msgBuf⟩
  polls := polls numaNodeOfCpu
  receive _ client _ msg := receive client msg
  call core client x :=
    (call cfg numaNodeOfCpu core client x).filter fun r => cfg.FromClient core r.2
  call_ok core client x r h := by
    obtain ⟨-, hf⟩ := Option.filter_eq_some_iff.mp h
    exact of_decide_eq_true hf

end SmeltConsensus.KeyValue.Client
