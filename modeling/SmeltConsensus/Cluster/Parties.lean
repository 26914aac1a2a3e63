import Mathlib.Data.List.GetD
import Mathlib.Data.List.Nodup
import SmeltConsensus.Foundation.Network
import SmeltConsensus.Message.Header

/-!
The parties of a consensus group with no algorithm below it (non-SMLT build):
replicas, named by their id, and clients, named by the core they run on.
Clients address replica 0, which leads every algorithm at start.

The replicas' code and the clients' behaviour are parameters. A client may do
anything as long as its messages are set-up messages with its own core or
requests stamped with its own client id.
-/

set_option autoImplicit false
set_option relaxedAutoImplicit false

namespace SmeltConsensus.Cluster.Parties

open SmeltConsensus.Foundation.Network
open SmeltConsensus.Message.Header

inductive Party
  | replica (id : Nat)
  | client (core : Nat)
  deriving DecidableEq

abbrev Out := Output Party SmltMsg Command

abbrev Ev := Event Party SmltMsg Command

def MAX_NUM_CLIENTS : Nat := 64

def MAX_NUM_REPLICAS : Nat := 64

/-- An array with one entry for each client id. -/
abbrev ClientTable := Vector Nat MAX_NUM_CLIENTS

namespace ClientTable

def read (table : ClientTable) (cid : Nat) : Nat := table[cid]?.getD 0

def write (table : ClientTable) (cid value : Nat) : ClientTable :=
  table.setIfInBounds cid value

theorem read_write_self (table : ClientTable) {cid : Nat} (h : cid < MAX_NUM_CLIENTS)
    (value : Nat) : (table.write cid value).read cid = value := by
  simp [read, write, h]

theorem read_write_of_ne (table : ClientTable) {cid j : Nat} (h : j ≠ cid) (value : Nat) :
    (table.write cid value).read j = table.read j := by
  simp [read, write, Ne.symm h]

end ClientTable

/-- `CORE_LEVEL` or `NODE_LEVEL`. -/
inductive Level
  | core
  | node
  deriving DecidableEq

/-- The arguments of `init_replica` shared by a group; counts and cores are `uint8_t`. -/
structure Config where
  level : Level
  numReplicas : Nat
  /-- The core that started a core-level group. -/
  startedFrom : Nat := 0
  /-- The cores of the clients, indexed by client id. -/
  clients : List Nat
  /-- The cores of the replicas, indexed by replica id. -/
  replicas : List Nat := List.range numReplicas
  two_le_numReplicas : 2 ≤ numReplicas := by decide
  numReplicas_lt : numReplicas < 256 := by decide
  clients_nodup : clients.Nodup := by decide
  numClients_lt : clients.length < 256 := by decide
  core_lt : ∀ core ∈ clients, core < 256 := by decide
  replicas_length : replicas.length = numReplicas := by simp

namespace Config

/-- Two nodes and a client. -/
def twoNodes : Config where
  level := .node
  numReplicas := 2
  clients := [10]

/-- Three nodes and two clients. -/
def threeNodes : Config where
  level := .node
  numReplicas := 3
  clients := [10, 11]

/-- Four nodes and a client. -/
def fourNodes : Config where
  level := .node
  numReplicas := 4
  clients := [10]

variable (cfg : Config)

/-- The party behind `replica.clients[cid]`. -/
def clientAt (cid : Nat) : Party := .client (cfg.clients.getD cid 0)

/-- The core of replica `id`. -/
def coreOf (id : Nat) : Nat := cfg.replicas.getD id 0

/-- The party that runs on a core. -/
def partyOn (core : Nat) : Party :=
  match cfg.replicas.idxOf? core with
  | some id => .replica id
  | none => .client core

/-- Message `msg` is one that the client on core `core` may send. -/
def FromClient (core : Nat) (msg : SmltMsg) : Prop :=
  (msg.tag = REQ_TAG ∧ cfg.clients[msg.clientId]? = some core) ∨
    (msg.tag = SETUP_TAG ∧ msg.clientId = core)

instance (core : Nat) (msg : SmltMsg) : Decidable (cfg.FromClient core msg) :=
  inferInstanceAs (Decidable (_ ∨ _))

/-- The arrays that the replicas keep have an entry for each client and each replica. -/
structure Fits : Prop where
  clients : cfg.clients.length ≤ MAX_NUM_CLIENTS
  replicas : cfg.numReplicas ≤ MAX_NUM_REPLICAS

variable {cfg}

theorem clientAt_of_getElem? {cid core : Nat} (h : cfg.clients[cid]? = some core) :
    cfg.clientAt cid = .client core := by
  simp [clientAt, List.getD_eq_getElem?_getD, h]

theorem FromClient.request {core : Nat} {msg : SmltMsg} (h : cfg.FromClient core msg)
    (ht : msg.tag = REQ_TAG) : cfg.clients[msg.clientId]? = some core := by
  rcases h with h | h
  · exact h.2
  · simp [h.1] at ht

/-- Only the client's own id leads to its core. -/
theorem clientAt_eq_client_iff {i cid core : Nat} (hi : i < cfg.clients.length)
    (hcid : cfg.clients[cid]? = some core) : cfg.clientAt i = .client core ↔ i = cid := by
  have hcore := List.getElem?_eq_getElem hi
  rw [clientAt_of_getElem? hcore, Party.client.injEq]
  constructor
  · intro heq
    rw [heq] at hcore
    obtain ⟨hl, hget⟩ := List.getElem?_eq_some_iff.mp hcid
    exact (List.Nodup.getElem_inj_iff cfg.clients_nodup).mp (heq.trans hget.symm)
  · rintro rfl
    rw [hcore] at hcid
    exact Option.some.inj hcid

/-- Responses reach the client of their header: at node level by its id, at core level because
the core that started the group is the only client. -/
def Direct (cfg : Config) : Prop := cfg.level = .node ∨ cfg.clients = [cfg.startedFrom]

theorem Direct.clientAt_of_core (h : cfg.Direct) (hl : cfg.level = .core) {cid : Nat}
    (hcid : cid < cfg.clients.length) : cfg.clientAt cid = .client cfg.startedFrom := by
  rcases h with h | h
  · rw [h] at hl
    cases hl
  · rw [h, List.length_singleton, Nat.lt_one_iff] at hcid
    rw [hcid, clientAt, h]
    rfl

@[simp] theorem clientAt_ne_replica (cfg : Config) (cid i : Nat) :
    cfg.clientAt cid ≠ .replica i := by
  simp [clientAt]

/-- A client id belongs to one client only. -/
theorem clientId_inj {i j core : Nat} (hi : cfg.clients[i]? = some core)
    (hj : cfg.clients[j]? = some core) : i = j := by
  obtain ⟨hil, hi⟩ := List.getElem?_eq_some_iff.mp hi
  obtain ⟨hjl, hj⟩ := List.getElem?_eq_some_iff.mp hj
  exact (List.Nodup.getElem_inj_iff cfg.clients_nodup).mp (hi.trans hj.symm)

end Config

/-- `smlt_send(replica.replicas[i], msg)` for each `i` of a list. -/
def sendEach (ids : List Nat) (msg : SmltMsg) : List Out :=
  ids.map fun i => .send (.replica i) msg

@[simp] theorem sentTo_replica_sendEach (j : Nat) {ids : List Nat} (h : ids.Nodup)
    (msg : SmltMsg) : sentTo (Party.replica j) ((sendEach ids msg).map .out : List Ev) =
      if j ∈ ids then [msg] else [] := by
  have hp : (ids.map Party.replica).Nodup :=
    List.Nodup.map (fun _ _ he => Party.replica.inj he) h
  have hm : sentTo (Party.replica j)
      ((ids.map Party.replica).map fun p => (.out (.send p msg) : Ev)) =
        if Party.replica j ∈ ids.map Party.replica then [msg] else [] :=
    sentTo_multicast _ _ hp msg
  simpa [sendEach, Function.comp_def] using hm

@[simp] theorem sentTo_client_sendEach (c : Nat) (ids : List Nat) (msg : SmltMsg) :
    sentTo (Party.client c) ((sendEach ids msg).map .out : List Ev) = [] := by
  induction ids with
  | nil => rfl
  | cons i ids ih => simpa [sendEach] using ih

@[simp] theorem executed_sendEach (ids : List Nat) (msg : SmltMsg) :
    executed ((sendEach ids msg).map .out : List Ev) = [] := by
  induction ids with
  | nil => rfl
  | cons i ids ih => simpa [sendEach] using ih

theorem mem_sendEach {ids : List Nat} {msg m : SmltMsg} {dst : Party} :
    (.send dst m : Out) ∈ sendEach ids msg ↔ m = msg ∧ ∃ i ∈ ids, dst = .replica i := by
  simp only [sendEach, List.mem_map, Output.send.injEq]
  constructor
  · rintro ⟨i, hi, rfl, rfl⟩
    exact ⟨rfl, i, hi, rfl⟩
  · rintro ⟨rfl, i, hi, rfl⟩
    exact ⟨i, hi, rfl, rfl⟩

/-- The message after the loop of `handle_setup`: word 4 is the id of the client
on core `get_client_id(msg->data)`, if there is one. -/
def setupReply (clients : List Nat) (msg : SmltMsg) : SmltMsg :=
  (List.range clients.length).foldl
    (fun m i => if clients.getD i 0 = msg.clientId then { m with data4 := i } else m) msg

/-- `handle_setup`, the same in every algorithm. -/
def handleSetup (cfg : Config) (msg : SmltMsg) : List Out :=
  [.send (.client msg.clientId) (setupReply cfg.clients msg)]

theorem setupReply_data0 (clients : List Nat) (msg : SmltMsg) :
    (setupReply clients msg).data0 = msg.data0 := by
  unfold setupReply
  generalize List.range clients.length = is
  suffices h : ∀ m : SmltMsg, m.data0 = msg.data0 →
      (is.foldl (fun m i => if clients.getD i 0 = msg.clientId then { m with data4 := i } else m)
        m).data0 = msg.data0 from h msg rfl
  induction is with
  | nil => exact fun m hm => hm
  | cons i is ih =>
    intro m hm
    refine ih _ ?_
    dsimp only
    split
    · exact hm
    · exact hm

/-- A client is told the index of its core, which is its client id. -/
theorem setupReply_data4 {cfg : Config} {msg : SmltMsg} {cid : Nat}
    (h : cfg.clients[cid]? = some msg.clientId) : (setupReply cfg.clients msg).data4 = cid := by
  have hlast : ∀ i, i < cfg.clients.length → (cfg.clients.getD i 0 = msg.clientId ↔ i = cid) := by
    intro i hi
    obtain ⟨hl, hget⟩ := List.getElem?_eq_some_iff.mp h
    rw [List.getD_eq_getElem _ _ hi, ← hget]
    exact List.Nodup.getElem_inj_iff cfg.clients_nodup
  obtain ⟨hl, -⟩ := List.getElem?_eq_some_iff.mp h
  unfold setupReply
  suffices key : ∀ is : List Nat, (∀ i ∈ is, i < cfg.clients.length) → ∀ m : SmltMsg,
      (cid ∈ is ∨ m.data4 = cid) →
      (is.foldl (fun m i => if cfg.clients.getD i 0 = msg.clientId then { m with data4 := i } else m)
        m).data4 = cid from
    key _ (fun i hi => List.mem_range.mp hi) msg (.inl (List.mem_range.mpr hl))
  intro is
  induction is with
  | nil =>
    rintro - m (hm | hm)
    · cases hm
    · exact hm
  | cons i is ih =>
    intro his m hm
    rw [List.foldl_cons]
    refine ih (fun j hj => his j (List.mem_cons_of_mem _ hj)) _ ?_
    have hi := hlast i (his i List.mem_cons_self)
    by_cases hic : i = cid
    · right
      rw [if_pos (hi.mpr hic)]
      exact hic
    · rw [if_neg (fun hc => hic (hi.mp hc))]
      rcases hm with hm | hm
      · rcases List.mem_cons.mp hm with heq | hm
        · exact absurd heq.symm hic
        · exact .inl hm
      · exact .inr hm

@[simp] theorem setupReply_tag (clients : List Nat) (msg : SmltMsg) :
    (setupReply clients msg).tag = msg.tag := by
  rw [SmltMsg.tag, setupReply_data0, SmltMsg.tag]

/-- The code of a replica: its state after `init_replica`, the channels its
message loop polls and its message handler. -/
structure ReplicaProc where
  State : Type
  init : Nat → State
  polls : State → Party → Bool
  handle : State → SmltMsg → State × List Out

/-- A client on a given core: what it does with a message and what it may send to
the leader. -/
structure ClientProc (cfg : Config) where
  State : Type
  Call : Type
  init : Nat → State
  polls : Nat → State → Party → Bool
  receive : Nat → State → Party → SmltMsg → State
  call : Nat → State → Call → Option (State × SmltMsg)
  call_ok : ∀ core s x r, call core s x = some r → cfg.FromClient core r.2

/-- A client that waits for the response to a request before the next request. -/
structure WaitingClient (cfg : Config) extends ClientProc cfg where
  outstanding : State → Bool
  init_outstanding : ∀ core, outstanding (init core) = false
  call_request : ∀ core s x r, call core s x = some r → r.2.tag = REQ_TAG →
    outstanding s = false ∧ outstanding r.1 = true
  call_setup : ∀ core s x r, call core s x = some r → r.2.tag ≠ REQ_TAG →
    outstanding r.1 = outstanding s
  receive_setup : ∀ core s src msg, msg.tag = SETUP_TAG →
    outstanding (receive core s src msg) = outstanding s
  receive_response : ∀ core s src msg, outstanding (receive core s src msg) = true →
    outstanding s = true

/-- The group as a network of processes. -/
def cluster {cfg : Config} (R : ReplicaProc) (C : ClientProc cfg) :
    System Party SmltMsg Command where
  Local
    | .replica _ => R.State
    | .client _ => C.State
  Stimulus := C.Call
  init
    | .replica id => R.init id
    | .client core => C.init core
  polls
    | .replica _, l, src => R.polls l src
    | .client core, l, src => C.polls core l src
  handle
    | .replica _, l, _, msg => R.handle l msg
    | .client core, l, src, msg => (C.receive core l src msg, [])
  stimulate
    | .replica _, _, _ => none
    | .client core, l, x => (C.call core l x).map fun r => (r.1, [.send (.replica 0) r.2])

section Rules

variable {cfg : Config} {R : ReplicaProc} {C : ClientProc cfg}

/-- An invariant of the replicas and an assumption on every channel, for all clients. -/
theorem replica_invariant (I : Nat → R.State → List Ev → Prop) (M : Party → Party → SmltMsg → Prop)
    (hinit : ∀ i, I i (R.init i) [])
    (hclient : ∀ core msg, cfg.FromClient core msg → M (.client core) (.replica 0) msg)
    (hhandle : ∀ i l t src msg, I i l t → R.polls l src = true → M src (.replica i) msg →
      I i (R.handle l msg).1 (t ++ .recv src msg :: (R.handle l msg).2.map .out) ∧
      ∀ dst m, .send dst m ∈ (R.handle l msg).2 → M (.replica i) dst m)
    {s : Net (cluster R C)} (h : s.Reachable) :
    (∀ i, I i (s.loc (.replica i)) (s.trace (.replica i))) ∧
      ∀ p q, ∀ m ∈ sentTo q (s.trace p), M p q m := by
  have key := h.assume_guarantee
    (fun p => match p with
      | .replica i => fun (l : R.State) t => I i l t
      | .client _ => fun (_ : C.State) _ => True) M ?_ ?_ ?_
  · exact ⟨fun i => key.1 (.replica i), key.2⟩
  · rintro (i | core)
    · exact hinit i
    · trivial
  · rintro (i | core) l t src msg hI hp hm
    · exact hhandle i l t src msg hI hp hm
    · exact ⟨trivial, fun _ _ hs => by simp [cluster] at hs⟩
  · rintro (i | core) l t x r _ hx
    · simp [cluster] at hx
    · obtain ⟨c, hc, rfl⟩ := Option.map_eq_some_iff.mp hx
      refine ⟨trivial, fun dst m hs => ?_⟩
      simp only [List.mem_singleton, Output.send.injEq] at hs
      obtain ⟨rfl, rfl⟩ := hs
      exact hclient core _ (C.call_ok core l x c hc)

/-- An invariant of one replica that leans on the reachable states around its steps. -/
theorem replica_induction (i : Nat) (I : R.State → List Ev → Prop) (hinit : I (R.init i) [])
    (hhandle : ∀ (s s' : Net (cluster R C)) (l : R.State) src msg, s.Reachable → s'.Reachable →
      I l (s.trace (.replica i)) → R.polls l src = true →
      s'.trace (.replica i) =
        s.trace (.replica i) ++ .recv src msg :: (R.handle l msg).2.map .out →
      I (R.handle l msg).1 (s'.trace (.replica i)))
    {s : Net (cluster R C)} (h : s.Reachable) :
    I (s.loc (.replica i)) (s.trace (.replica i)) := by
  refine h.party_induction (.replica i) I hinit ?_ ?_
  · intro s s' src msg hr hr' hI hp ht
    exact hhandle s s' _ src msg hr hr' hI hp ht
  · intro s s' x r _ _ _ hx
    simp [cluster] at hx

/-- An invariant of one client that leans on the reachable states around its steps. -/
theorem client_induction (core : Nat) (I : C.State → List Ev → Prop) (hinit : I (C.init core) [])
    (hreceive : ∀ (s s' : Net (cluster R C)) (l : C.State) src msg, s.Reachable → s'.Reachable →
      I l (s.trace (.client core)) → C.polls core l src = true →
      s'.trace (.client core) = s.trace (.client core) ++ [.recv src msg] →
      I (C.receive core l src msg) (s'.trace (.client core)))
    (hcall : ∀ (l : C.State) t x r, I l t → C.call core l x = some r →
      I r.1 (t ++ [.out (.send (.replica 0) r.2)]))
    {s : Net (cluster R C)} (h : s.Reachable) :
    I (s.loc (.client core)) (s.trace (.client core)) := by
  refine h.party_induction (.client core) I hinit ?_ ?_
  · intro s s' src msg hr hr' hI hp ht
    exact hreceive s s' _ src msg hr hr' hI hp ht
  · intro s s' x r _ _ hI hx ht
    obtain ⟨c, hc, rfl⟩ := Option.map_eq_some_iff.mp hx
    rw [ht]
    exact hcall _ _ x c hI hc

/-- Invariants of all replicas that lean on each other. -/
theorem group_induction (I : Nat → R.State → List Ev → Prop) (hinit : ∀ i, I i (R.init i) [])
    (hhandle : ∀ (s : Net (cluster R C)) (ls : Nat → R.State) i src msg, s.Reachable →
      (∀ j, I j (ls j) (s.trace (.replica j))) → R.polls (ls i) src = true →
      receivedFrom src (s.trace (.replica i)) ++ [msg] <+: sentTo (.replica i) (s.trace src) →
      I i (R.handle (ls i) msg).1
        (s.trace (.replica i) ++ .recv src msg :: (R.handle (ls i) msg).2.map .out))
    {s : Net (cluster R C)} (h : s.Reachable) (i : Nat) :
    I i (s.loc (.replica i)) (s.trace (.replica i)) := by
  have key := h.joint_induction
    (fun p => match p with
      | .replica i => fun (l : R.State) t => I i l t
      | .client _ => fun (_ : C.State) _ => True) ?_ ?_ ?_
  · exact key (.replica i)
  · rintro (i | core)
    · exact hinit i
    · trivial
  · rintro s src (i | core) msg hr hI hp hnext
    · exact hhandle s (fun j => s.loc (.replica j)) i src msg hr (fun j => hI (.replica j)) hp hnext
    · trivial
  · rintro s (i | core) x r - - hx
    · simp [cluster] at hx
    · trivial

/-- Clients send nothing but set-up messages and requests of their own. -/
theorem fromClient_of_mem_sentTo {s : Net (cluster R C)} (h : s.Reachable) {core : Nat}
    {dst : Party} {msg : SmltMsg} (hm : msg ∈ sentTo dst (s.trace (.client core))) :
    cfg.FromClient core msg := by
  have key := replica_invariant (R := R) (C := C) (fun _ _ _ => True)
    (fun src _ m => match src with
      | .replica _ => True
      | .client core => cfg.FromClient core m)
    (fun _ => trivial) (fun _ _ hf => hf) (fun _ _ _ _ _ _ _ _ => ⟨trivial, fun _ _ _ => trivial⟩) h
  exact key.2 (.client core) dst msg hm

end Rules

/-- The requests a party received. -/
def requests (t : List Ev) : List (Party × SmltMsg) :=
  (inputs t).filter fun x => x.2.tag = REQ_TAG

/-- The commands of the requests a party received. -/
def requested (t : List Ev) : List Command := (requests t).map fun x => x.2.command

/-- The commands of one client. -/
def ofClient (cid : Nat) (cs : List Command) : List Command := cs.filter (·.clientId = cid)

@[simp] theorem ofClient_nil (cid : Nat) : ofClient cid [] = [] := rfl

@[simp] theorem ofClient_append (cid : Nat) (cs ds : List Command) :
    ofClient cid (cs ++ ds) = ofClient cid cs ++ ofClient cid ds :=
  List.filter_append _ _

theorem ofClient_self (c : Command) : ofClient c.clientId [c] = [c] := by
  simp [ofClient]

theorem ofClient_of_ne {cid : Nat} {c : Command} (h : c.clientId ≠ cid) : ofClient cid [c] = [] := by
  simp [ofClient, h]

/-- What clients can see of a replica: the commands it executes and the messages
other than set-up replies that it sends to clients, in program order. -/
def service : List Ev → List Out
  | [] => []
  | .out (.exec c) :: t => .exec c :: service t
  | .out (.send (.client core) msg) :: t =>
    if msg.tag = SETUP_TAG then service t else .send (.client core) msg :: service t
  | _ :: t => service t

@[simp] theorem requests_nil : requests [] = [] := rfl

@[simp] theorem requests_recv (src : Party) (msg : SmltMsg) (t : List Ev) :
    requests (.recv src msg :: t) =
      if msg.tag = REQ_TAG then (src, msg) :: requests t else requests t := by
  unfold requests
  rw [inputs_recv, List.filter_cons]
  simp only [decide_eq_true_eq]

@[simp] theorem requests_out (o : Out) (t : List Ev) :
    requests (.out o :: t) = requests t := rfl

@[simp] theorem service_nil : service [] = [] := rfl

@[simp] theorem service_recv (src : Party) (msg : SmltMsg) (t : List Ev) :
    service (.recv src msg :: t) = service t := rfl

@[simp] theorem service_exec (c : Command) (t : List Ev) :
    service (.out (.exec c) :: t) = .exec c :: service t := rfl

@[simp] theorem service_send_replica (id : Nat) (msg : SmltMsg) (t : List Ev) :
    service (.out (.send (.replica id) msg) :: t) = service t := rfl

@[simp] theorem service_send_client (core : Nat) (msg : SmltMsg) (t : List Ev) :
    service (.out (.send (.client core) msg) :: t) =
      if msg.tag = SETUP_TAG then service t else .send (.client core) msg :: service t := rfl

@[simp] theorem service_send_clientAt (cfg : Config) (cid : Nat) (msg : SmltMsg) (t : List Ev) :
    service (.out (.send (cfg.clientAt cid) msg) :: t) =
      if msg.tag = SETUP_TAG then service t else .send (cfg.clientAt cid) msg :: service t := rfl

@[simp] theorem service_print (text : String) (args : List Nat) (t : List Ev) :
    service (.out (.print text args) :: t) = service t := rfl

@[simp] theorem requests_append (t u : List Ev) :
    requests (t ++ u) = requests t ++ requests u := by
  simp [requests]

@[simp] theorem requests_map_out (os : List Out) : requests (os.map .out) = [] := by
  simp [requests]

@[simp] theorem service_append (t u : List Ev) :
    service (t ++ u) = service t ++ service u := by
  induction t with
  | nil => rfl
  | cons e t ih =>
    rcases e with ⟨src, m⟩ | (⟨_ | core, m⟩ | c | ⟨text, args⟩)
    · simpa using ih
    · simpa using ih
    · by_cases h : m.tag = SETUP_TAG <;> simp_all
    · simpa using ih
    · simpa using ih

@[simp] theorem service_sendEach (ids : List Nat) (msg : SmltMsg) :
    service ((sendEach ids msg).map .out) = [] := by
  induction ids with
  | nil => rfl
  | cons i ids ih => simpa [sendEach] using ih

/-- The command of an execution. -/
def execOf : Out → Option Command
  | .exec c => some c
  | _ => none

/-- The destination and the message of a send. -/
def sendOf : Out → Option (Party × SmltMsg)
  | .send dst msg => some (dst, msg)
  | _ => none

@[simp] theorem filterMap_execOf_exec (c : Command) (os : List Out) :
    (Output.exec c :: os).filterMap execOf = c :: os.filterMap execOf := rfl

@[simp] theorem filterMap_execOf_send (dst : Party) (msg : SmltMsg) (os : List Out) :
    (Output.send dst msg :: os).filterMap execOf = os.filterMap execOf := rfl

@[simp] theorem filterMap_sendOf_exec (c : Command) (os : List Out) :
    (Output.exec c :: os).filterMap sendOf = os.filterMap sendOf := rfl

@[simp] theorem filterMap_sendOf_send (dst : Party) (msg : SmltMsg) (os : List Out) :
    (Output.send dst msg :: os).filterMap sendOf = (dst, msg) :: os.filterMap sendOf := rfl

theorem executed_eq_service (t : List Ev) : executed t = (service t).filterMap execOf := by
  induction t with
  | nil => rfl
  | cons e t ih =>
    rcases e with ⟨src, m⟩ | (⟨_ | core, m⟩ | c | ⟨text, args⟩)
    · simpa using ih
    · simpa using ih
    · by_cases h : m.tag = 0 <;> simp [h, ih]
    · simp [ih]
    · simpa using ih

theorem filterMap_execOf_flatMap {α : Type} (xs : List α) (c : α → Command) (dst : α → Party)
    (msg : α → SmltMsg) :
    (xs.flatMap fun x => [.exec (c x), .send (dst x) (msg x)]).filterMap execOf = xs.map c := by
  induction xs with
  | nil => rfl
  | cons x xs ih => simpa using ih

theorem filterMap_sendOf_flatMap {α : Type} (xs : List α) (c : α → Command) (dst : α → Party)
    (msg : α → SmltMsg) :
    (xs.flatMap fun x => [.exec (c x), .send (dst x) (msg x)]).filterMap sendOf =
      xs.map fun x => (dst x, msg x) := by
  induction xs with
  | nil => rfl
  | cons x xs ih => simpa using ih

/-- The responses a replica sent, with the clients they went to. -/
def responses (t : List Ev) : List (Party × SmltMsg) := (service t).filterMap sendOf

theorem sentTo_client_eq_responses (core : Nat) (t : List Ev) :
    (sentTo (.client core) t).filter (·.tag ≠ SETUP_TAG) =
      ((responses t).filter (·.1 = .client core)).map Prod.snd := by
  induction t with
  | nil => rfl
  | cons e t ih =>
    unfold responses at ih ⊢
    rcases e with ⟨src, m⟩ | (⟨_ | core', m⟩ | c | ⟨text, args⟩)
    · exact ih
    · exact ih
    · by_cases hm : m.tag = 0 <;> by_cases hc : core' = core <;> simp_all
    · exact ih
    · exact ih

/-- Responses go to clients. -/
theorem mem_responses {t : List Ev} {x : Party × SmltMsg} (h : x ∈ responses t) :
    ∃ core, x.1 = .client core := by
  induction t with
  | nil => cases h
  | cons e t ih =>
    unfold responses at ih h
    rcases e with ⟨src, m⟩ | (⟨_ | core, m⟩ | c | ⟨text, args⟩)
    · exact ih h
    · exact ih h
    · rw [service_send_client] at h
      split at h
      · exact ih h
      · rcases List.mem_cons.mp h with rfl | h
        · exact ⟨core, rfl⟩
        · exact ih h
    · exact ih h
    · exact ih h

theorem responses_sublist (t : List Ev) : (responses t).Sublist (sends t) := by
  induction t with
  | nil => exact List.nil_sublist _
  | cons e t ih =>
    unfold responses at ih ⊢
    rcases e with ⟨src, m⟩ | (⟨_ | core, m⟩ | c | ⟨text, args⟩)
    · exact ih
    · exact ih.cons _
    · rw [service_send_client, sends_send]
      split
      · exact ih.cons _
      · exact ih.cons_cons _
    · exact ih
    · exact ih

/-- A replica that sends to one replica only has no response. -/
theorem responses_of_silent {t : List Ev} {i : Nat} (h : ∀ x ∈ sends t, x.1 = .replica i) :
    responses t = [] := by
  rw [List.eq_nil_iff_forall_not_mem]
  intro x hx
  have hclient := mem_responses hx
  obtain ⟨core, hcore⟩ := hclient
  rw [h x ((responses_sublist t).subset hx)] at hcore
  cases hcore

@[simp] theorem responses_append (t u : List Ev) :
    responses (t ++ u) = responses t ++ responses u := by
  simp [responses]

/-- Every request in `t` came from the client that its header names. -/
def OwnRequests (cfg : Config) (t : List Ev) : Prop :=
  ∀ x ∈ requests t, ∃ core, x.1 = .client core ∧ cfg.clients[x.2.clientId]? = some core

theorem OwnRequests.append {cfg : Config} {t u : List Ev} (ht : OwnRequests cfg t)
    (hu : OwnRequests cfg u) : OwnRequests cfg (t ++ u) := by
  intro x hx
  rw [requests_append, List.mem_append] at hx
  rcases hx with hx | hx
  · exact ht x hx
  · exact hu x hx

/-- Requests that come from clients are their own. -/
theorem ownRequests_of {cfg : Config} {R : ReplicaProc} {C : ClientProc cfg}
    {s : Net (cluster R C)} (h : s.Reachable)
    (hclient : ∀ x ∈ requests (s.trace (.replica 0)), ∃ core, x.1 = .client core) :
    OwnRequests cfg (s.trace (.replica 0)) := by
  rintro ⟨src, m⟩ hx
  obtain ⟨core, rfl⟩ := hclient _ hx
  obtain ⟨hin, htag⟩ := List.mem_filter.mp hx
  rw [decide_eq_true_eq] at htag
  have hsent := (h.receivedFrom_prefix _ _).subset (mem_receivedFrom_iff.mpr hin)
  exact ⟨core, rfl, (fromClient_of_mem_sentTo h hsent).request htag⟩

/-- A client's requests by client id are its requests by sender. -/
theorem OwnRequests.ofClient_requested {cfg : Config} {t : List Ev} (h : OwnRequests cfg t)
    {cid core : Nat} (hcid : cfg.clients[cid]? = some core) :
    ofClient cid (requested t) =
      ((requests t).filter (·.1 = .client core)).map fun x => x.2.command := by
  rw [ofClient, requested, List.filter_map]
  congr 1
  refine List.filter_congr fun x hx => ?_
  obtain ⟨core', hx1, hx2⟩ := h x hx
  have hiff : x.2.clientId = cid ↔ x.1 = .client core := by
    rw [hx1, Party.client.injEq]
    constructor
    · intro heq
      rw [heq, hcid] at hx2
      exact (Option.some.inj hx2).symm
    · rintro rfl
      exact cfg.clientId_inj hx2 hcid
  exact decide_eq_decide.mpr hiff

/-- The set-up messages in `t` that name a core. -/
def setupsOf (core : Nat) (t : List Ev) : List SmltMsg :=
  ((inputs t).map Prod.snd).filter fun m => m.tag = SETUP_TAG ∧ m.clientId = core

/-- The set-up messages that a core was sent are the replies to those that name it. -/
def SetupsAnswered (cfg : Config) (t : List Ev) : Prop :=
  ∀ core, (sentTo (.client core) t).filter (·.tag = SETUP_TAG) =
    (setupsOf core t).map (setupReply cfg.clients)

/-- A handler answers a set-up message and sends no other client one. -/
def AnswersSetup (cfg : Config) (msg : SmltMsg) (os : List Out) : Prop :=
  (msg.tag = SETUP_TAG → os = handleSetup cfg msg) ∧
    (msg.tag ≠ SETUP_TAG → ∀ core m, .send (.client core) m ∈ os → m.tag ≠ SETUP_TAG)

theorem setupsAnswered_nil {cfg : Config} : SetupsAnswered cfg [] := fun _ => rfl

theorem SetupsAnswered.step {cfg : Config} {t : List Ev} (h : SetupsAnswered cfg t) {src : Party}
    {msg : SmltMsg} {os : List Out} (hos : AnswersSetup cfg msg os) :
    SetupsAnswered cfg (t ++ .recv src msg :: os.map .out) := by
  intro core
  rw [sentTo_append, List.filter_append, h core, sentTo_recv, setupsOf, setupsOf, inputs_append,
    inputs_recv, inputs_map_out, List.map_append, List.filter_append, List.map_append]
  congr 1
  by_cases hs : msg.tag = SETUP_TAG
  · have htag : (setupReply cfg.clients msg).tag = SETUP_TAG := (setupReply_tag _ _).trans hs
    rw [hos.1 hs, handleSetup]
    by_cases hcore : msg.clientId = core
    · simp only [List.map_cons, List.map_nil, sentTo_send, sentTo_nil, hcore, if_true, hs, htag,
        List.filter_cons_of_pos, decide_true, List.filter_nil, and_self]
    · have hne : ¬ Party.client msg.clientId = .client core := fun heq =>
        hcore (Party.client.inj heq)
      simp only [List.map_cons, List.map_nil, sentTo_send, sentTo_nil, if_neg hne, hs, hcore,
        and_false, decide_false, Bool.false_eq_true, not_false_eq_true, List.filter_cons_of_neg,
        List.filter_nil]
  · have hnone : (sentTo (.client core) (os.map .out : List Ev)).filter (·.tag = SETUP_TAG) =
        [] := by
      rw [List.filter_eq_nil_iff]
      intro m hm
      rw [mem_sentTo_iff, List.mem_map] at hm
      obtain ⟨o, ho, heq⟩ := hm
      obtain rfl := Event.out.inj heq
      rw [decide_eq_true_eq]
      exact hos.2 hs core m ho
    have hmsg : ¬ msg.tag = 0 := hs
    rw [hnone]
    simp [hmsg]

/-- Where every handler answers set-up messages, a replica has answered those it received. -/
theorem setupsAnswered {cfg : Config} {R : ReplicaProc} {C : ClientProc cfg}
    (hR : ∀ l msg, AnswersSetup cfg msg (R.handle l msg).2) {s : Net (cluster R C)}
    (h : s.Reachable) (i : Nat) : SetupsAnswered cfg (s.trace (.replica i)) := by
  apply replica_induction (R := R) (C := C) i (fun _ t => SetupsAnswered cfg t)
    setupsAnswered_nil _ h
  intro s s' l src msg _ _ hI _ ht
  rw [ht]
  exact hI.step (hR l msg)

/-- Without a set-up message, everything sent to a client is a response. -/
theorem SetupsAnswered.no_setup {cfg : Config} {t : List Ev} (h : SetupsAnswered cfg t)
    (hnone : ∀ x ∈ inputs t, x.2.tag ≠ SETUP_TAG) (core : Nat) :
    ∀ m ∈ sentTo (.client core) t, m.tag ≠ SETUP_TAG := by
  intro m hm htag
  have hmem : m ∈ (sentTo (.client core) t).filter (·.tag = SETUP_TAG) :=
    List.mem_filter.mpr ⟨hm, decide_eq_true htag⟩
  rw [h core] at hmem
  obtain ⟨m', hm', -⟩ := List.mem_map.mp hmem
  obtain ⟨hin, hsetup⟩ := List.mem_filter.mp hm'
  obtain ⟨x, hx, rfl⟩ := List.mem_map.mp hin
  rw [decide_eq_true_eq] at hsetup
  exact hnone x hx hsetup.1

/-- A set-up reply tells a client its client id. -/
theorem SetupsAnswered.data4 {cfg : Config} {t : List Ev} (h : SetupsAnswered cfg t) {core : Nat}
    (hcore : core ∈ cfg.clients) {m : SmltMsg} (hm : m ∈ sentTo (.client core) t)
    (htag : m.tag = SETUP_TAG) : cfg.clients[m.data4]? = some core := by
  have hmem : m ∈ (sentTo (.client core) t).filter (·.tag = SETUP_TAG) :=
    List.mem_filter.mpr ⟨hm, decide_eq_true htag⟩
  rw [h core] at hmem
  obtain ⟨m', hm', rfl⟩ := List.mem_map.mp hmem
  have hnamed := (List.mem_filter.mp hm').2
  rw [decide_eq_true_eq] at hnamed
  obtain ⟨cid, hcid⟩ := List.mem_iff_getElem?.mp hcore
  have hreply : (setupReply cfg.clients m').data4 = cid := by
    apply setupReply_data4
    rw [hnamed.2]
    exact hcid
  rw [hreply]
  exact hcid

/-- Where a response goes to the client of its header, the messages to one client are
the responses with its id. -/
theorem sentTo_client_of_responses {cfg : Config} {t : List Ev} {ms : List SmltMsg}
    {f : SmltMsg → SmltMsg}
    (hresp : responses t = ms.map fun m => (cfg.clientAt m.clientId, f m))
    (hms : ∀ m ∈ ms, m.clientId < cfg.clients.length)
    {cid core : Nat} (hcid : cfg.clients[cid]? = some core) :
    (sentTo (.client core) t).filter (·.tag ≠ SETUP_TAG) =
      (ms.filter (·.clientId = cid)).map f := by
  rw [sentTo_client_eq_responses, hresp, List.filter_map, List.map_map]
  congr 1
  refine List.filter_congr fun m hm => ?_
  exact decide_eq_decide.mpr (cfg.clientAt_eq_client_iff (hms m hm) hcid)

/-- The requests among the messages a party sent to the leader. -/
def requestsSent (t : List Ev) : List SmltMsg :=
  (sentTo (.replica 0) t).filter fun m => m.tag = REQ_TAG

/-- The messages other than set-up replies that a client received. -/
def responsesReceived (t : List Ev) : List (Party × SmltMsg) :=
  (inputs t).filter fun x => x.2.tag ≠ SETUP_TAG

/-- Every request that a client sent has been taken by the leader or is in flight to it. -/
theorem requestsSent_eq {cfg : Config} {R : ReplicaProc} {C : ClientProc cfg}
    {s : Net (cluster R C)} (h : s.Reachable) (core : Nat) :
    requestsSent (s.trace (.client core)) =
      ((requests (s.trace (.replica 0))).filter (·.1 = .client core)).map Prod.snd ++
        (s.inFlight (.client core) (.replica 0)).filter (·.tag = REQ_TAG) := by
  unfold requestsSent requests
  rw [h.fifo, List.filter_append, receivedFrom_eq_inputs, List.filter_map, List.filter_filter,
    List.filter_filter]
  congr 3
  funext x
  exact Bool.and_comm _ _

/-- A waiting client has at most one request without a response. -/
theorem requestsSent_length_le {cfg : Config} {R : ReplicaProc} (C : WaitingClient cfg)
    {s : Net (cluster R C.toClientProc)} (h : s.Reachable) (core : Nat) :
    (requestsSent (s.trace (.client core))).length ≤
      (responsesReceived (s.trace (.client core))).length +
        (C.outstanding (s.loc (.client core))).toNat := by
  have key := h.assume_guarantee
    (fun p => match p with
      | .replica _ => fun (_ : R.State) _ => True
      | .client _ => fun (l : C.State) t =>
        (requestsSent t).length ≤ (responsesReceived t).length + (C.outstanding l).toNat)
    (fun _ _ _ => True) ?_ ?_ ?_
  · exact key.1 (.client core)
  · rintro (i | c)
    · trivial
    · simp [requestsSent]
  · rintro (i | c) l t src msg hI _ -
    · exact ⟨trivial, fun _ _ _ => trivial⟩
    · refine ⟨?_, fun _ _ _ => trivial⟩
      change (requestsSent t).length ≤ _ at hI
      change (requestsSent (t ++ [.recv src msg])).length ≤
        (responsesReceived (t ++ [.recv src msg])).length +
          (C.outstanding (C.receive c l src msg)).toNat
      by_cases ht : msg.tag = 0
      · simpa [requestsSent, responsesReceived, ht, C.receive_setup c l src msg ht] using hI
      · have : (C.outstanding l).toNat ≤ 1 := Bool.toNat_le _
        simp only [requestsSent, responsesReceived, sentTo_append, sentTo_recv, sentTo_nil,
          List.append_nil, inputs_append, inputs_recv, inputs_nil, List.filter_append,
          List.length_append] at hI ⊢
        simp only [SETUP_TAG, ne_eq, ht, not_false_eq_true, decide_true, List.filter_cons_of_pos,
          List.filter_nil, List.length_singleton] at hI ⊢
        omega
  · rintro (i | c) l t x r hI hx
    · simp [cluster] at hx
    · refine ⟨?_, fun _ _ _ => trivial⟩
      obtain ⟨r, hr, rfl⟩ := Option.map_eq_some_iff.mp hx
      change (requestsSent t).length ≤ _ at hI
      change (requestsSent (t ++ [.out (.send (.replica 0) r.2)])).length ≤
        (responsesReceived (t ++ [.out (.send (.replica 0) r.2)])).length +
          (C.outstanding r.1).toNat
      by_cases ht : r.2.tag = 1
      · obtain ⟨h0, h1⟩ := C.call_request c l x r hr ht
        simp only [requestsSent, responsesReceived, h0, h1, Bool.toNat_false, Bool.toNat_true,
          REQ_TAG, sentTo_append, sentTo_send, if_true, sentTo_nil, List.filter_append, ht,
          decide_true,
          List.filter_cons_of_pos, List.filter_nil, List.length_append, List.length_singleton,
          inputs_append, inputs_out, inputs_nil, List.append_nil] at hI ⊢
        omega
      · simpa [requestsSent, responsesReceived, ht, C.call_setup c l x r hr ht] using hI

/-- Where one replica alone answers a client that has sent no two requests more than it has
responses, the leader never holds two of its requests that are not answered. -/
theorem requests_length_le_of {cfg : Config} {R : ReplicaProc} {C : ClientProc cfg}
    {s : Net (cluster R C)} (h : s.Reachable) (core i : Nat)
    (hsent : (requestsSent (s.trace (.client core))).length ≤
      (responsesReceived (s.trace (.client core))).length + 1)
    (honly : ∀ p, p ≠ .replica i → ∀ m ∈ sentTo (.client core) (s.trace p), m.tag = SETUP_TAG) :
    ((requests (s.trace (.replica 0))).filter (·.1 = .client core)).length ≤
      ((sentTo (.client core) (s.trace (.replica i))).filter (·.tag ≠ SETUP_TAG)).length + 1 := by
  rw [requestsSent_eq h, List.length_append, List.length_map] at hsent
  -- every response the client has came from replica `i`
  have hfrom : ∀ x ∈ responsesReceived (s.trace (.client core)), x.1 = .replica i := by
    intro x hx
    obtain ⟨hx, ht⟩ := List.mem_filter.mp hx
    by_contra hne
    have hmem := (h.receivedFrom_prefix x.1 (.client core)).subset (mem_receivedFrom_iff.mpr hx)
    simp [honly x.1 hne x.2 hmem] at ht
  have heq : (responsesReceived (s.trace (.client core))).map Prod.snd =
      (receivedFrom (.replica i) (s.trace (.client core))).filter (·.tag ≠ SETUP_TAG) := by
    rw [receivedFrom_eq_inputs, List.filter_map, List.filter_filter,
      ← List.filter_eq_self.mpr fun x hx => decide_eq_true (hfrom x hx), responsesReceived,
      List.filter_filter]
    congr 2
    funext x
    exact Bool.and_comm _ _
  have hle := ((h.receivedFrom_prefix (.replica i) (.client core)).filter
    (·.tag ≠ SETUP_TAG)).length_le
  have hlen := congrArg List.length heq
  rw [List.length_map] at hlen
  omega

/-- Where one replica alone answers a waiting client, the leader never holds two of
its requests that are not answered. -/
theorem requests_length_le {cfg : Config} {R : ReplicaProc} (C : WaitingClient cfg)
    {s : Net (cluster R C.toClientProc)} (h : s.Reachable) (core i : Nat)
    (honly : ∀ p, p ≠ .replica i → ∀ m ∈ sentTo (.client core) (s.trace p), m.tag = SETUP_TAG) :
    ((requests (s.trace (.replica 0))).filter (·.1 = .client core)).length ≤
      ((sentTo (.client core) (s.trace (.replica i))).filter (·.tag ≠ SETUP_TAG)).length + 1 := by
  apply requests_length_le_of h core i _ honly
  have hsent := requestsSent_length_le C h core
  have hout : (C.outstanding (s.loc (.client core))).toNat ≤ 1 := Bool.toNat_le _
  omega

/-- The client that may send at any time whatever a client may send. -/
def anyClient (cfg : Config) : ClientProc cfg where
  State := Unit
  Call := SmltMsg
  init _ := ()
  polls _ _ _ := true
  receive _ _ _ _ := ()
  call core _ msg := if cfg.FromClient core msg then some ((), msg) else none
  call_ok core s msg r h := by
    split at h
    · rename_i hf
      obtain rfl := Option.some.inj h
      exact hf
    · cases h

/-- The free client can send at any time. -/
theorem anyClient_step {cfg : Config} {R : ReplicaProc} (s : Net (cluster R (anyClient cfg)))
    {core : Nat} {msg : SmltMsg} (hfrom : cfg.FromClient core msg) :
    ∃ s', s.step (.stimulate (.client core) msg) = some s' ∧
      s'.trace (.client core) = s.trace (.client core) ++ [.out (.send (.replica 0) msg)] := by
  refine ⟨s.act (.client core) () [.out (.send (.replica 0) msg)], ?_, Net.act_trace_self _ _ _ _⟩
  have hcall : (anyClient cfg).call core (s.loc (.client core)) msg = some ((), msg) := if_pos hfrom
  show (((anyClient cfg).call core (s.loc (.client core)) msg).map _).map _ = _
  rw [hcall]
  rfl

/-- The client that waits for responses and is otherwise free. -/
def anyWaitingClient (cfg : Config) : WaitingClient cfg where
  State := Bool
  Call := SmltMsg
  init _ := false
  polls _ _ _ := true
  receive _ waiting _ msg := waiting && decide (msg.tag = SETUP_TAG)
  call core waiting msg :=
    if cfg.FromClient core msg then
      if msg.tag = REQ_TAG then if waiting then none else some (true, msg)
      else some (waiting, msg)
    else none
  call_ok core s msg r h := by
    split at h
    · rename_i hf
      split at h
      · split at h
        · cases h
        · obtain rfl := Option.some.inj h
          exact hf
      · obtain rfl := Option.some.inj h
        exact hf
    · cases h
  outstanding waiting := waiting
  init_outstanding _ := rfl
  call_request core s msg r h ht := by
    split at h
    · split at h
      · split at h
        · cases h
        · rename_i hw
          obtain rfl := Option.some.inj h
          exact ⟨by simpa using hw, rfl⟩
      · rename_i hn
        obtain rfl := Option.some.inj h
        exact absurd ht hn
    · cases h
  call_setup core s msg r h ht := by
    split at h
    · split at h
      · rename_i hr
        split at h
        · cases h
        · obtain rfl := Option.some.inj h
          exact absurd hr ht
      · obtain rfl := Option.some.inj h
        rfl
    · cases h
  receive_setup _ s _ msg h := by simp [h]
  receive_response _ s _ msg h := by
    simp only [Bool.and_eq_true] at h
    exact h.1

end SmeltConsensus.Cluster.Parties
