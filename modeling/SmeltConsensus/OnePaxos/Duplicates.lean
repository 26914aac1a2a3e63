import SmeltConsensus.OnePaxos.Execute

/-!
What `execute` makes of a whole run. It compares the request id of a message, which
has 32 bits, with the greatest one of the client so far. So it executes a message
exactly if no earlier one of the client had a request id as great, and a client whose
32-bit counter has gone round is taken for one that repeats its requests.
-/

set_option autoImplicit false
set_option relaxedAutoImplicit false

namespace SmeltConsensus.OnePaxos.Duplicates

open SmeltConsensus.Foundation.Network
open SmeltConsensus.Foundation.LastSeen
open SmeltConsensus.Message.Header
open SmeltConsensus.Cluster.Parties
open SmeltConsensus.OnePaxos.Replica
open SmeltConsensus.OnePaxos.Execute

/-- `execute` for one message after the other: the state at the end and what it does. -/
def executeAll (replica : OnepaxosReplicaT) : List SmltMsg → OnepaxosReplicaT × List Out
  | [] => (replica, [])
  | msg :: ms =>
    let (_, replica, outs) := execute replica msg
    let (replica, outs') := executeAll replica ms
    (replica, outs ++ outs')

/-- The client ids have an entry in `last_executed_rid`. -/
def InTable (ms : List SmltMsg) : Prop := ∀ m ∈ ms, m.clientId < MAX_NUM_CLIENTS

/-- The request id of `msg` is above every earlier one of its client. -/
def Newest (earlier : List SmltMsg) (msg : SmltMsg) : Prop :=
  ∀ m ∈ earlier, m.clientId = msg.clientId → m.requestId < msg.requestId

instance (earlier : List SmltMsg) (msg : SmltMsg) : Decidable (Newest earlier msg) :=
  inferInstanceAs (Decidable (∀ m ∈ earlier, _ → _))

variable {cfg : Config} {id : Nat} {ms : List SmltMsg}

theorem InTable.cons {msg : SmltMsg} (h : InTable (msg :: ms)) :
    msg.clientId < MAX_NUM_CLIENTS ∧ InTable ms :=
  ⟨h msg List.mem_cons_self, fun m hm => h m (List.mem_cons_of_mem _ hm)⟩

theorem InTable.of_prefix {earlier : List SmltMsg} (h : InTable ms) (hp : earlier <+: ms) :
    InTable earlier := fun m hm => h m (hp.subset hm)

/-- What `execute` returns and does, by the duplicate filter. -/
theorem execute_verdict (replica : OnepaxosReplicaT) {cs : List Command} {msg : SmltMsg}
    (h : TableAfter replica.lastExecutedRid cs) (hmsg : msg.clientId < MAX_NUM_CLIENTS) :
    (execute replica msg).1 = passes Command.clientId Command.requestId (lastRid cs) msg.command ∧
      (execute replica msg).2.2 =
        if passes Command.clientId Command.requestId (lastRid cs) msg.command then
          [.exec msg.command] else [] := by
  obtain ⟨success, table, -, hadmit, hexec⟩ := execute_spec replica h hmsg
  rw [admitted_append, List.append_cancel_left_eq] at hadmit
  have hsuccess : passes Command.clientId Command.requestId (lastRid cs) msg.command = success := by
    cases hp : passes Command.clientId Command.requestId (lastRid cs) msg.command <;>
      cases success
    · rfl
    · rw [hp] at hadmit
      cases hadmit
    · rw [hp] at hadmit
      cases hadmit
    · rfl
  rw [hexec, hsuccess]
  exact ⟨rfl, rfl⟩

/-- The filter lets the newest message of its client pass. -/
theorem passes_iff_newest (msg : SmltMsg) :
    passes Command.clientId Command.requestId (lastRid (ms.map SmltMsg.command)) msg.command = true ↔
      Newest ms msg := by
  rw [lastRid, passes_after_iff, List.forall_mem_map]
  rfl

/-- A message that is not the newest is left alone. -/
theorem execute_seen (replica : OnepaxosReplicaT) {msg : SmltMsg}
    (h : TableAfter replica.lastExecutedRid (ms.map SmltMsg.command))
    (hmsg : msg.clientId < MAX_NUM_CLIENTS) (hold : ¬ Newest ms msg) :
    execute replica msg = (false, replica, []) := by
  rw [← passes_iff_newest, Bool.not_eq_true] at hold
  rw [execute, if_pos ((execute_passes h hmsg).mpr hold)]

/-- A run of `execute` is a run of the duplicate filter. -/
theorem executeAll_spec (replica : OnepaxosReplicaT) {cs : List Command}
    (h : TableAfter replica.lastExecutedRid cs) (hms : InTable ms) :
    ∃ table, TableAfter table (cs ++ ms.map SmltMsg.command) ∧
      executeAll replica ms = ({ replica with lastExecutedRid := table },
        (select Command.clientId Command.requestId (lastRid cs)
          (ms.map SmltMsg.command)).map .exec) := by
  induction ms generalizing replica cs with
  | nil => exact ⟨replica.lastExecutedRid, by rwa [List.map_nil, List.append_nil], rfl⟩
  | cons msg ms ih =>
    obtain ⟨hmsg, hms⟩ := hms.cons
    obtain ⟨-, houts⟩ := execute_verdict replica h hmsg
    obtain ⟨success, table, htable, -, hexec⟩ := execute_spec replica h hmsg
    obtain ⟨table', htable', hrest⟩ := ih { replica with lastExecutedRid := table } htable hms
    rw [List.append_assoc] at htable'
    refine ⟨table', htable', ?_⟩
    have hafter : lastRid (cs ++ [msg.command]) =
        note Command.clientId Command.requestId (lastRid cs) msg.command := after_append _ _ _
    have hstate : (execute replica msg).2.1 = { replica with lastExecutedRid := table } := by
      rw [hexec]
    rw [hafter] at hrest
    show ((executeAll (execute replica msg).2.1 ms).1,
      (execute replica msg).2.2 ++ (executeAll (execute replica msg).2.1 ms).2) = _
    rw [hstate, houts, hrest, List.map_cons, select]
    split
    · rfl
    · rfl

section FirstRun

variable (cfg : Config) (id : Nat)

/-- The run from an empty table. -/
theorem executeAll_init (hms : InTable ms) :
    ∃ table, TableAfter table (ms.map SmltMsg.command) ∧
      executeAll (initReplicaOnepaxos cfg id) ms =
        ({ initReplicaOnepaxos cfg id with lastExecutedRid := table },
          (admitted (ms.map SmltMsg.command)).map .exec) :=
  executeAll_spec (initReplicaOnepaxos cfg id) tableAfter_nil hms

/-- After a run, `execute` runs the command of a message exactly if it is the newest. -/
theorem execute_after {msg : SmltMsg} (hms : InTable ms) (hmsg : msg.clientId < MAX_NUM_CLIENTS) :
    (execute (executeAll (initReplicaOnepaxos cfg id) ms).1 msg).1 = decide (Newest ms msg) ∧
      (execute (executeAll (initReplicaOnepaxos cfg id) ms).1 msg).2.2 =
        if Newest ms msg then [.exec msg.command] else [] := by
  obtain ⟨table, htable, heq⟩ := executeAll_init cfg id hms
  have hverdict := execute_verdict
    { initReplicaOnepaxos cfg id with lastExecutedRid := table } htable hmsg
  have hnewest : passes Command.clientId Command.requestId (lastRid (ms.map SmltMsg.command))
      msg.command = decide (Newest ms msg) := by
    rw [Bool.eq_iff_iff, decide_eq_true_eq, passes_iff_newest]
  rw [hnewest] at hverdict
  rw [heq]
  simpa only [decide_eq_true_eq] using hverdict

theorem executed_executeAll (hms : InTable ms) :
    executed ((executeAll (initReplicaOnepaxos cfg id) ms).2.map .out : List Ev) =
      admitted (ms.map SmltMsg.command) := by
  obtain ⟨table, -, heq⟩ := executeAll_init cfg id hms
  rw [heq]
  generalize admitted (ms.map SmltMsg.command) = cs
  induction cs with
  | nil => rfl
  | cons c cs ih => exact congrArg (c :: ·) ih

end FirstRun

/-- The duplicate filter over a run. -/
structure Filtered (replica : OnepaxosReplicaT) (ms : List SmltMsg) : Prop where
  /-- `execute` runs `exec_fn` for a message exactly if its request id is above all earlier ones
  of its client. -/
  runs_newest : ∀ earlier msg, earlier ++ [msg] <+: ms →
    (execute (executeAll replica earlier).1 msg).1 = decide (Newest earlier msg) ∧
      (execute (executeAll replica earlier).1 msg).2.2 =
        if Newest earlier msg then [.exec msg.command] else []
  /-- Messages that have been handled, in any order and number, run nothing and change nothing. -/
  replayed : ∀ again, (∀ m ∈ again, m ∈ ms) →
    executeAll (executeAll replica ms).1 again = ((executeAll replica ms).1, [])

theorem duplicates_filtered (cfg : Config) (id : Nat) (ms : List SmltMsg) (hms : InTable ms) :
    Filtered (initReplicaOnepaxos cfg id) ms := by
  constructor
  · intro earlier msg hp
    have hmsg : msg ∈ ms := hp.subset List.mem_concat_self
    apply execute_after cfg id (hms.of_prefix _) (hms msg hmsg)
    exact (List.prefix_append earlier [msg]).trans hp
  · intro again hagain
    obtain ⟨table, htable, heq⟩ := executeAll_init cfg id hms
    rw [heq]
    induction again with
    | nil => rfl
    | cons msg again ih =>
      have hmem := hagain msg List.mem_cons_self
      have hseen := execute_seen { initReplicaOnepaxos cfg id with lastExecutedRid := table }
        htable (hms msg hmem) (fun hnew => Nat.lt_irrefl _ (hnew msg hmem rfl))
      have hrest := ih fun m hm => hagain m (List.mem_cons_of_mem _ hm)
      rw [executeAll, hseen]
      dsimp only
      rw [hrest]
      rfl

/-- Two clients, a gap and a repetition. -/
theorem duplicates_filtered_gap :
    let zero : SmltMsg := ⟨0, 0, 0, 0, 0, 0, 0⟩
    InTable [zero.stamp 1 4 0 ⟨7, 7, 7⟩, zero.stamp 2 0 0 ⟨8, 8, 8⟩, zero.stamp 1 4 0 ⟨7, 7, 7⟩] ∧
      Filtered (initReplicaOnepaxos .threeNodes 1) [zero.stamp 1 4 0 ⟨7, 7, 7⟩,
        zero.stamp 2 0 0 ⟨8, 8, 8⟩, zero.stamp 1 4 0 ⟨7, 7, 7⟩] := by
  intro zero
  have hms : InTable [zero.stamp 1 4 0 ⟨7, 7, 7⟩, zero.stamp 2 0 0 ⟨8, 8, 8⟩,
      zero.stamp 1 4 0 ⟨7, 7, 7⟩] := by
    unfold InTable
    decide
  exact ⟨hms, duplicates_filtered .threeNodes 1 _ hms⟩

section Counter

/-- The request ids that `request_count`, which has 32 bits, gives to the first `N` requests. -/
def requestCounts (N : Nat) : List Nat := (List.range N).map (· % 2 ^ 32)

/-- `execute` handles every message of the client as a new request. -/
structure ExactlyOnce (replica : OnepaxosReplicaT) (cid : Nat) (ms : List SmltMsg) : Prop where
  returns_true : ∀ earlier msg, earlier ++ [msg] <+: ms → msg.clientId = cid →
    (execute (executeAll replica earlier).1 msg).1 = true
  executed_once : ofClient cid (executed ((executeAll replica ms).2.map .out : List Ev)) =
    ofClient cid (ms.map SmltMsg.command)

variable {cid N : Nat}

theorem requestIds_ofClient (cid : Nat) (ms : List SmltMsg) :
    (ofClient cid (ms.map SmltMsg.command)).map Command.requestId =
      (ms.filter (·.clientId = cid)).map SmltMsg.requestId := by
  rw [ofClient, List.filter_map, List.map_map]
  rfl

/-- Up to `2 ^ 32` requests the counter does not go round. -/
theorem requestCounts_increasing : (requestCounts N).Pairwise (· < ·) ↔ N ≤ 2 ^ 32 := by
  rw [requestCounts, List.pairwise_iff_getElem]
  constructor
  · intro h
    by_contra hlarge
    have hlast : 2 ^ 32 < ((List.range N).map (· % 2 ^ 32)).length := by
      rw [List.length_map, List.length_range]
      omega
    have hlt := h 0 (2 ^ 32) (by omega) hlast (by decide)
    rw [List.getElem_map, List.getElem_map, List.getElem_range, List.getElem_range] at hlt
    omega
  · intro hN i j hi hj hij
    rw [List.length_map, List.length_range] at hi hj
    rw [List.getElem_map, List.getElem_map, List.getElem_range, List.getElem_range]
    omega

theorem increasing_of_executed_once {cs : List Command}
    (h : ofClient cid (admitted cs) = ofClient cid cs) :
    ((ofClient cid cs).map Command.requestId).Pairwise (· < ·) := by
  rw [← h, List.pairwise_map]
  apply ((select_pairwise _ cs).filter _).imp_of_mem
  intro c d hc hd hlt
  have hcid := of_decide_eq_true (List.mem_filter.mp hc).2
  have hdid := of_decide_eq_true (List.mem_filter.mp hd).2
  exact hlt (hcid.trans hdid.symm)

/-- If the client's request ids increase, each of its messages is the newest when it comes. -/
theorem newest_of_increasing {earlier : List SmltMsg} {msg : SmltMsg} (hcid : msg.clientId = cid)
    (h : ((ms.filter (·.clientId = cid)).map SmltMsg.requestId).Pairwise (· < ·))
    (hp : earlier ++ [msg] <+: ms) : Newest earlier msg := by
  intro m hm heq
  have hsub := (hp.sublist.filter (·.clientId = cid)).map SmltMsg.requestId
  rw [List.filter_append, List.map_append] at hsub
  have hmem : m ∈ earlier.filter (·.clientId = cid) :=
    List.mem_filter.mpr ⟨hm, decide_eq_true (heq.trans hcid)⟩
  have hlast : msg ∈ [msg].filter (·.clientId = cid) :=
    List.mem_filter.mpr ⟨List.mem_singleton_self msg, decide_eq_true hcid⟩
  exact (List.pairwise_append.mp (h.sublist hsub)).2.2 _ (List.mem_map_of_mem hmem) _
    (List.mem_map_of_mem hlast)

theorem exactly_once_of_le (cfg : Config) (id : Nat) (hms : InTable ms)
    (hids : (ms.filter (·.clientId = cid)).map SmltMsg.requestId = requestCounts N)
    (hN : N ≤ 2 ^ 32) : ExactlyOnce (initReplicaOnepaxos cfg id) cid ms := by
  have hinc := requestCounts_increasing.mpr hN
  rw [← hids] at hinc
  constructor
  · intro earlier msg hp hcid
    have hmsg : msg ∈ ms := hp.subset List.mem_concat_self
    have hearlier := hms.of_prefix ((List.prefix_append earlier [msg]).trans hp)
    rw [(execute_after cfg id hearlier (hms msg hmsg)).1]
    exact decide_eq_true (newest_of_increasing hcid hinc hp)
  · rw [executed_executeAll cfg id hms]
    apply ofClient_admitted
    rw [← requestIds_ofClient, List.pairwise_map] at hinc
    exact hinc

theorem le_of_exactly_once (cfg : Config) (id : Nat) (hms : InTable ms)
    (hids : (ms.filter (·.clientId = cid)).map SmltMsg.requestId = requestCounts N)
    (h : ExactlyOnce (initReplicaOnepaxos cfg id) cid ms) : N ≤ 2 ^ 32 := by
  have honce := h.executed_once
  rw [executed_executeAll cfg id hms] at honce
  rw [← requestCounts_increasing, ← hids, ← requestIds_ofClient]
  exact increasing_of_executed_once honce

/-- Every request of a client is executed exactly once if and only if its counter does not go
round. -/
theorem exactly_once_iff (cfg : Config) (id cid N : Nat) (ms : List SmltMsg) (hms : InTable ms)
    (hids : (ms.filter (·.clientId = cid)).map SmltMsg.requestId = requestCounts N) :
    ExactlyOnce (initReplicaOnepaxos cfg id) cid ms ↔ N ≤ 2 ^ 32 :=
  ⟨le_of_exactly_once cfg id hms hids, exactly_once_of_le cfg id hms hids⟩

theorem exactly_once_iff_two :
    let zero : SmltMsg := ⟨0, 0, 0, 0, 0, 0, 0⟩
    ExactlyOnce (initReplicaOnepaxos .threeNodes 1) 5 [zero.stamp 5 0 0 ⟨7, 7, 7⟩,
      zero.stamp 6 0 0 ⟨8, 8, 8⟩, zero.stamp 5 1 0 ⟨9, 9, 9⟩] := by
  intro zero
  apply (exactly_once_iff .threeNodes 1 5 2 _ _ _).mpr (by decide)
  · unfold InTable
    decide
  · decide

/-- Request `2 ^ 32` of client 0 has id 0 again. -/
theorem exactly_once_fails : ¬ ∀ (cfg : Config) (id cid N : Nat) (ms : List SmltMsg), InTable ms →
    (ms.filter (·.clientId = cid)).map SmltMsg.requestId = requestCounts N →
    ExactlyOnce (initReplicaOnepaxos cfg id) cid ms := by
  intro hall
  let request (k : Nat) : SmltMsg := SmltMsg.stamp ⟨0, 0, 0, 0, 0, 0, 0⟩ 0 k 0 ⟨0, 0, 0⟩
  have hcid : ∀ k, (request k).clientId = 0 := fun k => SmltMsg.clientId_stamp _ _ _ _ _
  have hrid : ∀ k, (request k).requestId = k % 2 ^ 32 := fun k => SmltMsg.requestId_stamp _ _ _ _ _
  have hms : InTable ((List.range (2 ^ 32 + 1)).map request) := by
    intro m hm
    obtain ⟨k, -, rfl⟩ := List.mem_map.mp hm
    rw [hcid]
    decide
  have hids : (((List.range (2 ^ 32 + 1)).map request).filter (·.clientId = 0)).map
      SmltMsg.requestId = requestCounts (2 ^ 32 + 1) := by
    rw [List.filter_eq_self.mpr, List.map_map, requestCounts]
    · exact List.map_congr_left fun k _ => hrid k
    · intro m hm
      obtain ⟨k, -, rfl⟩ := List.mem_map.mp hm
      exact decide_eq_true (hcid k)
  have hle := le_of_exactly_once .threeNodes 1 hms hids
    (hall .threeNodes 1 0 (2 ^ 32 + 1) _ hms hids)
  omega

end Counter

end SmeltConsensus.OnePaxos.Duplicates
