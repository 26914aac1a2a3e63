import SmeltConsensus.OnePaxos.Execute
import SmeltConsensus.TwoTier.ComLayer

/-!
The node-level 1Paxos replica with a core-level group below it. It executes a
command only if its request is no repetition, but hands down all of them. To a
shared-memory queue it hands down the first word of each.
-/

set_option autoImplicit false
set_option relaxedAutoImplicit false

namespace SmeltConsensus.TwoTier.OnePaxos

open SmeltConsensus.Foundation.LastSeen
open SmeltConsensus.Message.Header
open SmeltConsensus.Cluster.Parties
open SmeltConsensus.OnePaxos.EntryQueue
open SmeltConsensus.OnePaxos.Replica
open SmeltConsensus.OnePaxos.Execute
open SmeltConsensus.TwoTier.ComLayer

/-- The replica with its field `alg_below`, and the communication layer of its thread. -/
structure NodeReplicaT where
  replica : OnepaxosReplicaT
  algBelow : Nat
  com : ComLayerT

/-- The state, the message buffer and the effects of a handler. -/
abbrev NodeDone := NodeReplicaT × SmltMsg × List Effect

/-- `sizeof(3*sizeof(uint64_t))`, the size of a `size_t`. -/
def getCmdSize : Nat := 8

variable (cfg : Config) (kvs : Bool)

/-- `init_replica_onepaxos` on a node with the cores `cores`. -/
def initNode (id algBelow : Nat) (cores : List Nat) (nodeSize : Nat) : NodeReplicaT where
  replica := initReplicaOnepaxos cfg id
  algBelow := algBelow
  com :=
    if algBelow ≠ ALG_NONE then
      (comLayerCoreInit algBelow (cfg.coreOf id) cores nodeSize getCmdSize).1
    else ⟨0, 0, [], 0, 0, 0, false⟩

/-- The command goes to the core-level group, if there is one. -/
def forward (node : NodeReplicaT) (msg : SmltMsg) : NodeDone :=
  if node.algBelow ≠ ALG_NONE then
    let (com, msg, es) := comLayerCoreSendRequest node.com msg
    ({ node with com := com }, msg, es)
  else (node, msg, [])

def handleAccept (node : NodeReplicaT) (msg : SmltMsg) : NodeDone :=
  let replica := node.replica
  if msg.data2 ≥ replica.highestProposalNumber then
    let msg := { msg.withTag ONE_LEARN with data1 := replica.index }
    let learns := sendEach (learners cfg) msg
    let (_, replica, outs) := execute { replica with lastEntry := .message } msg
    let (node, msg, es) := forward { node with replica := replica } msg
    ({ node with replica := advance node.replica msg }, msg, (learns ++ outs).map .out ++ es)
  else (node, msg,
    [.out (.print "Replica %d: in accept sending abandon \n" [replica.id])])

def handleLearn (node : NodeReplicaT) (msg : SmltMsg) : NodeDone :=
  let (success, replica, outs) :=
    execute { node.replica with voted := false, change := false } msg
  let (node, msg, es) := forward { node with replica := replica } msg
  let es := outs.map .out ++ es
  let replica := advance node.replica msg
  if replica.id = replica.currentLeader then
    match dropLearned replica with
    | none => ({ node with replica := { replica with crashed := true } }, msg, es)
    | some replica =>
      if success then
        let (msg, resp) := reply cfg kvs replica msg
        ({ node with replica := replica }, msg, es ++ resp.map .out)
      else ({ node with replica := replica }, msg, es)
  else ({ node with replica := replica }, msg, es)

/-- `message_handler_onepaxos`; the other handlers do not look at `alg_below`. -/
def messageHandlerOnepaxos (node : NodeReplicaT) (msg : SmltMsg) : NodeDone :=
  if msg.tag = ONE_ACC then handleAccept cfg node msg
  else if msg.tag = ONE_LEARN then handleLearn cfg kvs node msg
  else
    let (replica, msg, outs) := OnePaxos.Replica.messageHandlerOnepaxos cfg kvs node.replica msg
    ({ node with replica := replica }, msg, outs.map .out)

/-- The messages are handled one after the other, as long as the process is alive. -/
def handleAll (node : NodeReplicaT) : List SmltMsg → NodeReplicaT × List Effect
  | [] => (node, [])
  | msg :: msgs =>
    if node.replica.crashed then (node, [])
    else
      let (node, _, es) := messageHandlerOnepaxos cfg kvs node msg
      let (node, es') := handleAll node msgs
      (node, es ++ es')

/-- The command of a message that `execute` is called with. -/
def proposal (node : NodeReplicaT) (msg : SmltMsg) : Option Command :=
  if msg.tag = ONE_ACC then
    if msg.data2 ≥ node.replica.highestProposalNumber then some msg.command else none
  else if msg.tag = ONE_LEARN then some msg.command
  else none

/-- The commands that the replica is told to accept or to learn, with all repetitions. -/
def proposals (node : NodeReplicaT) : List SmltMsg → List Command
  | [] => []
  | msg :: msgs =>
    if node.replica.crashed then []
    else (proposal node msg).toList ++
      proposals (messageHandlerOnepaxos cfg kvs node msg).1 msgs

/-- A step that executes nothing and leaves the table alone. -/
def Passive (replica : OnepaxosReplicaT) (r : Done) : Prop :=
  r.1.lastExecutedRid = replica.lastExecutedRid ∧ r.2.2.filterMap execOf = []

section Passive

variable {cfg kvs}

theorem resend_passive (fuel : Nat) (replica : OnepaxosReplicaT) (msg : SmltMsg) :
    Passive replica (resend cfg fuel replica msg) := by
  induction fuel generalizing replica msg with
  | zero => exact ⟨rfl, rfl⟩
  | succ fuel ih =>
    rw [resend]
    split
    · exact ⟨rfl, rfl⟩
    · split
      · split
        · exact ih _ _
        · exact ⟨rfl, rfl⟩
      · exact ⟨rfl, rfl⟩

theorem handleRequest_passive (replica : OnepaxosReplicaT) (msg : SmltMsg) :
    Passive replica (handleRequest cfg replica msg) := by
  unfold handleRequest
  split
  · dsimp only
    split
    · exact ⟨rfl, rfl⟩
    · exact ⟨rfl, rfl⟩
  · exact ⟨rfl, rfl⟩

theorem handlePrepare_passive (replica : OnepaxosReplicaT) (msg : SmltMsg) :
    Passive replica (handlePrepare cfg replica msg) := by
  unfold handlePrepare
  split
  · exact ⟨rfl, rfl⟩
  · exact ⟨rfl, rfl⟩

theorem handlePrepareResponse_passive (replica : OnepaxosReplicaT) (msg : SmltMsg) :
    Passive replica (handlePrepareResponse cfg replica msg) := by
  unfold handlePrepareResponse
  split
  · dsimp only
    split
    · exact ⟨rfl, rfl⟩
    · exact ⟨rfl, rfl⟩
  · exact resend_passive _ _ _

theorem handleIsCurrentLeaderResponse_passive (replica : OnepaxosReplicaT) (msg : SmltMsg) :
    Passive replica (handleIsCurrentLeaderResponse cfg replica msg) := by
  unfold handleIsCurrentLeaderResponse
  split
  · dsimp only
    split
    · split
      · exact ⟨rfl, rfl⟩
      · exact ⟨rfl, rfl⟩
    · exact ⟨rfl, rfl⟩
  · exact ⟨rfl, rfl⟩

theorem handleSetup_passive (replica : OnepaxosReplicaT) (msg : SmltMsg) :
    Passive replica (replica, setupReply cfg.clients msg, handleSetup cfg msg) := ⟨rfl, rfl⟩

/-- A handler of two branches is passive if both are. -/
theorem Passive.ite {replica : OnepaxosReplicaT} {c : Prop} [Decidable c] {r r' : Done}
    (h : Passive replica r) (h' : Passive replica r') : Passive replica (if c then r else r') := by
  split
  · exact h
  · exact h'

variable (cfg kvs) in
/-- Only `handle_accept` and `handle_learn` execute. -/
theorem messageHandler_passive (replica : OnepaxosReplicaT) {msg : SmltMsg}
    (hacc : msg.tag ≠ ONE_ACC) (hlearn : msg.tag ≠ ONE_LEARN) :
    Passive replica (OnePaxos.Replica.messageHandlerOnepaxos cfg kvs replica msg) := by
  have hsame (m : SmltMsg) : Passive replica (replica, m, []) := ⟨rfl, rfl⟩
  rw [OnePaxos.Replica.messageHandlerOnepaxos, if_neg hacc, if_neg hlearn]
  apply Passive.ite (handleSetup_passive replica msg)
  apply Passive.ite (handleRequest_passive replica msg)
  apply Passive.ite (handlePrepare_passive replica msg)
  apply Passive.ite (handlePrepareResponse_passive replica msg)
  apply Passive.ite (hsame msg)
  apply Passive.ite (.ite ⟨rfl, rfl⟩ (hsame msg))
  apply Passive.ite (.ite ⟨rfl, rfl⟩ (hsame msg))
  apply Passive.ite (.ite (.ite (hsame _) (hsame _)) (handleIsCurrentLeaderResponse_passive _ _))
  apply Passive.ite (.ite (.ite (hsame _) ⟨rfl, rfl⟩) (.ite ⟨rfl, rfl⟩ ⟨rfl, rfl⟩))
  apply Passive.ite (.ite (hsame _) (.ite ⟨rfl, rfl⟩ (.ite ⟨rfl, rfl⟩ (hsame _))))
  exact ⟨rfl, rfl⟩

end Passive

/-- What a group with the algorithm `algBelow` gets of a command. -/
def lowered (algBelow : Nat) (c : Command) : List Nat :=
  if algBelow = ALG_SHM then copied getCmdSize c.payload else words c.payload

/-- A node with a running group of the algorithm `alg` below it, after the proposals `cs`. -/
structure Running (alg : Nat) (node : NodeReplicaT) (cs : List Command) : Prop where
  below : node.algBelow ≠ ALG_NONE
  started : node.com.initDone = true
  algorithm : node.com.algorithm = alg
  cmdSize : node.com.cmdSize = getCmdSize
  table : TableAfter node.replica.lastExecutedRid cs

/-- The effects `es` hand all of `cs` down and execute only `xs`. -/
structure Tiers (alg : Nat) (es : List Effect) (cs xs : List Command) : Prop where
  down : handedDown getCmdSize es = cs.map (lowered alg)
  here : executedHere es = xs.map fun c => words c.payload

variable {alg : Nat}

theorem Tiers.append {es fs : List Effect} {cs ds xs ys : List Command} (h : Tiers alg es cs xs)
    (h' : Tiers alg fs ds ys) : Tiers alg (es ++ fs) (cs ++ ds) (xs ++ ys) := by
  constructor
  · rw [handedDown_append, h.down, h'.down, List.map_append]
  · rw [executedHere_append, h.here, h'.here, List.map_append]

variable (alg) in
theorem tiers_out (os : List Out) : Tiers alg (os.map .out) [] (os.filterMap execOf) :=
  ⟨handedDown_map_out getCmdSize os, executedHere_map_out os⟩

theorem filterMap_execOf_sendEach (ids : List Nat) (msg : SmltMsg) :
    (sendEach ids msg).filterMap execOf = [] := by
  induction ids with
  | nil => rfl
  | cons i ids ih => exact ih

variable {cfg kvs}

/-- The command goes down, whatever `execute` said about it. -/
theorem forward_spec {node : NodeReplicaT} {cs : List Command} (h : Running alg node cs)
    (msg : SmltMsg) :
    ∃ count msg' es, forward node msg =
        ({ node with com := { node.com with reqCount := count } }, msg', es) ∧
      Tiers alg es [msg.command] [] := by
  obtain ⟨msg', es, hcall, hdown, hhere⟩ := comLayerCoreSendRequest_spec h.started msg
  refine ⟨node.com.reqCount + 1, msg', es, ?_, ?_, hhere⟩
  · rw [forward, if_pos h.below, hcall]
  · rw [h.cmdSize] at hdown
    rw [hdown, received, h.algorithm, h.cmdSize]
    rfl

variable (cfg kvs) in
/-- The reply executes nothing and hands nothing down. -/
theorem reply_tiers (replica : OnepaxosReplicaT) (msg : SmltMsg) :
    Tiers alg ((reply cfg kvs replica msg).2.map .out) [] [] := by
  have hnone : (reply cfg kvs replica msg).2.filterMap execOf = [] := by
    unfold reply
    split
    · split
      · rfl
      · rfl
    · rfl
  have h := tiers_out alg (reply cfg kvs replica msg).2
  rwa [hnone] at h

/-- What is executed of a command that was or was not a repetition. -/
theorem tiers_exec (success : Bool) (c : Command) :
    Tiers alg ((if success then [.exec c] else [] : List Out).map .out) []
      (if success then [c] else []) := by
  cases success with
  | false => exact ⟨rfl, rfl⟩
  | true => exact ⟨rfl, rfl⟩

/-- Executing and handing down, as both handlers do it. -/
theorem execute_forward (replica : OnepaxosReplicaT) {node : NodeReplicaT} {cs : List Command}
    {msg : SmltMsg} (h : Running alg node cs) (hsame : replica.lastExecutedRid =
      node.replica.lastExecutedRid) (hk : msg.clientId < MAX_NUM_CLIENTS) :
    ∃ success table outs count msg' es xs,
      execute replica msg = (success, { replica with lastExecutedRid := table }, outs) ∧
      forward { node with replica := { replica with lastExecutedRid := table } } msg =
        ({ node with
            replica := { replica with lastExecutedRid := table }
            com := { node.com with reqCount := count } }, msg', es) ∧
      TableAfter table (cs ++ [msg.command]) ∧
      admitted (cs ++ [msg.command]) = admitted cs ++ xs ∧
      Tiers alg (outs.map .out ++ es) [msg.command] xs := by
  have htable := h.table
  rw [← hsame] at htable
  obtain ⟨success, table, htable', hadmitted, hexec⟩ := execute_spec replica htable hk
  have hrun : Running alg { node with replica := { replica with lastExecutedRid := table } }
      (cs ++ [msg.command]) := ⟨h.below, h.started, h.algorithm, h.cmdSize, htable'⟩
  obtain ⟨count, msg', es, hforward, htiers⟩ := forward_spec hrun msg
  refine ⟨success, table, _, count, msg', es, _, hexec, hforward, htable', hadmitted, ?_⟩
  have hall := (tiers_exec success msg.command).append htiers
  rwa [List.nil_append, List.append_nil] at hall

/-- `handle_accept` hands its command down and executes it if it is no repetition. -/
theorem handleAccept_step {node : NodeReplicaT} {cs : List Command} {msg : SmltMsg}
    (h : Running alg node cs) (hk : msg.clientId < MAX_NUM_CLIENTS)
    (haccept : msg.data2 ≥ node.replica.highestProposalNumber) :
    ∃ xs, admitted (cs ++ [msg.command]) = admitted cs ++ xs ∧
      Running alg (handleAccept cfg node msg).1 (cs ++ [msg.command]) ∧
      Tiers alg (handleAccept cfg node msg).2.2 [msg.command] xs := by
  obtain ⟨learn, hlearn⟩ : ∃ m : SmltMsg,
    m = { msg.withTag ONE_LEARN with data1 := node.replica.index } := ⟨_, rfl⟩
  have hcommand : learn.command = msg.command := by
    rw [hlearn]
    exact SmltMsg.command_withTag msg ONE_LEARN
  have hcid : learn.clientId < MAX_NUM_CLIENTS := by
    have hid := congrArg Command.clientId hcommand
    exact lt_of_eq_of_lt hid hk
  obtain ⟨success, table, outs, count, msg', es, xs, hexec, hforward, htable, hadmitted, htiers⟩ :=
    execute_forward { node.replica with lastEntry := .message } h rfl hcid
  rw [hcommand] at htable hadmitted htiers
  have hlearns := tiers_out alg (sendEach (learners cfg) learn)
  rw [filterMap_execOf_sendEach] at hlearns
  have heq : handleAccept cfg node msg =
      ({ node with
          replica := advance
            { node.replica with lastEntry := .message, lastExecutedRid := table } msg'
          com := { node.com with reqCount := count } },
        msg', (sendEach (learners cfg) learn ++ outs).map .out ++ es) := by
    rw [handleAccept]
    simp only [if_pos haccept, ← hlearn]
    rw [hexec]
    dsimp only
    rw [hforward]
  refine ⟨xs, hadmitted, ?_, ?_⟩
  · rw [heq]
    refine ⟨h.below, h.started, h.algorithm, h.cmdSize, ?_⟩
    rw [advance_eq]
    exact htable
  · rw [heq, List.map_append, List.append_assoc]
    exact hlearns.append htiers

/-- Dropping an entry of the queue leaves the table alone. -/
theorem dropLearned_table {replica replica' : OnepaxosReplicaT}
    (h : dropLearned replica = some replica') :
    replica'.lastExecutedRid = replica.lastExecutedRid := by
  unfold dropLearned at h
  split at h
  · obtain ⟨⟨queue, ele⟩, -, rfl⟩ := Option.map_eq_some_iff.mp h
    cases ele with
    | none => rfl
    | some ele => rfl
  · obtain rfl := Option.some.inj h
    rfl

/-- `handle_learn` does the same; what it sends afterwards goes to the client. -/
theorem handleLearn_step {node : NodeReplicaT} {cs : List Command} {msg : SmltMsg}
    (h : Running alg node cs) (hk : msg.clientId < MAX_NUM_CLIENTS) :
    ∃ xs, admitted (cs ++ [msg.command]) = admitted cs ++ xs ∧
      Running alg (handleLearn cfg kvs node msg).1 (cs ++ [msg.command]) ∧
      Tiers alg (handleLearn cfg kvs node msg).2.2 [msg.command] xs := by
  obtain ⟨success, table, outs, count, msg', es, xs, hexec, hforward, htable, hadmitted, htiers⟩ :=
    execute_forward { node.replica with voted := false, change := false } h rfl hk
  have hkept : (advance { node.replica with
      voted := false, change := false, lastExecutedRid := table } msg').lastExecutedRid =
        table := by
    rw [advance_eq]
  refine ⟨xs, hadmitted, ?_⟩
  unfold handleLearn
  rw [hexec]
  dsimp only
  rw [hforward]
  dsimp only
  split
  · split
    · exact ⟨⟨h.below, h.started, h.algorithm, h.cmdSize, by rw [hkept]; exact htable⟩, htiers⟩
    · rename_i replica hdrop
      have htab := (dropLearned_table hdrop).trans hkept
      split
      · refine ⟨⟨h.below, h.started, h.algorithm, h.cmdSize, by rw [htab]; exact htable⟩, ?_⟩
        have hall := htiers.append (reply_tiers cfg kvs replica msg')
        rwa [List.append_nil, List.append_nil] at hall
      · exact ⟨⟨h.below, h.started, h.algorithm, h.cmdSize, by rw [htab]; exact htable⟩, htiers⟩
  · exact ⟨⟨h.below, h.started, h.algorithm, h.cmdSize, by rw [hkept]; exact htable⟩, htiers⟩

variable (cfg kvs) in
/-- What one message does to the two tiers. -/
theorem messageHandler_step {node : NodeReplicaT} {cs : List Command} {msg : SmltMsg}
    (h : Running alg node cs) (hk : msg.clientId < MAX_NUM_CLIENTS) :
    ∃ xs, admitted (cs ++ (proposal node msg).toList) = admitted cs ++ xs ∧
      Running alg (messageHandlerOnepaxos cfg kvs node msg).1 (cs ++ (proposal node msg).toList) ∧
      Tiers alg (messageHandlerOnepaxos cfg kvs node msg).2.2 (proposal node msg).toList xs := by
  unfold messageHandlerOnepaxos proposal
  by_cases hacc : msg.tag = ONE_ACC
  · rw [if_pos hacc, if_pos hacc]
    by_cases haccept : msg.data2 ≥ node.replica.highestProposalNumber
    · rw [if_pos haccept]
      exact handleAccept_step h hk haccept
    · rw [if_neg haccept, handleAccept]
      simp only [if_neg haccept, Option.toList_none, List.append_nil]
      exact ⟨[], (List.append_nil _).symm, h, rfl, rfl⟩
  · rw [if_neg hacc, if_neg hacc]
    by_cases hlearn : msg.tag = ONE_LEARN
    · rw [if_pos hlearn, if_pos hlearn]
      exact handleLearn_step h hk
    · rw [if_neg hlearn, if_neg hlearn]
      obtain ⟨htable, hexec⟩ :=
        messageHandler_passive cfg kvs node.replica hacc hlearn
      have htiers := tiers_out alg
        (OnePaxos.Replica.messageHandlerOnepaxos cfg kvs node.replica msg).2.2
      rw [hexec] at htiers
      rw [Option.toList_none, List.append_nil]
      refine ⟨[], (List.append_nil _).symm,
        ⟨h.below, h.started, h.algorithm, h.cmdSize, ?_⟩, htiers⟩
      rw [htable]
      exact h.table

variable (cfg kvs) in
/-- What a run does: all proposals go down, and those that are no repetitions are executed. -/
theorem handleAll_tiers {node : NodeReplicaT} {cs : List Command} {msgs : List SmltMsg}
    (h : Running alg node cs) (hk : ∀ msg ∈ msgs, msg.clientId < MAX_NUM_CLIENTS) :
    ∃ xs, admitted (cs ++ proposals cfg kvs node msgs) = admitted cs ++ xs ∧
      Tiers alg (handleAll cfg kvs node msgs).2 (proposals cfg kvs node msgs) xs := by
  induction msgs generalizing node cs with
  | nil =>
    refine ⟨[], ?_, rfl, rfl⟩
    rw [proposals, List.append_nil, List.append_nil]
  | cons msg msgs ih =>
    rw [proposals, handleAll]
    split
    · refine ⟨[], ?_, rfl, rfl⟩
      rw [List.append_nil, List.append_nil]
    · obtain ⟨xs, hadmitted, hrun, htiers⟩ :=
        messageHandler_step cfg kvs h (hk msg List.mem_cons_self)
      obtain ⟨ys, hrest, htiers'⟩ := ih hrun (fun m hm => hk m (List.mem_cons_of_mem _ hm))
      refine ⟨xs ++ ys, ?_, htiers.append htiers'⟩
      rw [← List.append_assoc, hrest, hadmitted, List.append_assoc]

/-- The request ids of each client increase strictly. -/
def Increasing (cs : List Command) : Prop :=
  cs.Pairwise fun c d => c.clientId = d.clientId → c.requestId < d.requestId

instance (cs : List Command) : Decidable (Increasing cs) :=
  inferInstanceAs (Decidable (List.Pairwise _ _))

theorem initNode_running {id algBelow : Nat} (h : algBelow < ALG_NONE) (cores : List Nat)
    (nodeSize : Nat) : Running algBelow (initNode cfg id algBelow cores nodeSize) [] := by
  have hbelow : algBelow ≠ ALG_NONE := Nat.ne_of_lt h
  have hknown : algBelow < 7 := Nat.lt_succ_of_lt h
  have hcom : (initNode cfg id algBelow cores nodeSize).com =
      (comLayerCoreInit algBelow (cfg.coreOf id) cores nodeSize getCmdSize).1 := if_pos hbelow
  rw [comLayerCoreInit, if_pos hknown] at hcom
  refine ⟨hbelow, ?_, ?_, ?_, tableAfter_nil⟩
  · rw [hcom]
  · rw [hcom]
  · rw [hcom]

/-- A slot has room for one of the three words. -/
theorem lowered_shm (c : Command) : lowered ALG_SHM c = [c.payload.word0] := rfl

theorem lowered_of_ne {algBelow : Nat} (h : algBelow ≠ ALG_SHM) (c : Command) :
    lowered algBelow c = words c.payload := if_neg h

/-- The two tiers get the same commands exactly if no proposal is a repetition and, where they
go down through a shared-memory queue, there is none. -/
theorem tiers_agree_iff {id algBelow : Nat} (hbelow : algBelow < ALG_NONE) (cores : List Nat)
    (nodeSize : Nat) {msgs : List SmltMsg} (hk : ∀ msg ∈ msgs, msg.clientId < MAX_NUM_CLIENTS) :
    handedDown getCmdSize (handleAll cfg kvs (initNode cfg id algBelow cores nodeSize) msgs).2 =
        executedHere (handleAll cfg kvs (initNode cfg id algBelow cores nodeSize) msgs).2 ↔
      Increasing (proposals cfg kvs (initNode cfg id algBelow cores nodeSize) msgs) ∧
        (algBelow = ALG_SHM →
          proposals cfg kvs (initNode cfg id algBelow cores nodeSize) msgs = []) := by
  have hrun : Running algBelow (initNode cfg id algBelow cores nodeSize) [] :=
    initNode_running hbelow cores nodeSize
  obtain ⟨xs, hadmitted, htiers⟩ := handleAll_tiers cfg kvs hrun hk
  rw [List.nil_append] at hadmitted
  obtain ⟨ps, hps⟩ : ∃ ps, proposals cfg kvs (initNode cfg id algBelow cores nodeSize) msgs = ps :=
    ⟨_, rfl⟩
  rw [hps] at htiers hadmitted ⊢
  have hxs : admitted ps = xs := hadmitted
  rw [htiers.down, htiers.here, ← hxs]
  constructor
  · intro heq
    have hlen := congrArg List.length heq
    rw [List.length_map, List.length_map] at hlen
    refine ⟨select_length_iff.mp hlen.symm, ?_⟩
    -- the first command would have one word and three
    rintro rfl
    by_contra hne
    obtain ⟨c, cs, rfl⟩ := List.exists_cons_of_ne_nil hne
    rw [List.map_cons, lowered_shm] at heq
    obtain ⟨d, -, hd⟩ := List.mem_map.mp (heq ▸ List.mem_cons_self)
    exact absurd (congrArg List.length hd) (by decide : (3 : Nat) ≠ 1)
  · rintro ⟨hinc, hshm⟩
    by_cases hne : algBelow = ALG_SHM
    · rw [hshm hne]
      rfl
    · have hall : admitted ps = ps :=
        (select_sublist _ _).eq_of_length (select_length_iff.mpr hinc)
      rw [hall]
      exact List.map_congr_left fun c _ => lowered_of_ne hne c

/-- Three nodes and one client. -/
def threeNodes : Config := { Config.threeNodes with
  clients := [9]
  clients_nodup := by decide
  numClients_lt := by decide
  core_lt := by decide }

/-- The decision that request `requestId` of client 0 is learned at index `index`. -/
def learned (index requestId : Nat) : SmltMsg :=
  ⟨setRequestId (setTag 0 ONE_LEARN) requestId, index, 1, 0, 4, 5, 6⟩

/-- Nodes 2 with its cores 8 to 11, of which the first three run two-phase commit. -/
theorem tiers_agree_two_requests :
    (∀ msg ∈ [learned 0 0, learned 1 1], msg.clientId < MAX_NUM_CLIENTS) ∧
    handedDown getCmdSize (handleAll threeNodes false (initNode threeNodes 2 ALG_TPC [8, 9, 10, 11] 4)
        [learned 0 0, learned 1 1]).2 =
      executedHere (handleAll threeNodes false (initNode threeNodes 2 ALG_TPC [8, 9, 10, 11] 4)
        [learned 0 0, learned 1 1]).2 :=
  have hk : ∀ msg ∈ [learned 0 0, learned 1 1], msg.clientId < MAX_NUM_CLIENTS := by decide
  ⟨hk, (tiers_agree_iff (by decide) [8, 9, 10, 11] 4 hk).mpr (by decide)⟩

/-- A request that is learned twice is executed once and handed down twice. -/
theorem repeated_learn_forwarded :
    executedHere (handleAll threeNodes false (initNode threeNodes 2 ALG_TPC [8, 9, 10, 11] 4)
      [learned 0 0, learned 1 0]).2 = [[4, 5, 6]] ∧
    handedDown getCmdSize (handleAll threeNodes false (initNode threeNodes 2 ALG_TPC [8, 9, 10, 11] 4)
      [learned 0 0, learned 1 0]).2 = [[4, 5, 6], [4, 5, 6]] := by
  decide

end SmeltConsensus.TwoTier.OnePaxos
