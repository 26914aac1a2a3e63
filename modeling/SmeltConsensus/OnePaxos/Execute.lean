import SmeltConsensus.Foundation.LastSeen
import SmeltConsensus.OnePaxos.Replica

/-! `execute` is a duplicate filter on the request ids of each client. -/

set_option autoImplicit false
set_option relaxedAutoImplicit false

namespace SmeltConsensus.OnePaxos.Execute

open SmeltConsensus.Foundation.Network
open SmeltConsensus.Foundation.LastSeen
open SmeltConsensus.Message.Header
open SmeltConsensus.Cluster.Parties
open SmeltConsensus.OnePaxos.Replica

/-- The last request id executed for each client after the commands `cs`. -/
def lastRid (cs : List Command) : Nat → Option Nat :=
  after Command.clientId Command.requestId (fun _ => none) cs

/-- The commands among `cs` that a replica executes when it handles them in order. -/
def admitted (cs : List Command) : List Command :=
  select Command.clientId Command.requestId (fun _ => none) cs

/-- The table of a replica that has handled the commands `cs`. -/
def TableAfter (table : ClientTable) (cs : List Command) : Prop :=
  ∀ cid, cid < MAX_NUM_CLIENTS → table.read cid = (lastRid cs cid).getD noRid ∧
    ∀ n, lastRid cs cid = some n → n < 2 ^ 32

theorem admitted_append (cs : List Command) (c : Command) :
    admitted (cs ++ [c]) = admitted cs ++
      if passes Command.clientId Command.requestId (lastRid cs) c then [c] else [] := by
  rw [admitted, select_append, select_singleton]
  rfl

theorem admitted_prefix {cs ds : List Command} (h : cs <+: ds) : admitted cs <+: admitted ds :=
  select_prefix _ h

/-- No request is executed twice. -/
theorem admitted_nodup (cs : List Command) :
    ((admitted cs).map fun c => (c.clientId, c.requestId)).Nodup := by
  rw [List.nodup_iff_pairwise_ne, List.pairwise_map]
  refine (select_pairwise _ cs).imp ?_
  intro c d hlt heq
  obtain ⟨hcid, hrid⟩ := Prod.mk.inj heq
  have := hlt hcid
  omega

/-- A client whose request ids increase has every command executed. -/
theorem ofClient_admitted (cid : Nat) (cs : List Command)
    (hinc : (ofClient cid cs).Pairwise fun c d => c.requestId < d.requestId) :
    ofClient cid (admitted cs) = ofClient cid cs :=
  filter_select_of_increasing cid _ cs (fun n hn => by simp at hn) hinc

theorem tableAfter_nil : TableAfter (Vector.replicate MAX_NUM_CLIENTS noRid) [] := by
  intro cid hcid
  refine ⟨?_, fun n hn => by simp [lastRid] at hn⟩
  simp [ClientTable.read, hcid, lastRid]

theorem requestId_lt (msg : SmltMsg) : msg.requestId < 2 ^ 32 := Nat.mod_lt _ (by decide)

/-- The test of `execute` is the duplicate filter. -/
theorem execute_passes {replica : OnepaxosReplicaT} {cs : List Command} {msg : SmltMsg}
    (h : TableAfter replica.lastExecutedRid cs) (hk : msg.clientId < MAX_NUM_CLIENTS) :
    (replica.lastExecutedRid.read msg.clientId = msg.requestId ∨
      replica.lastExecutedRid.read msg.clientId > msg.requestId ∧
        ¬ replica.lastExecutedRid.read msg.clientId = noRid) ↔
    passes Command.clientId Command.requestId (lastRid cs) msg.command = false := by
  obtain ⟨hread, hbound⟩ := h msg.clientId hk
  have hrid := requestId_lt msg
  have hno : noRid = 2 ^ 64 - 1 := rfl
  have hcid : msg.command.clientId = msg.clientId := rfl
  have hnum : msg.command.requestId = msg.requestId := rfl
  rw [passes, hcid, hnum, hread]
  cases hlast : lastRid cs msg.clientId with
  | none =>
    rw [Option.getD_none]
    constructor
    · rintro (heq | ⟨-, hne⟩)
      · omega
      · exact absurd rfl hne
    · simp
  | some n =>
    have hn := hbound n hlast
    rw [Option.getD_some, decide_eq_false_iff_not]
    constructor
    · rintro (heq | ⟨hgt, -⟩)
      · omega
      · omega
    · intro hle
      omega

/-- What `execute` does, and that the table keeps up. -/
theorem execute_spec (replica : OnepaxosReplicaT) {cs : List Command} {msg : SmltMsg}
    (h : TableAfter replica.lastExecutedRid cs) (hk : msg.clientId < MAX_NUM_CLIENTS) :
    ∃ success table, TableAfter table (cs ++ [msg.command]) ∧
      admitted (cs ++ [msg.command]) = admitted cs ++ (if success then [msg.command] else []) ∧
      execute replica msg = (success, { replica with lastExecutedRid := table },
        if success then [.exec msg.command] else []) := by
  have hiff := execute_passes h hk
  have hafter : lastRid (cs ++ [msg.command]) =
      note Command.clientId Command.requestId (lastRid cs) msg.command := after_append _ _ _
  cases hp : passes Command.clientId Command.requestId (lastRid cs) msg.command with
  | false =>
    refine ⟨false, replica.lastExecutedRid, ?_, ?_, ?_⟩
    · rw [TableAfter, hafter, note, if_neg (by simp [hp])]
      exact h
    · rw [admitted_append, hp]
    · rw [execute, if_pos (hiff.mpr hp)]
      rfl
  | true =>
    refine ⟨true, replica.lastExecutedRid.write msg.clientId msg.requestId, ?_, ?_, ?_⟩
    · intro cid hcid
      rw [hafter, note, if_pos hp]
      rcases eq_or_ne cid msg.clientId with rfl | hne
      · have hself : Function.update (lastRid cs) msg.command.clientId
            (some msg.command.requestId) msg.clientId = some msg.requestId :=
          Function.update_self _ _ _
        rw [ClientTable.read_write_self _ hk, hself]
        refine ⟨rfl, fun n hn => ?_⟩
        obtain rfl := Option.some.inj hn
        exact requestId_lt msg
      · have hother : Function.update (lastRid cs) msg.command.clientId
            (some msg.command.requestId) cid = lastRid cs cid := Function.update_of_ne hne _ _
        rw [ClientTable.read_write_of_ne _ hne, hother]
        exact h cid hcid
    · rw [admitted_append, hp]
    · have hnot : ¬ (replica.lastExecutedRid.read msg.clientId = msg.requestId ∨
          replica.lastExecutedRid.read msg.clientId > msg.requestId ∧
            ¬ replica.lastExecutedRid.read msg.clientId = noRid) := by
        intro hc
        have := hiff.mp hc
        rw [hp] at this
        cases this
      rw [execute, if_neg hnot]
      rfl

theorem advance_eq (replica : OnepaxosReplicaT) (msg : SmltMsg) :
    advance replica msg = { replica with index := msg.data1 + 1 } := by
  unfold advance
  by_cases h : replica.index = msg.data1
  · simp only [ne_eq, h, not_true_eq_false, if_false]
  · simp only [ne_eq, h, not_false_eq_true, if_true]

end SmeltConsensus.OnePaxos.Execute
