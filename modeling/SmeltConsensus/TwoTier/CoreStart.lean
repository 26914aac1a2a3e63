import SmeltConsensus.TwoTier.ComLayer

/-!
The start of a core-level group. `init_protocol_core` fills one argument record
of `thr_args2` for each replica, and hands `smlt_node_start` the record with the
same index of `thr_args`. Both arrays belong to the thread that starts the group,
and on the thread of a replica nothing has ever been written to the second one.
-/

set_option autoImplicit false
set_option relaxedAutoImplicit false

namespace SmeltConsensus.TwoTier.CoreStart

open SmeltConsensus.Cluster.Parties
open SmeltConsensus.TwoTier.ComLayer

/-- The address of a function or of a page, `none` for `NULL`. -/
abbrev Pointer := Option Nat

/-- `cons_args_t`. A pointer to an array of cores is the list of them, `none` for `NULL`. -/
structure ConsArgs where
  id : Nat
  currentCore : Nat
  numClients : Nat
  numReplicas : Nat
  numRequests : Nat
  level : Level
  algBelow : Nat
  algo : Nat
  nodeSize : Nat
  startedFrom : Nat
  cores : Option (List Nat)
  sharedMem : Pointer
  clients : Option (List Nat)
  replicas : Option (List Nat)
  execFunc : Pointer
  deriving DecidableEq

/-- A record of a zeroed array; `CORE_LEVEL` and `ALG_1PAXOS` are 0. -/
def ConsArgs.zero : ConsArgs := ⟨0, 0, 0, 0, 0, .core, 0, ALG_1PAXOS, 0, 0, none, none, none, none, none⟩

/-- `cons_args_t[64]` -/
abbrev ArgTable := Vector ConsArgs 64

namespace ArgTable

def read (table : ArgTable) (i : Nat) : ConsArgs := table[i]?.getD .zero

def write (table : ArgTable) (i : Nat) (args : ConsArgs) : ArgTable := table.setIfInBounds i args

theorem read_write_self (table : ArgTable) {i : Nat} (h : i < 64) (args : ConsArgs) :
    (table.write i args).read i = args := by
  simp [read, write, h]

theorem read_write_of_ne (table : ArgTable) {i j : Nat} (h : j ≠ i) (args : ConsArgs) :
    (table.write i args).read j = table.read j := by
  simp [read, write, Ne.symm h]

end ArgTable

/-- `com_core` with the fields that only the start of the group uses. -/
structure ComCoreT extends ComLayerT where
  replicaId : Nat
  coreToSendTo : Nat
  execFunc : Pointer
  sharedMem : Pointer

/-- The static variables of a thread. -/
structure Statics where
  comCore : ComCoreT
  thrArgs : ArgTable
  thrArgs2 : ArgTable

/-- The static variables of a thread that has just been started. -/
def Statics.zero : Statics where
  comCore := ⟨⟨0, 0, [], 0, 0, 0, false⟩, 0, 0, none, none⟩
  thrArgs := .replicate 64 .zero
  thrArgs2 := .replicate 64 .zero

/-- What the start of a group does. The argument of `smlt_node_start` is what its pointer
leads to. -/
inductive StartEffect
  | nodeStart (core : Nat) (arg : ConsArgs)
  | initShmWriter (replicaId currentCore numClients numReaders cmdSize : Nat)
  | print (text : String) (args : List Nat)
  deriving DecidableEq

/-- The arguments of `com_layer_core_init`, the page that `calloc` returns there, and the
cores on which `smlt_node_start` fails. -/
structure InitCall where
  algorithm : Nat
  replicaId : Nat
  currentCore : Nat
  cores : List Nat
  numCores : Nat
  cmdSize : Nat
  execFn : Pointer
  page : Pointer
  fails : Nat → Bool

/-- `thr_args2[i]` after the assignments for replica `i`. -/
def fillArgs (com : ComCoreT) (algorithm i : Nat) (args : ConsArgs) : ConsArgs :=
  { args with
    numClients := 1
    numReplicas := com.numCores
    algo := algorithm
    level := .core
    algBelow := ALG_NONE
    numRequests := 0
    startedFrom := com.currentCore
    execFunc := com.execFunc
    id := i
    currentCore := com.cores.getD i 0
    sharedMem := com.sharedMem
    replicas := some com.cores
    clients := some [com.currentCore] }

variable (fails : Nat → Bool) (algorithm : Nat)

/-- The part of `init_protocol_core` for one replica, the same in the loop and for the leader. -/
def startReplica (s : Statics) (i : Nat) : Statics × List StartEffect :=
  let s := { s with
    thrArgs2 := s.thrArgs2.write i (fillArgs s.comCore algorithm i (s.thrArgs2.read i)) }
  let core := s.comCore.cores.getD i 0
  (s, .nodeStart core (s.thrArgs.read i) ::
    if fails core then [.print "Staring node failed \n" []] else [])

def startReplicas (s : Statics) : List Nat → Statics × List StartEffect
  | [] => (s, [])
  | i :: is =>
    let (s, es) := startReplica fails algorithm s i
    let (s, es') := startReplicas s is
    (s, es ++ es')

/-- `num_cores` is an `uint8_t`. The leader is started last. -/
def initProtocolCore (s : Statics) : Statics × List StartEffect :=
  let s := { s with comCore.numCores := (s.comCore.numCores + (2 ^ 8 - 1)) % 2 ^ 8 }
  let (s, es) := startReplicas fails algorithm s (List.range' 1 (s.comCore.numCores - 1))
  let (s, es') := startReplica fails algorithm s 0
  ({ s with comCore.initDone := true }, es ++ es')

def comLayerCoreInit (s : Statics) (call : InitCall) : Statics × List StartEffect :=
  let s := { s with comCore := { s.comCore with
    algorithm := call.algorithm
    replicaId := call.replicaId
    cores := call.cores
    numCores := call.numCores
    cmdSize := call.cmdSize
    reqCount := 0
    execFunc := call.execFn
    sharedMem := call.page
    currentCore := call.currentCore
    coreToSendTo := call.cores.getD 0 0 } }
  if call.algorithm = ALG_SHM then
    let writer := StartEffect.initShmWriter call.replicaId call.currentCore 1
      (call.numCores - 1) call.cmdSize
    let (s, es) := initProtocolCore call.fails ALG_SHM s
    (s, writer :: es)
  else if call.algorithm < 7 then initProtocolCore call.fails call.algorithm s
  else (s, [.print "Com Layer: Unknown algorithm \n" []])

/-- A core that a replica is started on, with the record that it receives. -/
def startOf : StartEffect → Option (Nat × ConsArgs)
  | .nodeStart core arg => some (core, arg)
  | _ => none

/-- The replicas that are started, in order. -/
def starts (es : List StartEffect) : List (Nat × ConsArgs) := es.filterMap startOf

/-- The record that replica `i` of the group has to receive. -/
structure RecordFor (call : InitCall) (i : Nat) (args : ConsArgs) : Prop where
  id : args.id = i
  currentCore : args.currentCore = call.cores.getD i 0
  numReplicas : args.numReplicas = call.numCores - 1
  algo : args.algo = call.algorithm
  level : args.level = .core
  algBelow : args.algBelow = ALG_NONE
  numClients : args.numClients = 1
  clients : args.clients = some [call.currentCore]
  sharedMem : args.sharedMem = call.page
  execFunc : args.execFunc = call.execFn

/-- One replica is started for each `i`, on its core and with its record, and no other. -/
structure StartsGroup (call : InitCall) (ss : List (Nat × ConsArgs)) : Prop where
  count : ss.length = call.numCores - 1
  once : ∀ i < call.numCores - 1, ∃ args, RecordFor call i args ∧
    ss.filter (fun s => decide (s.2.id = i)) = [(call.cores.getD i 0, args)]

theorem starts_append (es fs : List StartEffect) : starts (es ++ fs) = starts es ++ starts fs :=
  List.filterMap_append

section Start

variable {fails algorithm}

/-- The record comes from `thr_args`. -/
theorem starts_startReplica (s : Statics) (i : Nat) :
    starts (startReplica fails algorithm s i).2 =
      [(s.comCore.cores.getD i 0, s.thrArgs.read i)] := by
  unfold startReplica
  dsimp only
  split <;> rfl

theorem startReplicas_cons (s : Statics) (i : Nat) (is : List Nat) :
    startReplicas fails algorithm s (i :: is) =
      ((startReplicas fails algorithm (startReplica fails algorithm s i).1 is).1,
        (startReplica fails algorithm s i).2 ++
          (startReplicas fails algorithm (startReplica fails algorithm s i).1 is).2) := rfl

theorem startReplicas_keeps (s : Statics) (is : List Nat) :
    (startReplicas fails algorithm s is).1.comCore = s.comCore ∧
      (startReplicas fails algorithm s is).1.thrArgs = s.thrArgs := by
  induction is generalizing s with
  | nil => exact ⟨rfl, rfl⟩
  | cons i is ih => exact ih (startReplica fails algorithm s i).1

theorem starts_startReplicas (s : Statics) (is : List Nat) :
    starts (startReplicas fails algorithm s is).2 =
      is.map fun i => (s.comCore.cores.getD i 0, s.thrArgs.read i) := by
  induction is generalizing s with
  | nil => rfl
  | cons i is ih =>
    rw [startReplicas_cons, starts_append, starts_startReplica, ih]
    rfl

theorem recordFor_fillArgs {call : InitCall} {com : ComCoreT}
    (hcores : com.cores = call.cores) (hnum : com.numCores = call.numCores - 1)
    (hcore : com.currentCore = call.currentCore) (hpage : com.sharedMem = call.page)
    (hexec : com.execFunc = call.execFn) (i : Nat) (args : ConsArgs) :
    RecordFor call i (fillArgs com call.algorithm i args) where
  id := rfl
  currentCore := congrArg (List.getD · i 0) hcores
  numReplicas := hnum
  algo := rfl
  level := rfl
  algBelow := rfl
  numClients := rfl
  clients := congrArg (fun core => some [core]) hcore
  sharedMem := hpage
  execFunc := hexec

/-- Each record of `thr_args2` is filled once its replica had its turn. -/
theorem startReplicas_filled (s : Statics) {is : List Nat} {i : Nat} (hi : i < 64)
    (hmem : i ∈ is ∨ ∃ args, s.thrArgs2.read i = fillArgs s.comCore algorithm i args) :
    ∃ args, (startReplicas fails algorithm s is).1.thrArgs2.read i =
      fillArgs s.comCore algorithm i args := by
  induction is generalizing s with
  | nil => exact hmem.resolve_left List.not_mem_nil
  | cons j is ih =>
    refine ih (startReplica fails algorithm s j).1 ?_
    rcases eq_or_ne i j with rfl | hne
    · exact Or.inr ⟨_, ArgTable.read_write_self _ hi _⟩
    · refine hmem.imp (fun h => (List.mem_cons.mp h).resolve_left hne) ?_
      rintro ⟨args, hargs⟩
      exact ⟨args, (ArgTable.read_write_of_ne _ hne _).trans hargs⟩

theorem startReplicas_concat (s : Statics) (is : List Nat) (i : Nat) :
    startReplicas fails algorithm s (is ++ [i]) =
      ((startReplica fails algorithm (startReplicas fails algorithm s is).1 i).1,
        (startReplicas fails algorithm s is).2 ++
          (startReplica fails algorithm (startReplicas fails algorithm s is).1 i).2) := by
  induction is generalizing s with
  | nil =>
    rw [List.nil_append, startReplicas_cons]
    exact congrArg (Prod.mk _) (List.append_nil _)
  | cons j is ih => rw [List.cons_append, startReplicas_cons, ih, startReplicas_cons, List.append_assoc]

/-- The followers in the order of their ids, then the leader. -/
def startOrder (m : Nat) : List Nat := List.range' 1 (m - 1) ++ [0]

theorem mem_startOrder {m i : Nat} (h : i < m) : i ∈ startOrder m := by
  rw [startOrder, List.mem_append, List.mem_range'_1, List.mem_singleton]
  omega

theorem initProtocolCore_eq {s t : Statics} {m : Nat} (hm : s.comCore.numCores = m + 1)
    (hlt : m < 2 ^ 8) (ht : t = { s with comCore.numCores := m }) :
    initProtocolCore fails algorithm s =
      ({ (startReplicas fails algorithm t (startOrder m)).1 with comCore.initDone := true },
        (startReplicas fails algorithm t (startOrder m)).2) := by
  have hnum : (s.comCore.numCores + (2 ^ 8 - 1)) % 2 ^ 8 = m := by omega
  rw [startOrder, startReplicas_concat, initProtocolCore, hnum, ht]

end Start

theorem read_zero (i : Nat) : Statics.zero.thrArgs.read i = .zero := by
  show ((Vector.replicate 64 ConsArgs.zero)[i]?).getD .zero = .zero
  rw [Vector.getElem?_replicate]
  split <;> rfl

section Init

variable {call : InitCall}

/-- The core layer when the first replica is started. -/
def groupLayer (call : InitCall) : ComCoreT where
  algorithm := call.algorithm
  currentCore := call.currentCore
  cores := call.cores
  numCores := call.numCores - 1
  cmdSize := call.cmdSize
  reqCount := 0
  initDone := false
  replicaId := call.replicaId
  coreToSendTo := call.cores.getD 0 0
  execFunc := call.execFn
  sharedMem := call.page

def groupStatics (call : InitCall) : Statics := { Statics.zero with comCore := groupLayer call }

/-- The loop and the start of the leader, in one run. -/
def groupRun (call : InitCall) : Statics × List StartEffect :=
  startReplicas call.fails call.algorithm (groupStatics call) (startOrder (call.numCores - 1))

variable (halg : call.algorithm < ALG_NONE) (hpos : 1 ≤ call.numCores)
  (hlt : call.numCores ≤ 2 ^ 8)

include halg hpos hlt

/-- Whether the group is a shared-memory one makes no difference to its start. -/
theorem comLayerCoreInit_eq :
    (comLayerCoreInit .zero call).1 = { (groupRun call).1 with comCore.initDone := true } ∧
      starts (comLayerCoreInit .zero call).2 = starts (groupRun call).2 := by
  obtain ⟨s, hs⟩ : ∃ s : Statics, s =
      { groupStatics call with comCore.numCores := call.numCores } := ⟨_, rfl⟩
  have hm : s.comCore.numCores = call.numCores - 1 + 1 := by
    rw [hs]
    exact (Nat.sub_add_cancel hpos).symm
  have hgroup : groupStatics call = { s with comCore.numCores := call.numCores - 1 } := by
    rw [hs]
    rfl
  have hrun : initProtocolCore call.fails call.algorithm s =
      ({ (groupRun call).1 with comCore.initDone := true }, (groupRun call).2) :=
    initProtocolCore_eq hm (by omega) hgroup
  have hknown : call.algorithm < 7 := Nat.lt_succ_of_lt halg
  have hinit : (comLayerCoreInit .zero call).1 =
        (initProtocolCore call.fails call.algorithm s).1 ∧
      starts (comLayerCoreInit .zero call).2 =
        starts (initProtocolCore call.fails call.algorithm s).2 := by
    unfold comLayerCoreInit
    dsimp only
    -- the layer is set before the two cases differ
    generalize hset : Statics.mk _ _ _ = t
    have ht : t = s := by
      rw [← hset, hs]
      rfl
    rw [ht]
    by_cases hshm : call.algorithm = ALG_SHM
    · rw [if_pos hshm, ← hshm]
      exact ⟨rfl, rfl⟩
    · rw [if_neg hshm, if_pos hknown]
      exact ⟨rfl, rfl⟩
  rwa [hrun] at hinit

/-- Each replica of the group is started on its core, with a zeroed record. -/
theorem starts_comLayerCoreInit :
    starts (comLayerCoreInit .zero call).2 =
      (startOrder (call.numCores - 1)).map fun i => (call.cores.getD i 0, .zero) := by
  rw [(comLayerCoreInit_eq halg hpos hlt).2, groupRun, starts_startReplicas]
  exact List.map_congr_left fun i _ => congrArg (Prod.mk _) (read_zero i)

/-- The records that the replicas do not receive are the right ones. -/
theorem recordFor_thrArgs2 {i : Nat} (hi : i < call.numCores - 1) (h64 : i < 64) :
    RecordFor call i ((comLayerCoreInit .zero call).1.thrArgs2.read i) := by
  have hfilled : ∃ args, (groupRun call).1.thrArgs2.read i =
      fillArgs (groupLayer call) call.algorithm i args :=
    startReplicas_filled (groupStatics call) h64 (Or.inl (mem_startOrder hi))
  obtain ⟨args, hargs⟩ := hfilled
  rw [(comLayerCoreInit_eq halg hpos hlt).1]
  dsimp only
  rw [hargs]
  exact recordFor_fillArgs rfl rfl rfl rfl rfl i args

/-- The layer that `com_layer_core_send_request` then works with. -/
theorem comLayerCoreInit_layer :
    (comLayerCoreInit .zero call).1.comCore.toComLayerT =
      (ComLayer.comLayerCoreInit call.algorithm call.currentCore call.cores call.numCores
        call.cmdSize).1 := by
  have hkeeps : (groupRun call).1.comCore = groupLayer call := (startReplicas_keeps _ _).1
  have hknown : call.algorithm < 7 := Nat.lt_succ_of_lt halg
  rw [(comLayerCoreInit_eq halg hpos hlt).1, ComLayer.comLayerCoreInit, if_pos hknown]
  dsimp only
  rw [hkeeps]
  rfl

end Init

/-- No replica of a core-level group receives its record. -/
theorem never_starts_group {call : InitCall} (halg : call.algorithm < ALG_NONE)
    (h3 : 3 ≤ call.numCores) (h64 : call.numCores ≤ 64) :
    ¬ StartsGroup call (starts (comLayerCoreInit .zero call).2) := by
  intro hstarts
  obtain ⟨args, hrecord, hone⟩ := hstarts.once 0 (by omega)
  have hmem : (call.cores.getD 0 0, args) ∈ starts (comLayerCoreInit .zero call).2 := by
    refine List.mem_of_mem_filter (p := fun s => decide (s.2.id = 0)) ?_
    rw [hone]
    exact List.mem_singleton_self _
  rw [starts_comLayerCoreInit halg (by omega) (by omega)] at hmem
  obtain ⟨i, -, hi⟩ := List.mem_map.mp hmem
  have hzero : args.numReplicas = 0 := by
    rw [← (Prod.mk.inj hi).2]
    rfl
  have hnum := hrecord.numReplicas
  omega

/-- 2PC on a node with the cores 0, 1 and 2. -/
def threeCoreCall : InitCall where
  algorithm := ALG_TPC
  replicaId := 0
  currentCore := 2
  cores := [0, 1, 2]
  numCores := 3
  cmdSize := 24
  execFn := some 4096
  page := some 8192
  fails := fun _ => false

theorem never_starts_three_cores :
    ¬ StartsGroup threeCoreCall (starts (comLayerCoreInit .zero threeCoreCall).2) :=
  never_starts_group (by decide) (by decide) (by decide)

/-- No started replica has the id 1. -/
theorem not_starts_group :
    ¬ StartsGroup threeCoreCall (starts (comLayerCoreInit .zero threeCoreCall).2) := by
  intro hstarts
  obtain ⟨args, -, hone⟩ := hstarts.once 1 (by decide)
  have hnone : (starts (comLayerCoreInit .zero threeCoreCall).2).filter
      (fun s => decide (s.2.id = 1)) = [] := by decide
  rw [hnone] at hone
  cases hone

end SmeltConsensus.TwoTier.CoreStart
