import SmeltConsensus.Foundation.Buffer
import SmeltConsensus.TwoTier.CoreStart

/-!
The start of the node-level replicas by `init_protocol_node`. The cores of all
nodes are in one array, row by row; replica 0 is handed this array, every other
replica a copy of its row.
-/

set_option autoImplicit false
set_option relaxedAutoImplicit false

namespace SmeltConsensus.TwoTier.NodeStart

open SmeltConsensus.Foundation.Buffer
open SmeltConsensus.TwoTier.CoreStart

/-- The fields of `com_node` that are used. -/
structure ComNodeT where
  algorithm : Nat
  cores : List Nat
  nodeCores : List Nat
  clientCores : List Nat
  numCores : Nat
  numClients : Nat
  algBelow : Nat
  nodeSize : Nat
  execFunc : Pointer
  initDone : Bool

/-- `thr_args`, the arrays behind `core_tmp`, and what has been done. -/
structure NodeStartT where
  thrArgs : ArgTable
  coreTmp : List (List Nat)
  effects : List StartEffect

variable (com : ComNodeT) (fails : Nat → Bool) (junk : Nat → Nat)

/-- `thr_args[i]` after the assignments for replica `i`. -/
def fillNodeArgs (i core : Nat) (cores : List Nat) (args : ConsArgs) : ConsArgs :=
  { args with
    numClients := com.numClients
    numReplicas := com.numCores
    algo := com.algorithm
    level := .node
    algBelow := com.algBelow
    numRequests := 0
    nodeSize := com.nodeSize
    startedFrom := 0
    cores := some cores
    execFunc := com.execFunc
    id := i
    currentCore := core
    replicas := some com.cores
    clients := some com.clientCores }

/-- Replica `i` is started with the core list `cores`. -/
def startNode (i : Nat) (cores : List Nat) (s : NodeStartT) : Option NodeStartT :=
  com.cores[i]?.bind fun core =>
    if i < 64 then
      let thrArgs := s.thrArgs.write i (fillNodeArgs com i core cores (s.thrArgs.read i))
      some { s with
        thrArgs := thrArgs
        effects := s.effects ++ .nodeStart core (thrArgs.read i) ::
          if fails core then [.print "Staring node failed \n" []] else [] }
    else none

/-- One round of the loop. The copy has `node_size` elements, its array `num_cores` of them. -/
def nodeRound (i : Nat) (s : NodeStartT) : Option NodeStartT :=
  let s := { s with effects :=
    s.effects ++ [StartEffect.print "################## Node %d ##################\n" [i]] }
  (fill (fun j => com.nodeCores[i * com.nodeSize + j]?) com.nodeSize
    (malloc junk com.numCores)).bind fun tmp =>
      (writeAt s.coreTmp i tmp).bind fun coreTmp =>
        startNode com fails i tmp { s with coreTmp := coreTmp }

def initProtocolNode (thrArgs : ArgTable) : Option (ComNodeT × NodeStartT) :=
  let s : NodeStartT := ⟨thrArgs, List.replicate com.numCores [],
    [.print "################## Node 0 ##################\n" []]⟩
  (startNode com fails 0 com.nodeCores s).bind fun s =>
    (forLoop 1 com.numCores (nodeRound com fails junk) s).map fun s =>
      ({ com with initDone := true }, s)

/-- What replica `k` is started with: its core, and its row of the array. -/
def Placed (k : Nat) (start : Nat × ConsArgs) : Prop :=
  com.cores[k]? = some start.1 ∧ ∃ cores args, start.2 = fillNodeArgs com k start.1 cores args ∧
    ∀ j < com.nodeSize, cores[j]? = com.nodeCores[k * com.nodeSize + j]?

/-- The replicas below `k` are started, one after the other. -/
structure StartedTo (k : Nat) (s : NodeStartT) : Prop where
  coreTmp : s.coreTmp.length = com.numCores
  count : (starts s.effects).length = k
  placed : ∀ i < k, ∃ start, (starts s.effects)[i]? = some start ∧ Placed com i start

/-- The arrays have room for the rows of all nodes. -/
structure Rows : Prop where
  pos : 1 ≤ com.numCores
  small : com.numCores ≤ 64
  cores : com.numCores ≤ com.cores.length
  nodeCores : com.numCores * com.nodeSize ≤ com.nodeCores.length

variable {com fails junk}

theorem starts_print (text : String) (args : List Nat) : starts [.print text args] = [] := rfl

theorem starts_nodeStart (core : Nat) (args : ConsArgs) (b : Bool) :
    starts (.nodeStart core args ::
      if b then [.print "Staring node failed \n" []] else []) = [(core, args)] := by
  cases b <;> rfl

theorem startNode_step (h : Rows com) {k : Nat} {cores : List Nat} {s : NodeStartT}
    (hk : k < com.numCores) (hs : StartedTo com k s)
    (hcores : ∀ j < com.nodeSize, cores[j]? = com.nodeCores[k * com.nodeSize + j]?) :
    ∃ t, startNode com fails k cores s = some t ∧ StartedTo com (k + 1) t := by
  have h64 : k < 64 := Nat.lt_of_lt_of_le hk h.small
  obtain ⟨core, hcore⟩ : ∃ core, com.cores[k]? = some core :=
    ⟨_, List.getElem?_eq_getElem (Nat.lt_of_lt_of_le hk h.cores)⟩
  obtain ⟨args, hargs⟩ : ∃ args, args = fillNodeArgs com k core cores (s.thrArgs.read k) :=
    ⟨_, rfl⟩
  obtain ⟨t, ht⟩ : ∃ t : NodeStartT, t = { s with
      thrArgs := s.thrArgs.write k args
      effects := s.effects ++ .nodeStart core args ::
        if fails core then [.print "Staring node failed \n" []] else [] } := ⟨_, rfl⟩
  have hstart : startNode com fails k cores s = some t := by
    rw [startNode, hcore, Option.bind_some, if_pos h64]
    dsimp only
    rw [ArgTable.read_write_self _ h64, ht, hargs]
  have heffects : starts t.effects = starts s.effects ++ [(core, args)] := by
    rw [ht, starts_append, starts_nodeStart]
  refine ⟨t, hstart, ht ▸ hs.coreTmp, ?_, fun i hi => ?_⟩
  · rw [heffects, List.length_append, hs.count, List.length_singleton]
  · rw [heffects]
    rcases Nat.lt_succ_iff_lt_or_eq.mp hi with hik | rfl
    · obtain ⟨start, hget, hplaced⟩ := hs.placed i hik
      refine ⟨start, ?_, hplaced⟩
      rw [List.getElem?_append_left (hs.count.symm ▸ hik), hget]
    · refine ⟨(core, args), ?_, hcore, cores, _, hargs, hcores⟩
      rw [← hs.count, List.getElem?_concat_length]

/-- The source of a copy is inside of the array. -/
theorem row_inside (h : Rows com) {i j : Nat} (hi : i < com.numCores) (hj : j < com.nodeSize) :
    ∃ x, com.nodeCores[i * com.nodeSize + j]? = some x := by
  have hrow : i * com.nodeSize + com.nodeSize ≤ com.numCores * com.nodeSize := by
    rw [← Nat.succ_mul]
    exact Nat.mul_le_mul_right _ hi
  have hlen := h.nodeCores
  exact ⟨_, List.getElem?_eq_getElem (by omega)⟩

theorem nodeRound_step (h : Rows com) (hfits : com.nodeSize ≤ com.numCores) {i : Nat}
    {s : NodeStartT} (hi : i < com.numCores) (hs : StartedTo com i s) :
    ∃ t, nodeRound com fails junk i s = some t ∧ StartedTo com (i + 1) t := by
  have hroom : com.nodeSize ≤ (malloc junk com.numCores).length := by rwa [length_malloc]
  obtain ⟨tmp, hfill, hfilled⟩ := fill_of_le (fun j hj => row_inside h hi hj) hroom
  obtain ⟨s', hs'⟩ : ∃ s' : NodeStartT, s' = { s with
      coreTmp := s.coreTmp.set i tmp
      effects := s.effects ++ [.print "################## Node %d ##################\n" [i]] } :=
    ⟨_, rfl⟩
  have heffects : starts s'.effects = starts s.effects := by
    rw [hs', starts_append, starts_print, List.append_nil]
  have hstarted : StartedTo com i s' := by
    refine ⟨?_, heffects.symm ▸ hs.count, heffects.symm ▸ hs.placed⟩
    rw [hs']
    exact (List.length_set ..).trans hs.coreTmp
  obtain ⟨t, hstart, ht⟩ : ∃ t, startNode com fails i tmp s' = some t ∧ StartedTo com (i + 1) t :=
    startNode_step h hi hstarted hfilled.2
  have hwrite : writeAt s.coreTmp i tmp = some (s.coreTmp.set i tmp) :=
    writeAt_of_lt (hs.coreTmp.symm ▸ hi) tmp
  refine ⟨t, ?_, ht⟩
  rw [nodeRound]
  dsimp only
  rw [hfill, Option.bind_some, hwrite, Option.bind_some, ← hs', hstart]

/-- A row that is longer than the number of nodes does not fit into its copy. -/
theorem nodeRound_overflow (h : Rows com) (hlong : com.numCores < com.nodeSize) {i : Nat}
    (hi : i < com.numCores) (s : NodeStartT) : nodeRound com fails junk i s = none := by
  have hroom : (malloc junk com.numCores).length < com.nodeSize := by rwa [length_malloc]
  rw [nodeRound, fill_of_lt (fun j hj => row_inside h hi hj) hroom, Option.bind_none]

/-- Replica 0 is started with the array itself. -/
theorem startNode_leader (h : Rows com) (thrArgs : ArgTable) :
    ∃ s, startNode com fails 0 com.nodeCores ⟨thrArgs, List.replicate com.numCores [],
        [.print "################## Node 0 ##################\n" []]⟩ = some s ∧
      StartedTo com 1 s := by
  refine startNode_step h h.pos ⟨List.length_replicate, rfl, fun i hi =>
    absurd hi (Nat.not_lt_zero i)⟩ fun j _ => ?_
  rw [Nat.zero_mul, Nat.zero_add]

/-- All replicas are started if a row fits into a copy, or no copy is made. -/
theorem initProtocolNode_places (h : Rows com) (hfits : com.numCores = 1 ∨ com.nodeSize ≤ com.numCores)
    (thrArgs : ArgTable) :
    ∃ s, initProtocolNode com fails junk thrArgs = some ({ com with initDone := true }, s) ∧
      StartedTo com com.numCores s := by
  obtain ⟨s, hleader, hs⟩ : ∃ s, startNode com fails 0 com.nodeCores _ = some s ∧
    StartedTo com 1 s := startNode_leader h thrArgs
  have hloop : ∃ t, forLoop 1 com.numCores (nodeRound com fails junk) s = some t ∧
      StartedTo com com.numCores t :=
    forLoop_rule (StartedTo com) h.pos hs fun i t hi hlt ht =>
      nodeRound_step h (by omega) hlt ht
  obtain ⟨t, hrun, ht⟩ := hloop
  refine ⟨t, ?_, ht⟩
  rw [initProtocolNode, hleader, Option.bind_some, hrun, Option.map_some]

theorem initProtocolNode_overflow (h : Rows com) (htwo : 2 ≤ com.numCores)
    (hlong : com.numCores < com.nodeSize) (thrArgs : ArgTable) :
    initProtocolNode com fails junk thrArgs = none := by
  obtain ⟨s, hleader, hs⟩ : ∃ s, startNode com fails 0 com.nodeCores _ = some s ∧
    StartedTo com 1 s := startNode_leader h thrArgs
  have hloop : forLoop 1 com.numCores (nodeRound com fails junk) s = none :=
    forLoop_fails (StartedTo com) (Nat.le_refl 1) htwo hs (fun i t hi hlt => by omega)
      fun t _ => nodeRound_overflow h hlong htwo t
  rw [initProtocolNode, hleader, Option.bind_some, hloop, Option.map_none]

end SmeltConsensus.TwoTier.NodeStart
