import SmeltConsensus.TwoTier.NodeStart

/-!
The placement of the replicas from a config file. `main` takes the first core of
each row for the node-level replica, and puts the others into one array with rows
of `node_size`, one column to the left.
-/

set_option autoImplicit false
set_option relaxedAutoImplicit false

namespace SmeltConsensus.Bench.Placement

open SmeltConsensus.Foundation.Buffer
open SmeltConsensus.TwoTier
open SmeltConsensus.TwoTier.ComLayer (ALG_SHM ALG_NONE)
open SmeltConsensus.TwoTier.CoreStart
open SmeltConsensus.TwoTier.NodeStart

/-- `fscanf(f, "%d", &tmp)`; at the end of the file `tmp` keeps its value. -/
def scan (tmp : Nat) : List Nat → Nat × List Nat
  | [] => (tmp, [])
  | x :: file => (x, file)

/-- The variables of `main` while it reads the rows. -/
structure Input where
  tmp : Nat
  file : List Nat
  cores : List Nat
  cores2 : List Nat

variable (n m : Nat)

/-- The formats for the last column and for the others differ in white space only. -/
def readCell (i j : Nat) (s : Input) : Option Input :=
  let (tmp, file) := scan s.tmp s.file
  if j = 0 then
    (writeAt s.cores i (tmp % 2 ^ 8)).map fun cores =>
      { s with tmp := tmp, file := file, cores := cores }
  else
    (writeAt s.cores2 (m * i + (j - 1)) (tmp % 2 ^ 8)).map fun cores2 =>
      { s with tmp := tmp, file := file, cores2 := cores2 }

def readRow (i : Nat) (s : Input) : Option Input := forLoop 0 m (readCell m i) s

/-- One round of the loop that prints `cores2`, without the last column. -/
def printCell (cores2 : List Nat) (i : Nat) (out : List Nat) : Option (List Nat) :=
  if i % m = 0 ∧ i ≠ 0 then cores2[i]?.map fun core => out ++ [core]
  else if i % m = m - 1 then some out
  else cores2[i]?.map fun core => out ++ [core]

/-- The cores of both tiers as they are printed. -/
def printTiers (s : Input) : Option (List Nat × List Nat) :=
  (readAll s.cores n).bind fun tier1 =>
    if m > 1 then
      (forLoop 0 (n * m) (printCell m s.cores2) []).map fun tier2 => (tier1, tier2)
    else some (tier1, [])

/-- One round of the loop that reads the clients. -/
def readClient (i : Nat) (s : Nat × List Nat × List Nat) :
    Option (Nat × List Nat × List Nat) :=
  let (tmp, file) := scan s.1 s.2.1
  (writeAt s.2.2 i (tmp % 2 ^ 8)).map fun clientCores => (tmp, file, clientCores)

/-- The arguments of the benchmark, what uninitialised memory holds, and where `smlt_node_start`
fails. -/
structure Setup where
  tmp : Nat
  algorithm : Nat
  algBelow : Nat
  execFn : Pointer
  junk : Nat → Nat
  fails : Nat → Bool

variable (opt : Setup)

/-- The tests of `consensus_init` on the two algorithms: there is nothing below shared memory, and
the algorithm has a number below 7. -/
def Setup.Accepted : Prop :=
  ¬ (opt.algorithm % 2 ^ 8 = ALG_SHM ∧ opt.algBelow % 2 ^ 8 ≠ ALG_NONE) ∧ opt.algorithm % 2 ^ 8 < 7

instance : Decidable opt.Accepted := inferInstanceAs (Decidable (_ ∧ _))

/-- `consensus_init`, whose numbers are `uint8_t`, and the replicas that it starts; the cores are
printed and copied for the model of the machine. -/
def consensusInit (cores : List Nat) (numClients : Nat) (nodeCores clientCores : List Nat) :
    Option (List (Nat × ConsArgs)) :=
  let com : ComNodeT := ⟨opt.algorithm % 2 ^ 8, cores, nodeCores, clientCores, n % 2 ^ 8,
    numClients % 2 ^ 8, opt.algBelow % 2 ^ 8, m % 2 ^ 8, opt.execFn, false⟩
  if com.algorithm = ALG_SHM ∧ com.algBelow ≠ ALG_NONE then some []
  else (readAll com.cores com.numCores).bind fun _ =>
    if com.algorithm < 7 then
      (initProtocolNode com opt.fails opt.junk Statics.zero.thrArgs).map fun r => starts r.2.effects
    else some []

/-- `main` from the rows of the config file on, and the replicas that it starts. -/
def mainRows (numClients : Nat) (file : List Nat) : Option (List (Nat × ConsArgs)) :=
  (forLoop 0 n (readRow m) ⟨opt.tmp, file, List.replicate n 0, List.replicate (n * m) 0⟩).bind
    fun s => (printTiers n m s).bind fun _ =>
      (forLoop 0 numClients readClient (s.tmp, s.file, List.replicate numClients 0)).bind fun r =>
        (readAll r.2.2 numClients).bind fun _ =>
          consensusInit n m opt s.cores numClients s.cores2 r.2.2

/-- `main` on a config file. -/
def main : List Nat → Option (List (Nat × ConsArgs))
  | _ :: n :: m :: numClients :: file => mainRows n m opt numClients file
  | _ => none

/-- The rows of a matrix, one after the other. -/
def rows (matrix : Nat → Nat → Nat) : List Nat :=
  (List.range (n * m)).map fun k => matrix (k / m) (k % m)

/-- Replica `i` is started on the first core of row `i`, and handed the others of the row. No
access is out of bounds. -/
def PlacesCores (matrix : Nat → Nat → Nat) (run : Option (List (Nat × ConsArgs))) : Prop :=
  ∃ ss, run = some ss ∧ ss.length = n ∧ ∀ i < n, ∃ args cores,
    ss[i]? = some (matrix i 0, args) ∧ args.id = i ∧ args.currentCore = matrix i 0 ∧
      args.cores = some cores ∧ ∀ j < m - 1, cores[j]? = some (matrix i (j + 1))

variable {n m opt} {matrix : Nat → Nat → Nat} {rest : List Nat}

/-- The input when `k` numbers of the rows are read: which of them are where. -/
structure ReadTo (n m : Nat) (matrix : Nat → Nat → Nat) (rest : List Nat) (k : Nat)
    (s : Input) : Prop where
  length_cores : s.cores.length = n
  length_cores2 : s.cores2.length = n * m
  file : s.file = ((List.range' k (n * m - k)).map fun k => matrix (k / m) (k % m)) ++ rest
  cores : ∀ i, i * m < k → s.cores[i]? = some (matrix i 0 % 2 ^ 8)
  cores2 : ∀ l < k, l % m ≠ 0 → s.cores2[l - 1]? = some (matrix (l / m) (l % m) % 2 ^ 8)

theorem cell_lt {i j : Nat} (hi : i < n) (hj : j < m) : i * m + j < n * m := by
  have hrow : i * m + m ≤ n * m := by
    rw [← Nat.succ_mul]
    exact Nat.mul_le_mul_right _ hi
  omega

theorem cell_div {i j : Nat} (hj : j < m) : (i * m + j) / m = i := by
  rw [Nat.add_comm, Nat.add_mul_div_right _ _ (Nat.zero_lt_of_lt hj), Nat.div_eq_of_lt hj,
    Nat.zero_add]

theorem cell_mod {i j : Nat} (hj : j < m) : (i * m + j) % m = j := by
  rw [Nat.add_comm, Nat.add_mul_mod_self_right, Nat.mod_eq_of_lt hj]

/-- The number that is read next. -/
theorem scan_readTo {i j : Nat} {s : Input} (hi : i < n) (hj : j < m)
    (hs : ReadTo n m matrix rest (i * m + j) s) :
    scan s.tmp s.file = (matrix i j,
      ((List.range' (i * m + j + 1) (n * m - (i * m + j + 1))).map fun k =>
        matrix (k / m) (k % m)) ++ rest) := by
  have hlt := cell_lt hi hj
  have hsucc : n * m - (i * m + j) = n * m - (i * m + j + 1) + 1 := by omega
  rw [hs.file, hsucc, List.range'_succ, List.map_cons, List.cons_append, scan, cell_div hj,
    cell_mod hj]

theorem readCell_step {i j : Nat} {s : Input} (hi : i < n) (hj : j < m)
    (hs : ReadTo n m matrix rest (i * m + j) s) :
    ∃ t, readCell m i j s = some t ∧ ReadTo n m matrix rest (i * m + j + 1) t := by
  have hscan := scan_readTo hi hj hs
  have hlt := cell_lt hi hj
  have hdiv : (i * m + j) / m = i := cell_div hj
  have hmod : (i * m + j) % m = j := cell_mod hj
  rw [readCell, hscan]
  dsimp only
  by_cases hzero : j = 0
  · have hcores : i < s.cores.length := hs.length_cores.symm ▸ hi
    rw [if_pos hzero, writeAt_of_lt hcores, Option.map_some]
    refine ⟨_, rfl, (List.length_set ..).trans hs.length_cores, hs.length_cores2, rfl,
      fun i' hi' => ?_, fun l hl hcol => hs.cores2 l ?_ hcol⟩
    · dsimp only
      rcases eq_or_ne i' i with rfl | hne
      · rw [List.getElem?_set_self hcores, hzero]
      · rw [List.getElem?_set_ne hne.symm]
        refine hs.cores i' (lt_of_le_of_ne (Nat.le_of_lt_succ hi') fun heq => hne ?_)
        rw [hzero, Nat.add_zero] at heq
        exact Nat.eq_of_mul_eq_mul_right (Nat.zero_lt_of_lt hj) heq
    · refine lt_of_le_of_ne (Nat.le_of_lt_succ hl) fun heq => hcol ?_
      rw [heq, hmod, hzero]
  · have hindex : m * i + (j - 1) = i * m + j - 1 := by
      rw [Nat.mul_comm]
      omega
    have hcores2 : i * m + j - 1 < s.cores2.length := by
      rw [hs.length_cores2]
      omega
    rw [if_neg hzero, hindex, writeAt_of_lt hcores2, Option.map_some]
    refine ⟨_, rfl, hs.length_cores, (List.length_set ..).trans hs.length_cores2, rfl,
      fun i' hi' => hs.cores i' ?_, fun l hl hcol => ?_⟩
    · refine lt_of_le_of_ne (Nat.le_of_lt_succ hi') fun heq => hzero ?_
      rw [← hmod, ← heq, Nat.mul_mod_left]
    · dsimp only
      rcases eq_or_ne l (i * m + j) with rfl | hne
      · rw [List.getElem?_set_self hcores2, hdiv, hmod]
      · have hlpos : l ≠ 0 := fun h0 => hcol (h0 ▸ Nat.zero_mod m)
        rw [List.getElem?_set_ne (by omega)]
        exact hs.cores2 l (by omega) hcol

theorem readRow_step {i : Nat} {s : Input} (hi : i < n) (hs : ReadTo n m matrix rest (i * m) s) :
    ∃ t, readRow m i s = some t ∧ ReadTo n m matrix rest ((i + 1) * m) t := by
  rw [Nat.succ_mul]
  exact forLoop_rule (fun j => ReadTo n m matrix rest (i * m + j)) (Nat.zero_le m) hs
    fun j t _ hj ht => readCell_step hi hj ht

/-- After all rows. -/
theorem readRows (tmp : Nat) :
    ∃ t, forLoop 0 n (readRow m) ⟨tmp, rows n m matrix ++ rest, List.replicate n 0,
        List.replicate (n * m) 0⟩ = some t ∧ ReadTo n m matrix rest (n * m) t := by
  refine forLoop_rule (fun i => ReadTo n m matrix rest (i * m)) (Nat.zero_le n)
    ⟨List.length_replicate, List.length_replicate, ?_, ?_, ?_⟩ fun i t _ hi ht => readRow_step hi ht
  · rw [rows, List.range_eq_range', Nat.zero_mul, Nat.sub_zero]
  · rw [Nat.zero_mul]
    exact fun i hi => absurd hi (Nat.not_lt_zero _)
  · rw [Nat.zero_mul]
    exact fun l hl => absurd hl (Nat.not_lt_zero _)

theorem printTiers_some {s : Input} (hs : ReadTo n m matrix rest (n * m) s) :
    ∃ out, printTiers n m s = some out := by
  have htier1 : readAll s.cores n = some (s.cores.take n) :=
    readAll_eq (Nat.le_of_eq hs.length_cores.symm)
  have hloop : ∃ out, forLoop 0 (n * m) (printCell m s.cores2) [] = some out ∧ True := by
    refine forLoop_rule (fun _ _ => True) (Nat.zero_le _) trivial fun i out _ hi _ => ?_
    obtain ⟨core, hget⟩ : ∃ core, s.cores2[i]? = some core :=
      ⟨_, List.getElem?_eq_getElem (hs.length_cores2.symm ▸ hi)⟩
    unfold printCell
    rw [hget]
    split
    · exact ⟨_, rfl, trivial⟩
    · split <;> exact ⟨_, rfl, trivial⟩
  obtain ⟨tier2, hrun, -⟩ := hloop
  rw [printTiers, htier1, Option.bind_some, hrun]
  split
  · exact ⟨_, rfl⟩
  · exact ⟨_, rfl⟩

theorem readClients_some (tmp : Nat) (file : List Nat) (numClients : Nat) :
    ∃ r, forLoop 0 numClients readClient (tmp, file, List.replicate numClients 0) = some r ∧
      r.2.2.length = numClients := by
  refine forLoop_rule (fun _ (r : Nat × List Nat × List Nat) => r.2.2.length = numClients)
    (Nat.zero_le _) List.length_replicate fun i r _ hi hr => ?_
  rw [readClient]
  dsimp only
  rw [writeAt_of_lt (hr.symm ▸ hi), Option.map_some]
  exact ⟨_, rfl, (List.length_set ..).trans hr⟩

/-- The arrays that `main` hands to `consensus_init`. -/
theorem mainRows_eq (numClients : Nat) :
    ∃ s clientCores, ReadTo n m matrix rest (n * m) s ∧
      mainRows n m opt numClients (rows n m matrix ++ rest) =
        consensusInit n m opt s.cores numClients s.cores2 clientCores := by
  obtain ⟨s, hrows, hs⟩ : ∃ s, forLoop 0 n (readRow m) ⟨opt.tmp, rows n m matrix ++ rest,
      List.replicate n 0, List.replicate (n * m) 0⟩ = some s ∧
        ReadTo n m matrix rest (n * m) s := readRows opt.tmp
  obtain ⟨out, hprint⟩ := printTiers_some hs
  obtain ⟨r, hclients, hlen⟩ := readClients_some s.tmp s.file numClients
  refine ⟨s, r.2.2, hs, ?_⟩
  rw [mainRows, hrows, Option.bind_some, hprint, Option.bind_some, hclients, Option.bind_some,
    readAll_eq (Nat.le_of_eq hlen.symm), Option.bind_some]

section Placement

variable {s : Input} {numClients : Nat} {clientCores : List Nat}

/-- `com_node` after the assignments of `consensus_init`. -/
def comNode (n m : Nat) (opt : Setup) (s : Input) (numClients : Nat) (clientCores : List Nat) :
    ComNodeT :=
  ⟨opt.algorithm % 2 ^ 8, s.cores, s.cores2, clientCores, n, numClients % 2 ^ 8,
    opt.algBelow % 2 ^ 8, m, opt.execFn, false⟩

theorem rows_comNode (hs : ReadTo n m matrix rest (n * m) s) (hn : 1 ≤ n) (hn64 : n ≤ 64) :
    Rows (comNode n m opt s numClients clientCores) :=
  ⟨hn, hn64, Nat.le_of_eq hs.length_cores.symm, Nat.le_of_eq hs.length_cores2.symm⟩

theorem consensusInit_eq (haccepted : opt.Accepted) (hs : ReadTo n m matrix rest (n * m) s)
    (hn64 : n ≤ 64) (hm64 : m ≤ 64) :
    consensusInit n m opt s.cores numClients s.cores2 clientCores =
      (initProtocolNode (comNode n m opt s numClients clientCores) opt.fails opt.junk
        Statics.zero.thrArgs).map fun r => starts r.2.effects := by
  have hn : n % 2 ^ 8 = n := Nat.mod_eq_of_lt (by omega)
  have hm : m % 2 ^ 8 = m := Nat.mod_eq_of_lt (by omega)
  rw [consensusInit, hn, hm]
  dsimp only
  rw [if_neg haccepted.1, readAll_eq (Nat.le_of_eq hs.length_cores.symm), Option.bind_some,
    if_pos haccepted.2, comNode]

/-- Arguments that fail a test start nothing. -/
theorem not_placesCores_of_rejected (hrejected : ¬ opt.Accepted) (hn : 1 ≤ n) {cores : List Nat}
    (hcores : n % 2 ^ 8 ≤ cores.length) (nodeCores : List Nat) :
    ¬ PlacesCores n m matrix (consensusInit n m opt cores numClients nodeCores clientCores) := by
  have hnone : consensusInit n m opt cores numClients nodeCores clientCores = some [] := by
    rw [consensusInit]
    dsimp only
    split
    · rfl
    · rename_i hshm
      rw [readAll_eq hcores, Option.bind_some, if_neg fun hlt => hrejected ⟨hshm, hlt⟩]
  rintro ⟨ss, hss, hlen, -⟩
  rw [hnone] at hss
  obtain rfl := Option.some.inj hss
  rw [List.length_nil] at hlen
  omega

/-- The row of a replica, in the numbers of the file. -/
theorem placed_row (hs : ReadTo n m matrix rest (n * m) s) {i : Nat} (hi : i < n) (hm : 2 ≤ m)
    {start : Nat × ConsArgs}
    (h : Placed (comNode n m opt s numClients clientCores) i start) :
    start.1 = matrix i 0 % 2 ^ 8 ∧ start.2.id = i ∧ start.2.currentCore = start.1 ∧
      ∃ cores, start.2.cores = some cores ∧
        ∀ j < m - 1, cores[j]? = some (matrix i (j + 1) % 2 ^ 8) := by
  obtain ⟨hcore, cores, args, hargs, hrow⟩ := h
  have hfirst : i * m + 0 < n * m := cell_lt hi (by omega)
  have hstart : start.1 = matrix i 0 % 2 ^ 8 :=
    Option.some.inj (hcore.symm.trans (hs.cores i hfirst))
  refine ⟨hstart, by rw [hargs]; rfl, by rw [hargs]; rfl, cores, by rw [hargs]; rfl,
    fun j hj => ?_⟩
  have hcol : j + 1 < m := by omega
  have hcell := hs.cores2 (i * m + (j + 1)) (cell_lt hi hcol)
    (by rw [cell_mod hcol]; exact Nat.succ_ne_zero j)
  rw [cell_div hcol, cell_mod hcol] at hcell
  exact (hrow j (by omega : j < m)).trans hcell

/-- Once all replicas are started, only the width of a core number matters. -/
theorem placesCores_started_iff (hs : ReadTo n m matrix rest (n * m) s) (hm : 2 ≤ m)
    {t : NodeStartT} (ht : StartedTo (comNode n m opt s numClients clientCores) n t) :
    PlacesCores n m matrix (some (starts t.effects)) ↔ ∀ i < n, ∀ j < m, matrix i j < 2 ^ 8 := by
  constructor
  · rintro ⟨ss, hss, -, hplaces⟩ i hi j hj
    obtain rfl := Option.some.inj hss
    obtain ⟨args, cores, hget, -, -, hcores, hrow⟩ := hplaces i hi
    obtain ⟨start, hget', hplaced⟩ := ht.placed i hi
    obtain rfl : (matrix i 0, args) = start := Option.some.inj (hget.symm.trans hget')
    obtain ⟨hcore, -, -, cores', hcores', hrow'⟩ := placed_row hs hi hm hplaced
    obtain rfl : cores = cores' := Option.some.inj (hcores.symm.trans hcores')
    cases j with
    | zero =>
      have hmod : matrix i 0 = matrix i 0 % 2 ^ 8 := hcore
      omega
    | succ j =>
      have hmod : matrix i (j + 1) = matrix i (j + 1) % 2 ^ 8 :=
        Option.some.inj ((hrow j (by omega)).symm.trans (hrow' j (by omega)))
      omega
  · intro hbyte
    refine ⟨_, rfl, ht.count, fun i hi => ?_⟩
    obtain ⟨⟨core, args⟩, hget, hplaced⟩ := ht.placed i hi
    obtain ⟨hcore, hid, hcurrent, cores, hcores, hrow⟩ := placed_row hs hi hm hplaced
    have hstart : core = matrix i 0 := hcore.trans (Nat.mod_eq_of_lt (hbyte i hi 0 (by omega)))
    subst hstart
    refine ⟨args, cores, hget, hid, hcurrent, hcores, fun j hj => ?_⟩
    rw [hrow j hj, Nat.mod_eq_of_lt (hbyte i hi (j + 1) (by omega))]

/-- What `init_protocol_node` starts, from the arrays that `main` has read. -/
theorem placesCores_iff (hs : ReadTo n m matrix rest (n * m) s)
    (hrows : Rows (comNode n m opt s numClients clientCores)) (hn : 1 ≤ n) (hm : 2 ≤ m) :
    PlacesCores n m matrix ((initProtocolNode (comNode n m opt s numClients clientCores) opt.fails
        opt.junk Statics.zero.thrArgs).map fun r => starts r.2.effects) ↔
      (n = 1 ∨ m ≤ n) ∧ ∀ i < n, ∀ j < m, matrix i j < 2 ^ 8 := by
  by_cases hfits : n = 1 ∨ m ≤ n
  · obtain ⟨t, hrun, ht⟩ : ∃ t, initProtocolNode (comNode n m opt s numClients clientCores)
        opt.fails opt.junk Statics.zero.thrArgs = some (_, t) ∧ StartedTo _ n t :=
      initProtocolNode_places hrows hfits Statics.zero.thrArgs
    rw [hrun, Option.map_some, placesCores_started_iff hs hm ht]
    exact ⟨fun hbyte => ⟨hfits, hbyte⟩, fun h => h.2⟩
  · have hnone : initProtocolNode (comNode n m opt s numClients clientCores) opt.fails opt.junk
        Statics.zero.thrArgs = none :=
      initProtocolNode_overflow hrows (show 2 ≤ n by omega) (show n < m by omega) _
    rw [hnone, Option.map_none]
    constructor
    · rintro ⟨ss, hss, -⟩
      cases hss
    · rintro ⟨hfits', -⟩
      exact absurd hfits' hfits

end Placement

/-- The cores are placed as the matrix says exactly when `consensus_init` accepts the algorithms,
each row fits into an array of `num_replicas` cores, or there is one replica only, and all core
numbers fit into a byte. -/
theorem places_cores_iff (hn : 1 ≤ n) (hn64 : n ≤ 64) (hm : 2 ≤ m) (hm64 : m ≤ 64)
    (numCores numClients : Nat) (opt : Setup) (matrix : Nat → Nat → Nat) (rest : List Nat) :
    PlacesCores n m matrix
        (main opt (numCores :: n :: m :: numClients :: (rows n m matrix ++ rest))) ↔
      opt.Accepted ∧ (n = 1 ∨ m ≤ n) ∧ ∀ i < n, ∀ j < m, matrix i j < 2 ^ 8 := by
  obtain ⟨s, clientCores, hs, hmain⟩ : ∃ s clientCores, ReadTo n m matrix rest (n * m) s ∧
    mainRows n m opt numClients (rows n m matrix ++ rest) = _ := mainRows_eq numClients
  have hrows : Rows (comNode n m opt s numClients clientCores) := rows_comNode hs hn hn64
  rw [main, hmain]
  by_cases haccepted : opt.Accepted
  · rw [consensusInit_eq haccepted hs hn64 hm64, and_iff_right haccepted]
    exact placesCores_iff hs hrows hn hm
  · have hmod : n % 2 ^ 8 ≤ s.cores.length := hs.length_cores.symm ▸ Nat.mod_le _ _
    exact iff_of_false (not_placesCores_of_rejected haccepted hn hmod _) fun h => haccepted h.1

/-- 1Paxos over shared memory, the default of the benchmark. -/
def defaultSetup : Setup where
  tmp := 0
  algorithm := ComLayer.ALG_1PAXOS
  algBelow := ComLayer.ALG_SHM
  execFn := some 4096
  junk := fun _ => 0
  fails := fun _ => false

theorem places_cores_square :
    PlacesCores 2 2 (fun i j => 2 * i + j)
      (main defaultSetup (5 :: 2 :: 2 :: 1 :: (rows 2 2 (fun i j => 2 * i + j) ++ [4]))) :=
  (places_cores_iff (by decide) (by decide) (by decide) (by decide) _ _ _ _ _).mpr
    ⟨by decide, .inr (Nat.le_refl 2), by decide⟩

/-- `config.txt`: four nodes of seven cores. -/
theorem not_places_cores_config :
    ¬ PlacesCores 4 7 (fun i j => i + 4 * j)
      (main defaultSetup
        (32 :: 4 :: 7 :: 4 :: (rows 4 7 (fun i j => i + 4 * j) ++ [28, 29, 30, 31]))) := by
  have hnone : main defaultSetup
      (32 :: 4 :: 7 :: 4 :: (rows 4 7 (fun i j => i + 4 * j) ++ [28, 29, 30, 31])) = none := by
    decide
  rintro ⟨ss, hss, -⟩
  rw [hnone] at hss
  cases hss

end SmeltConsensus.Bench.Placement
