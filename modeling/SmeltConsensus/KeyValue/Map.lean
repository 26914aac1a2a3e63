import SmeltConsensus.KeyValue.Memory

/-!
The key-value memory as a map. The allocation of `KVS_MEM_SIZE` bytes has a pair
of words for each of the keys below `maxKey`, while `exec_fn` refuses only the
keys above it, so that the key `maxKey` itself is written past the end.
-/

set_option autoImplicit false
set_option relaxedAutoImplicit false

namespace SmeltConsensus.KeyValue.Map

open SmeltConsensus.Message.Header
open SmeltConsensus.KeyValue.Memory

/-- The words of `numa_alloc_local(kvs_size)`. -/
def kvsWords : Nat := KVS_MEM_SIZE / 8

/-- What the memory is for: a pair of values for each key. -/
abbrev PairMap := Fin maxKey → Nat × Nat

namespace PairMap

/-- A command for a key of the map sets its pair, any other command nothing. -/
def apply (m : PairMap) (c : Command) : PairMap :=
  if h : c.payload.word0 < maxKey then
    Function.update m ⟨c.payload.word0, h⟩ (c.payload.word1, c.payload.word2)
  else m

def after (m : PairMap) (cs : List Command) : PairMap := cs.foldl apply m

theorem apply_self (m : PairMap) {c : Command} (h : c.payload.word0 < maxKey) :
    m.apply c ⟨c.payload.word0, h⟩ = (c.payload.word1, c.payload.word2) := by
  rw [apply, dif_pos h, Function.update_self]

theorem apply_of_ne (m : PairMap) {c : Command} {k : Fin maxKey} (h : c.payload.word0 ≠ k) :
    m.apply c k = m k := by
  unfold apply
  split
  · have hk : k ≠ ⟨c.payload.word0, ‹_›⟩ := fun e => h (congrArg Fin.val e).symm
    exact Function.update_of_ne hk _ _
  · rfl

theorem after_of_ne (m : PairMap) {cs : List Command} {k : Fin maxKey}
    (h : ∀ c ∈ cs, c.payload.word0 ≠ k) : m.after cs k = m k := by
  induction cs generalizing m with
  | nil => rfl
  | cons c cs ih =>
    have hrest : ∀ d ∈ cs, d.payload.word0 ≠ k := fun d hd => h d (List.mem_cons_of_mem _ hd)
    rw [after, List.foldl_cons, ← after, ih _ hrest, apply_of_ne m (h c List.mem_cons_self)]

/-- The last command for a key decides its pair. -/
theorem after_last (m : PairMap) {pre post : List Command} {c : Command}
    (hkey : c.payload.word0 < maxKey) (h : ∀ d ∈ post, d.payload.word0 ≠ c.payload.word0) :
    m.after (pre ++ c :: post) ⟨c.payload.word0, hkey⟩ = (c.payload.word1, c.payload.word2) := by
  have hsplit : m.after (pre ++ c :: post) = ((m.after pre).apply c).after post := by
    rw [after, List.foldl_append, List.foldl_cons]
    rfl
  rw [hsplit, after_of_ne _ h, apply_self _ hkey]

end PairMap

/-- The map that a memory stands for, read by `kvs_get`. -/
def pairMap (kvs : KvsMemory) : PairMap := fun k => kvsGet kvs k

/-- `exec_fn` of replica `id` writes the word `w`: on some memory it changes it. -/
def Writes (id : Nat) (payload : Payload) (w : Nat) : Prop :=
  ∃ kvs : KvsMemory, (execFn id kvs payload).1 w ≠ kvs w

theorem execFn_frame (id : Nat) (kvs : KvsMemory) {payload : Payload} {w : Nat}
    (h0 : w ≠ 2 * payload.word0) (h1 : w ≠ 2 * payload.word0 + 1) :
    (execFn id kvs payload).1 w = kvs w := by
  unfold execFn
  split
  · rfl
  · exact (Function.update_of_ne h1 _ _).trans (Function.update_of_ne h0 _ _)

theorem execFn_large (id : Nat) (kvs : KvsMemory) {payload : Payload}
    (h : maxKey < payload.word0) : (execFn id kvs payload).1 = kvs := by
  rw [execFn, if_pos h]

theorem writes_iff (id : Nat) (payload : Payload) (w : Nat) :
    Writes id payload w ↔
      payload.word0 ≤ maxKey ∧ (w = 2 * payload.word0 ∨ w = 2 * payload.word0 + 1) := by
  constructor
  · rintro ⟨kvs, hw⟩
    constructor
    · by_contra hlarge
      exact hw (congrFun (execFn_large id kvs (Nat.lt_of_not_le hlarge)) w)
    · by_contra hother
      rw [not_or] at hother
      exact hw (execFn_frame id kvs hother.1 hother.2)
  · rintro ⟨hle, hw⟩
    -- a memory that holds one more than what is written there
    obtain ⟨kvs, hkvs⟩ : ∃ kvs : KvsMemory, ∀ w, kvs w = payload.word1 + payload.word2 + 1 :=
      ⟨fun _ => payload.word1 + payload.word2 + 1, fun _ => rfl⟩
    have hpair := kvsGet_execFn_self id kvs hle
    rw [kvsGet, Prod.mk.injEq, Nat.mul_comm] at hpair
    refine ⟨kvs, ?_⟩
    rcases hw with rfl | rfl
    · rw [hpair.1, hkvs]
      exact Nat.ne_of_lt (by omega)
    · rw [hpair.2, hkvs]
      exact Nat.ne_of_lt (by omega)

/-- A command whose key has no pair in the allocation. -/
theorem pairMap_execFn_of_ge (id : Nat) (kvs : KvsMemory) {c : Command}
    (h : maxKey ≤ c.payload.word0) : pairMap (execFn id kvs c.payload).1 = pairMap kvs := by
  ext1 k
  have hne : c.payload.word0 ≠ k := Nat.ne_of_gt (Nat.lt_of_lt_of_le k.isLt h)
  exact kvsGet_execFn_of_ne id kvs hne

/-- One command of the memory is one command of the map, at any key. -/
theorem pairMap_execFn (id : Nat) (kvs : KvsMemory) (c : Command) :
    pairMap (execFn id kvs c.payload).1 = (pairMap kvs).apply c := by
  rcases Nat.lt_or_ge c.payload.word0 maxKey with hlt | hge
  · ext1 k
    rcases eq_or_ne c.payload.word0 k with hk | hk
    · obtain rfl : k = ⟨c.payload.word0, hlt⟩ := Fin.ext hk.symm
      rw [PairMap.apply_self _ hlt]
      exact kvsGet_execFn_self id kvs (Nat.le_of_lt hlt)
    · rw [PairMap.apply_of_ne _ hk]
      exact kvsGet_execFn_of_ne id kvs hk
  · rw [pairMap_execFn_of_ge id kvs hge, PairMap.apply, dif_neg (Nat.not_lt.mpr hge)]

theorem pairMap_memoryAfter (id : Nat) (kvs : KvsMemory) (cs : List Command) :
    pairMap (memoryAfter id kvs cs) = (pairMap kvs).after cs := by
  induction cs generalizing kvs with
  | nil => rfl
  | cons c cs ih =>
    rw [memoryAfter, List.foldl_cons, ← memoryAfter, ih, pairMap_execFn]
    rfl

/-- One call of `exec_fn` as a step of the map. -/
structure StepRefines (id : Nat) (kvs : KvsMemory) (payload : Payload) : Prop where
  sets : payload.word0 < maxKey →
    kvsGet (execFn id kvs payload).1 payload.word0 = (payload.word1, payload.word2) ∧
      ∀ w, w ≠ 2 * payload.word0 → w ≠ 2 * payload.word0 + 1 →
        (execFn id kvs payload).1 w = kvs w
  ignores : maxKey ≤ payload.word0 → (execFn id kvs payload).1 = kvs
  inside : ∀ w, Writes id payload w → w < kvsWords

/-- The memory refines the map over the whole sequence of commands. -/
structure Refines (id : Nat) (kvs : KvsMemory) (cs : List Command) : Prop where
  step : ∀ pre c post, cs = pre ++ c :: post → StepRefines id (memoryAfter id kvs pre) c.payload
  simulates : pairMap (memoryAfter id kvs cs) = (pairMap kvs).after cs
  last : ∀ pre c post, cs = pre ++ c :: post → c.payload.word0 < maxKey →
    (∀ d ∈ post, d.payload.word0 ≠ c.payload.word0) →
    kvsGet (memoryAfter id kvs cs) c.payload.word0 = (c.payload.word1, c.payload.word2)

theorem kvsWords_eq : kvsWords = 2 * maxKey := by decide

/-- Every call but one with the key `maxKey` is a step of the map. -/
theorem stepRefines_iff (id : Nat) (kvs : KvsMemory) (payload : Payload) :
    StepRefines id kvs payload ↔ payload.word0 ≠ maxKey := by
  have hwords := kvsWords_eq
  constructor
  · intro hstep hkey
    have hpast := hstep.inside (2 * payload.word0)
      ((writes_iff id payload _).mpr ⟨Nat.le_of_eq hkey, Or.inl rfl⟩)
    omega
  · intro hne
    refine ⟨fun hlt => ⟨kvsGet_execFn_self id kvs (Nat.le_of_lt hlt), fun w => execFn_frame id kvs⟩, ?_, ?_⟩
    · exact fun hge => execFn_large id kvs (lt_of_le_of_ne hge hne.symm)
    · intro w hw
      obtain ⟨hle, hword⟩ := (writes_iff id payload w).mp hw
      omega

/-- The memory refines the map exactly when no command has the key `maxKey`. -/
theorem refines_map_iff (id : Nat) (kvs : KvsMemory) (cs : List Command) :
    Refines id kvs cs ↔ ∀ c ∈ cs, c.payload.word0 ≠ maxKey := by
  constructor
  · intro href c hc
    obtain ⟨pre, post, hsplit⟩ := List.append_of_mem hc
    exact (stepRefines_iff id _ c.payload).mp (href.step pre c post hsplit)
  · intro hkeys
    refine ⟨fun pre c post hsplit => ?_, pairMap_memoryAfter id kvs cs,
      fun pre c post hsplit hkey hlast => ?_⟩
    · have hc : c ∈ cs := hsplit ▸ List.mem_append_right pre List.mem_cons_self
      exact (stepRefines_iff id _ c.payload).mpr (hkeys c hc)
    · have hpair := congrFun (pairMap_memoryAfter id kvs cs) ⟨c.payload.word0, hkey⟩
      rw [hsplit, PairMap.after_last _ hkey hlast, ← hsplit] at hpair
      exact hpair

/-- One command with the key 1024 writes the words 2048 and 2049. -/
theorem not_refines_map_at_max_key :
    ¬ Refines 0 (fun _ => 0) [⟨0, 1, ⟨1024, 1, 2⟩⟩] := by
  intro href
  have hstep := href.step [] ⟨0, 1, ⟨1024, 1, 2⟩⟩ [] rfl
  exact (stepRefines_iff _ _ _).mp hstep rfl

end SmeltConsensus.KeyValue.Map
