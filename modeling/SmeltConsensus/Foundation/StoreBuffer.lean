import Mathlib.Logic.Function.Basic
import SmeltConsensus.Foundation.RingLog

/-!
Total store order. The stores of a core wait in its buffer and reach memory in the
order in which the core issued them. A core reads its own newest waiting store to a
location, and memory if it has none. The second half is about a ring of slots that one
core fills through its buffer: word 0 of a slot is stored after the other words.
-/

set_option autoImplicit false
set_option relaxedAutoImplicit false

namespace SmeltConsensus.Foundation.StoreBuffer

open SmeltConsensus.Foundation.RingLog

variable {L V : Type}

section Settle

variable [DecidableEq L]

/-- What memory holds once the waiting stores have reached it. A core that has issued
them reads these values. -/
def settle (mem : L → V) (buf : List (L × V)) : L → V :=
  buf.foldl (fun m st => Function.update m st.1 st.2) mem

@[simp] theorem settle_nil (mem : L → V) : settle mem [] = mem := rfl

theorem settle_cons (mem : L → V) (l : L) (v : V) (buf : List (L × V)) :
    settle mem ((l, v) :: buf) = settle (Function.update mem l v) buf := rfl

theorem settle_push (mem : L → V) (buf : List (L × V)) (l : L) (v : V) :
    settle mem (buf ++ [(l, v)]) = Function.update (settle mem buf) l v := by
  unfold settle
  rw [List.foldl_append]
  rfl

/-- Memory elsewhere does not matter. -/
theorem settle_congr {mem mem' : L → V} {l : L} (buf : List (L × V)) (h : mem l = mem' l) :
    settle mem buf l = settle mem' buf l := by
  induction buf generalizing mem mem' with
  | nil => exact h
  | cons st buf ih =>
    rw [settle_cons, settle_cons]
    apply ih
    by_cases hl : l = st.1
    · rw [hl, Function.update_self, Function.update_self]
    · rw [Function.update_of_ne hl, Function.update_of_ne hl, h]

theorem settle_untouched {mem : L → V} {buf : List (L × V)} {l : L}
    (h : ∀ st ∈ buf, st.1 ≠ l) : settle mem buf l = mem l := by
  induction buf generalizing mem with
  | nil => rfl
  | cons st buf ih =>
    have hhead := h st List.mem_cons_self
    rw [settle_cons, ih fun st' hst => h st' (List.mem_cons_of_mem _ hst)]
    exact Function.update_of_ne hhead.symm _ _

end Settle

/-- The waiting stores of a core that fills a ring of `n` slots with the entries of a
log, from entry `k` on. They are about entries below the limit. -/
inductive Pending (cell : Nat → Nat → L) (n : Nat) (log : List (V × List V)) (limit : Nat) :
    Nat → List (L × V) → Prop
  | nil : Pending cell n log limit log.length []
  | word {k j : Nat} {w : V} {buf : List (L × V)} : k < limit → Pending cell n log limit k buf →
      Pending cell n log limit k ((cell (k % n) (j + 1), w) :: buf)
  | publish {k : Nat} {c : V} {ws : List V} {buf : List (L × V)} : log[k]? = some (c, ws) →
      Pending cell n log limit (k + 1) buf →
      Pending cell n log limit k ((cell (k % n) 0, c) :: buf)
  | other {k : Nat} {l : L} {v : V} {buf : List (L × V)} : (∀ i j, l ≠ cell i j) →
      Pending cell n log limit k buf → Pending cell n log limit k ((l, v) :: buf)

section Pending

variable {cell : Nat → Nat → L} {n limit k : Nat} {log : List (V × List V)} {buf : List (L × V)}

theorem Pending.le (h : Pending cell n log limit k buf) : k ≤ log.length := by
  induction h with
  | nil => exact Nat.le_refl _
  | word _ _ ih => exact ih
  | publish _ _ ih => omega
  | other _ _ ih => exact ih

theorem Pending.mono {limit' : Nat} (h : Pending cell n log limit k buf) (hle : limit ≤ limit') :
    Pending cell n log limit' k buf := by
  induction h with
  | nil => exact .nil
  | word hlt _ ih => exact .word (Nat.lt_of_lt_of_le hlt hle) ih
  | publish hk _ ih => exact .publish hk ih
  | other hl _ ih => exact .other hl ih

theorem Pending.push_word (h : Pending cell n log limit k buf) (hlt : log.length < limit) (j : Nat)
    (w : V) : Pending cell n log limit k (buf ++ [(cell (log.length % n) (j + 1), w)]) := by
  induction h with
  | nil => exact .word hlt .nil
  | word hk _ ih => exact .word hk ih
  | publish hk _ ih => exact .publish hk ih
  | other hl _ ih => exact .other hl ih

theorem Pending.push_publish (h : Pending cell n log limit k buf) (c : V) (ws : List V) :
    Pending cell n (log ++ [(c, ws)]) limit k (buf ++ [(cell (log.length % n) 0, c)]) := by
  induction h with
  | nil =>
    have hend : (log ++ [(c, ws)]).length = log.length + 1 := by simp
    refine @Pending.publish L V cell n _ limit _ c ws _ (by simp) ?_
    rw [← hend]
    exact .nil
  | word hk _ ih => exact .word hk ih
  | @publish k' c' ws' buf' hk _ ih =>
    have hlt := (List.getElem?_eq_some_iff.mp hk).1
    rw [← List.getElem?_append_left hlt] at hk
    exact .publish hk ih
  | other hl _ ih => exact .other hl ih

theorem Pending.push_other (h : Pending cell n log limit k buf) {l : L} (v : V)
    (hl : ∀ i j, l ≠ cell i j) : Pending cell n log limit k (buf ++ [(l, v)]) := by
  induction h with
  | nil => exact .other hl .nil
  | word hk _ ih => exact .word hk ih
  | publish hk _ ih => exact .publish hk ih
  | other hl' _ ih => exact .other hl' ih

/-- A waiting store to a slot is about a later entry that has this slot. -/
theorem Pending.slot (hcell : ∀ i j i' j', cell i j = cell i' j' → i = i' ∧ j = j')
    (h : Pending cell n log limit k buf) (hlog : log.length ≤ limit) {i j : Nat} {v : V}
    (hmem : (cell i j, v) ∈ buf) : ∃ k', k ≤ k' ∧ k' < limit ∧ i = k' % n := by
  induction h with
  | nil => cases hmem
  | word hlt _ ih =>
    rcases List.mem_cons.mp hmem with heq | hmem
    · have hslot := (hcell _ _ _ _ (congrArg Prod.fst heq)).1
      exact ⟨_, Nat.le_refl _, hlt, hslot⟩
    · exact ih hmem
  | publish hk _ ih =>
    have hlt := (List.getElem?_eq_some_iff.mp hk).1
    rcases List.mem_cons.mp hmem with heq | hmem
    · have hslot := (hcell _ _ _ _ (congrArg Prod.fst heq)).1
      exact ⟨_, Nat.le_refl _, by omega, hslot⟩
    · obtain ⟨k', hle, hrest⟩ := ih hmem
      exact ⟨k', by omega, hrest⟩
  | other hl _ ih =>
    rcases List.mem_cons.mp hmem with heq | hmem
    · exact absurd (congrArg Prod.fst heq).symm (hl i j)
    · exact ih hmem

end Pending

variable [DecidableEq L]

/-- A ring whose owner has issued the entries of the log and has begun to fill the next.
The entries below `visible` are in memory, and the slots of those below `freed` may be
filled again. -/
structure Published (cell : Nat → Nat → L) (n : Nat) (blank : V) (mem : L → V)
    (buf : List (L × V)) (log : List (V × List V)) (fill : List V) (freed visible : Nat) : Prop where
  pending : Pending cell n log (freed + n) visible buf
  settled : ∀ k c ws, freed ≤ k → log[k]? = some (c, ws) →
    ∀ j w, ws[j]? = some w → settle mem buf (cell (k % n) (j + 1)) = w
  filling : ∀ j w, fill[j]? = some w → settle mem buf (cell (log.length % n) (j + 1)) = w
  shown : Holds n (fun i => mem (cell i 0)) ((log.take visible).map Prod.fst)
  fresh : ∀ i, visible ≤ i → i < n → mem (cell i 0) = blank
  freed_le : freed ≤ visible
  lap : log.length ≤ freed + n
  room : fill ≠ [] → log.length < freed + n

section Published

variable {cell : Nat → Nat → L} {n freed visible : Nat} {blank : V} {mem : L → V}
  {buf : List (L × V)} {log : List (V × List V)} {fill : List V}

theorem published_init (cell : Nat → Nat → L) (n : Nat) {blank : V} {mem : L → V}
    (hblank : ∀ i, mem (cell i 0) = blank) : Published cell n blank mem [] [] [] 0 0 := by
  constructor
  · exact .nil
  · intro k c ws _ hk
    cases hk
  · intro j w hj
    cases hj
  · exact holds_nil _
  · exact fun i _ _ => hblank i
  · exact Nat.le_refl _
  · exact Nat.zero_le _
  · exact fun h => absurd rfl h

variable (hcell : ∀ i j i' j', cell i j = cell i' j' → i = i' ∧ j = j')

include hcell in
/-- What a core has stored is in memory, unless a waiting store is to the same slot. -/
theorem Published.settle_eq (h : Published cell n blank mem buf log fill freed visible) {k : Nat}
    (hfreed : freed ≤ k) (hvis : k < visible) (j : Nat) :
    settle mem buf (cell (k % n) j) = mem (cell (k % n) j) := by
  apply settle_untouched
  intro st hst heq
  obtain ⟨k', hle, hlt, hslot⟩ := h.pending.slot hcell h.lap (i := k % n) (j := j) (v := st.2)
    (by rw [← heq]; exact hst)
  exact mod_ne (j := k) (k := k') (by omega) (by omega) hslot

include hcell in
/-- The reader of a visible entry finds its words. -/
theorem Published.read (h : Published cell n blank mem buf log fill freed visible) {k j : Nat}
    {c w : V} {ws : List V} (hfreed : freed ≤ k) (hvis : k < visible)
    (hk : log[k]? = some (c, ws)) (hj : ws[j]? = some w) : mem (cell (k % n) (j + 1)) = w := by
  rw [← h.settle_eq hcell hfreed hvis]
  exact h.settled k c ws hfreed hk j w hj

/-- Word 0 of a visible entry. -/
theorem Published.control (h : Published cell n blank mem buf log fill freed visible) {k : Nat}
    {c : V} {ws : List V} (hvis : k < visible) (hlap : visible ≤ k + n)
    (hk : log[k]? = some (c, ws)) : mem (cell (k % n) 0) = c := by
  have hle := h.pending.le
  apply h.shown
  · rw [List.getElem?_map, List.getElem?_take_of_lt hvis, hk]
    rfl
  · rw [List.length_map, List.length_take]
    omega

/-- Where the reader waits for the next entry, word 0 is that of the lap before. -/
theorem Published.next_control (h : Published cell n blank mem buf log fill freed visible)
    (hn : 0 < n) : (visible < n ∧ mem (cell (visible % n) 0) = blank) ∨
      ∃ k ws, visible = k + n ∧ log[k]? = some (mem (cell (visible % n) 0), ws) := by
  rcases Nat.lt_or_ge visible n with hlt | hge
  · left
    rw [Nat.mod_eq_of_lt hlt]
    exact ⟨hlt, h.fresh visible (Nat.le_refl _) hlt⟩
  · right
    have hle := h.pending.le
    obtain ⟨k, rfl⟩ : ∃ k, visible = k + n := ⟨visible - n, (Nat.sub_add_cancel hge).symm⟩
    have hk : log[k]? = some (log[k].1, log[k].2) := List.getElem?_eq_getElem (by omega)
    refine ⟨k, log[k].2, rfl, ?_⟩
    rw [Nat.add_mod_right, h.control (by omega) (Nat.le_refl _) hk, hk]

/-- The reader frees slots. -/
theorem Published.free {freed' : Nat}
    (h : Published cell n blank mem buf log fill freed visible) (hle : freed ≤ freed')
    (hvis : freed' ≤ visible) : Published cell n blank mem buf log fill freed' visible := by
  constructor
  · exact h.pending.mono (by omega)
  · exact fun k c ws hk => h.settled k c ws (by omega)
  · exact h.filling
  · exact h.shown
  · exact h.fresh
  · exact hvis
  · exact Nat.le_trans h.lap (by omega)
  · exact fun hfill => Nat.lt_of_lt_of_le (h.room hfill) (by omega)

include hcell in
/-- The owner stores a word of the next entry. -/
theorem Published.store_word (h : Published cell n blank mem buf log fill freed visible)
    (hroom : log.length < freed + n) (w : V) :
    Published cell n blank mem (buf ++ [(cell (log.length % n) (fill.length + 1), w)]) log
      (fill ++ [w]) freed visible := by
  constructor
  · exact h.pending.push_word hroom _ _
  · intro k c ws hfreed hk j u hj
    have hlt := (List.getElem?_eq_some_iff.mp hk).1
    rw [settle_push, Function.update_of_ne]
    · exact h.settled k c ws hfreed hk j u hj
    · intro heq
      exact mod_ne (j := k) hlt (by omega) (hcell _ _ _ _ heq).1
  · intro j u hj
    rw [settle_push]
    rcases Nat.lt_trichotomy j fill.length with hlt | rfl | hgt
    · rw [List.getElem?_append_left hlt] at hj
      rw [Function.update_of_ne]
      · exact h.filling j u hj
      · intro heq
        have hword := (hcell _ _ _ _ heq).2
        omega
    · rw [List.getElem?_concat_length] at hj
      rw [Function.update_self]
      exact Option.some.inj hj
    · rw [List.getElem?_eq_none (by rw [List.length_append, List.length_singleton]; omega)] at hj
      cases hj
  · exact h.shown
  · exact h.fresh
  · exact h.freed_le
  · exact h.lap
  · exact fun _ => hroom

include hcell in
/-- The owner stores word 0: the entry is in the log. -/
theorem Published.publish (h : Published cell n blank mem buf log fill freed visible)
    (hroom : log.length < freed + n) (c : V) :
    Published cell n blank mem (buf ++ [(cell (log.length % n) 0, c)]) (log ++ [(c, fill)]) []
      freed visible := by
  have hvis := h.pending.le
  -- word 0 is not one of the words of an entry
  have hkeep : ∀ i j, settle mem (buf ++ [(cell (log.length % n) 0, c)]) (cell i (j + 1)) =
      settle mem buf (cell i (j + 1)) := by
    intro i j
    rw [settle_push, Function.update_of_ne]
    intro heq
    have hword := (hcell _ _ _ _ heq).2
    omega
  constructor
  · exact h.pending.push_publish c fill
  · intro k c' ws hfreed hk j w hj
    rw [hkeep]
    rcases Nat.lt_trichotomy k log.length with hlt | rfl | hgt
    · rw [List.getElem?_append_left hlt] at hk
      exact h.settled k c' ws hfreed hk j w hj
    · rw [List.getElem?_concat_length] at hk
      obtain ⟨-, rfl⟩ := Prod.mk.inj (Option.some.inj hk)
      exact h.filling j w hj
    · rw [List.getElem?_eq_none (by rw [List.length_append, List.length_singleton]; omega)] at hk
      cases hk
  · intro j w hj
    cases hj
  · rw [List.take_append_of_le_length hvis]
    exact h.shown
  · exact h.fresh
  · exact h.freed_le
  · rw [List.length_append, List.length_singleton]
    exact hroom
  · exact fun hne => absurd rfl hne

/-- A store of the owner to another place. -/
theorem Published.store_other (h : Published cell n blank mem buf log fill freed visible) {l : L}
    (v : V) (hl : ∀ i j, l ≠ cell i j) :
    Published cell n blank mem (buf ++ [(l, v)]) log fill freed visible := by
  have hkeep : ∀ i j, settle mem (buf ++ [(l, v)]) (cell i j) = settle mem buf (cell i j) := by
    intro i j
    rw [settle_push, Function.update_of_ne (hl i j).symm]
  constructor
  · exact h.pending.push_other v hl
  · intro k c ws hfreed hk j w hj
    rw [hkeep]
    exact h.settled k c ws hfreed hk j w hj
  · intro j w hj
    rw [hkeep]
    exact h.filling j w hj
  · exact h.shown
  · exact h.fresh
  · exact h.freed_le
  · exact h.lap
  · exact h.room

/-- Memory changes outside the ring. -/
theorem Published.mem_other (h : Published cell n blank mem buf log fill freed visible)
    {mem' : L → V} (hmem : ∀ i j, mem' (cell i j) = mem (cell i j)) :
    Published cell n blank mem' buf log fill freed visible := by
  have hkeep : ∀ i j, settle mem' buf (cell i j) = settle mem buf (cell i j) :=
    fun i j => settle_congr buf (hmem i j)
  constructor
  · exact h.pending
  · intro k c ws hfreed hk j w hj
    rw [hkeep]
    exact h.settled k c ws hfreed hk j w hj
  · intro j w hj
    rw [hkeep]
    exact h.filling j w hj
  · rw [funext fun i => hmem i 0]
    exact h.shown
  · intro i hi hlt
    rw [hmem]
    exact h.fresh i hi hlt
  · exact h.freed_le
  · exact h.lap
  · exact h.room

include hcell in
/-- The oldest waiting store reaches memory; if it is to word 0, an entry becomes visible. -/
theorem Published.flush {l : L} {v : V}
    (h : Published cell n blank mem ((l, v) :: buf) log fill freed visible) :
    ∃ visible', visible ≤ visible' ∧
      Published cell n blank (Function.update mem l v) buf log fill freed visible' := by
  -- a store to another word does not change what is visible
  have hother : (∀ i, l ≠ cell i 0) → Pending cell n log (freed + n) visible buf →
      Published cell n blank (Function.update mem l v) buf log fill freed visible := by
    intro hl hpending
    have hkeep : ∀ i, Function.update mem l v (cell i 0) = mem (cell i 0) :=
      fun i => Function.update_of_ne (hl i).symm _ _
    refine ⟨hpending, h.settled, h.filling, ?_, ?_, h.freed_le, h.lap, h.room⟩
    · rw [funext hkeep]
      exact h.shown
    · intro i hi hlt
      rw [hkeep]
      exact h.fresh i hi hlt
  cases h.pending with
  | word hlt hrest =>
    refine ⟨visible, Nat.le_refl _, hother ?_ hrest⟩
    intro i heq
    have hword := (hcell _ _ _ _ heq).2
    omega
  | other hl hrest => exact ⟨visible, Nat.le_refl _, hother (fun i => hl i 0) hrest⟩
  | @publish _ _ ws _ hk hrest =>
    have hlt := (List.getElem?_eq_some_iff.mp hk).1
    have hlen : ((log.take visible).map Prod.fst).length = visible := by
      rw [List.length_map, List.length_take, Nat.min_eq_left (Nat.le_of_lt hlt)]
    refine ⟨visible + 1, Nat.le_succ _, hrest, h.settled, h.filling, ?_, ?_,
      Nat.le_succ_of_le h.freed_le, h.lap, h.room⟩
    · have hpush := h.shown.push v
      rw [hlen] at hpush
      have hmap : (log.take (visible + 1)).map Prod.fst = (log.take visible).map Prod.fst ++ [v] := by
        rw [List.take_add_one, hk, Option.toList_some, List.map_append, List.map_singleton]
      rw [hmap]
      convert hpush using 2 with i
      by_cases hi : i = visible % n
      · rw [hi, Function.update_self, Function.update_self]
      · rw [Function.update_of_ne hi, Function.update_of_ne]
        intro heq
        exact hi (hcell _ _ _ _ heq).1
    · intro i hi hin
      rw [Function.update_of_ne]
      · exact h.fresh i (by omega) hin
      · intro heq
        have hslot := (hcell _ _ _ _ heq).1
        rw [Nat.mod_eq_of_lt (by omega)] at hslot
        omega

end Published

end SmeltConsensus.Foundation.StoreBuffer
