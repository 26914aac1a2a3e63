import Mathlib.Data.List.Induction
import Mathlib.Data.List.Nodup
import Mathlib.Logic.Function.Basic

/-!
Doubly linked lists on a heap of nodes.

An operation returns nothing where it would follow a null or a freed pointer, or
where it would not return. `Seg` says which nodes a list of links visits; every
operation on the links comes with what it does to the visited nodes.
-/

set_option autoImplicit false
set_option relaxedAutoImplicit false

namespace SmeltConsensus.Foundation.LinkedHeap

structure Node (V : Type) where
  val : V
  next : Option Nat
  prev : Option Nat
  freed : Bool

/-- The nodes ever allocated, freed ones included, and the next fresh address. -/
structure Heap (V : Type) where
  cells : Nat → Option (Node V)
  fresh : Nat

variable {V : Type}

namespace Heap

def empty : Heap V := ⟨fun _ => none, 0⟩

/-- Zero-filled allocation. -/
def alloc (h : Heap V) (v : V) : Heap V × Nat :=
  (⟨Function.update h.cells h.fresh (some ⟨v, none, none, false⟩), h.fresh + 1⟩, h.fresh)

/-- Allocation in which the links are whatever was in the memory before. -/
def malloc (h : Heap V) (v : V) (next prev : Option Nat) : Heap V × Nat :=
  (⟨Function.update h.cells h.fresh (some ⟨v, next, prev, false⟩), h.fresh + 1⟩, h.fresh)

/-- The heap with the value at every address changed. -/
def mapVal (h : Heap V) (f : Nat → V → V) : Heap V :=
  { h with cells := fun a => (h.cells a).map fun node => { node with val := f a node.val } }

/-- The node behind a pointer that is neither null nor freed. -/
def deref (h : Heap V) : Option Nat → Option (Node V)
  | none => none
  | some a => (h.cells a).filter fun node => !node.freed

/-- The value at an address, readable also after a free. -/
def val (h : Heap V) (a : Nat) : Option V := (h.cells a).map Node.val

/-- The link at an address, readable also after a free. -/
def next (h : Heap V) (a : Nat) : Option Nat := (h.cells a).bind Node.next

def set (h : Heap V) (a : Nat) (node : Node V) : Heap V :=
  { h with cells := Function.update h.cells a (some node) }

/-- Write through a pointer. -/
def write (h : Heap V) (p : Option Nat) (f : Node V → Node V) : Option (Heap V) :=
  p.bind fun a => (h.deref (some a)).map fun node => h.set a (f node)

def setNext (h : Heap V) (p q : Option Nat) : Option (Heap V) :=
  h.write p fun node => { node with next := q }

def setPrev (h : Heap V) (p q : Option Nat) : Option (Heap V) :=
  h.write p fun node => { node with prev := q }

def setVal (h : Heap V) (p : Option Nat) (f : V → V) : Option (Heap V) :=
  h.write p fun node => { node with val := f node.val }

def free (h : Heap V) (p : Option Nat) : Option (Heap V) :=
  h.write p fun node => { node with freed := true }

/-- The first node from a pointer on whose value passes the test, or null. -/
def search (h : Heap V) (test : V → Bool) : Nat → Option Nat → Option (Option Nat)
  | _, none => some none
  | 0, some _ => none
  | fuel + 1, some a => (h.deref (some a)).bind fun node =>
    if test node.val then some (some a) else h.search test fuel node.next

/-- The values met from a node on along the links, of at most so many nodes. -/
def values (h : Heap V) : Nat → Option Nat → List V
  | 0, _ => []
  | fuel + 1, p =>
    match h.deref p with
    | none => []
    | some node => node.val :: h.values fuel node.next

/-- Link the two neighbours of a node that has both to each other. -/
def unlink (h : Heap V) (a : Nat) : Option (Heap V) :=
  (h.deref (some a)).bind fun node =>
    (h.setNext node.prev node.next).bind fun h => h.setPrev node.next node.prev

/-- Link the neighbours of a node to each other, where there are any. -/
def detach (h : Heap V) (a : Nat) : Option (Heap V) :=
  (h.deref (some a)).bind fun node =>
    (if node.prev.isSome then h.setNext node.prev node.next else some h).bind fun h =>
      if node.next.isSome then h.setPrev node.next node.prev else some h

/-- Detach and free every node from a pointer on whose value passes the test. -/
def sweep (test : V → Bool) : Nat → Heap V → Option Nat → Option (Heap V)
  | _, h, none => some h
  | 0, _, some _ => none
  | fuel + 1, h, some a => (h.deref (some a)).bind fun node =>
    if test node.val then
      (h.detach a).bind fun h => (h.free (some a)).bind fun h => sweep test fuel h (h.next a)
    else
      sweep test fuel h node.next

/-- A sweep that reads no link of a freed node. -/
def sweepLive (test : V → Bool) : Nat → Heap V → Option Nat → Option (Heap V)
  | _, h, none => some h
  | 0, _, some _ => none
  | fuel + 1, h, some a => (h.deref (some a)).bind fun node =>
    if test node.val then
      (h.detach a).bind fun h => (h.free (some a)).bind fun h =>
        (h.deref (some a)).bind fun node => sweepLive test fuel h node.next
    else
      sweepLive test fuel h node.next

/-- Following a link from a pointer on visits the nodes `as`, none of them freed, and ends
at null. -/
def Visits (link : Node V → Option Nat) (h : Heap V) : Option Nat → List Nat → Prop
  | p, [] => p = none
  | p, a :: as => p = some a ∧ ∃ node, h.deref p = some node ∧ Visits link h (link node) as

theorem Visits.unique {link : Node V → Option Nat} {h : Heap V} {p : Option Nat}
    {as bs : List Nat} (ha : Visits link h p as) (hb : Visits link h p bs) : as = bs := by
  induction as generalizing p bs with
  | nil =>
    cases bs with
    | nil => rfl
    | cons b bs => cases ha.symm.trans hb.1
  | cons a as ih =>
    cases bs with
    | nil => cases hb.symm.trans ha.1
    | cons b bs =>
      obtain ⟨hpa, node, hnode, hrest⟩ := ha
      obtain ⟨hpb, node', hnode', hrest'⟩ := hb
      obtain rfl := Option.some.inj (hpa.symm.trans hpb)
      obtain rfl := Option.some.inj (hnode.symm.trans hnode')
      rw [ih hrest hrest']

variable {h : Heap V} {a b : Nat} {node : Node V}

@[simp] theorem set_fresh (h : Heap V) (a : Nat) (node : Node V) :
    (h.set a node).fresh = h.fresh := rfl

@[simp] theorem set_cells_self (h : Heap V) (a : Nat) (node : Node V) :
    (h.set a node).cells a = some node := Function.update_self _ _ _

theorem set_cells_of_ne (h : Heap V) (hne : b ≠ a) (node : Node V) :
    (h.set a node).cells b = h.cells b := Function.update_of_ne hne _ _

theorem deref_eq (hc : h.cells a = some node) (hf : node.freed = false) :
    h.deref (some a) = some node := by
  simp [deref, hc, hf]

theorem write_eq (hc : h.cells a = some node) (hf : node.freed = false) (f : Node V → Node V) :
    h.write (some a) f = some (h.set a (f node)) := by
  rw [write, Option.bind_some, deref_eq hc hf, Option.map_some]

theorem deref_set_freed (h : Heap V) (hf : node.freed = true) :
    (h.set a node).deref (some a) = none := by
  simp [deref, hf]

theorem deref_of_free {h' : Heap V} (heq : h.free (some a) = some h') :
    h'.deref (some a) = none := by
  obtain ⟨node, -, rfl⟩ := Option.map_eq_some_iff.mp heq
  exact deref_set_freed h rfl

/-- The two sweeps agree where no link of a freed node is read. -/
theorem sweep_of_live {test : V → Bool} {fuel : Nat} {h h' : Heap V} {p : Option Nat}
    (heq : sweepLive test fuel h p = some h') : sweep test fuel h p = some h' := by
  induction fuel generalizing h p with
  | zero =>
    cases p with
    | none => exact heq
    | some a => cases heq
  | succ fuel ih =>
    cases p with
    | none => exact heq
    | some a =>
      obtain ⟨node, hnode, heq⟩ := Option.bind_eq_some_iff.mp heq
      rw [sweep, hnode, Option.bind_some]
      split at heq
      · obtain ⟨h₁, -, heq⟩ := Option.bind_eq_some_iff.mp heq
        obtain ⟨h₂, hfree, heq⟩ := Option.bind_eq_some_iff.mp heq
        rw [deref_of_free hfree, Option.bind_none] at heq
        cases heq
      · rename_i hkeep
        rw [if_neg hkeep]
        exact ih heq

theorem setPrev_null (h : Heap V) (q : Option Nat) : h.setPrev none q = none := rfl

theorem setNext_null (h : Heap V) (q : Option Nat) : h.setNext none q = none := rfl

@[simp] theorem malloc_cells (h : Heap V) (v : V) (next prev : Option Nat) :
    (h.malloc v next prev).1.cells h.fresh = some ⟨v, next, prev, false⟩ :=
  Function.update_self _ _ _

theorem val_malloc (h : Heap V) (v : V) (next prev : Option Nat) :
    (h.malloc v next prev).1.val = Function.update h.val h.fresh (some v) := by
  funext b
  by_cases hb : b = h.fresh
  · subst hb
    simp [val, malloc]
  · simp [val, malloc, Function.update_of_ne hb]

theorem val_mapVal (h : Heap V) (f : Nat → V → V) (a : Nat) :
    (h.mapVal f).val a = (h.val a).map (f a) := by
  simp [val, mapVal, Function.comp_def]

/-- A write that keeps the value of a node changes no value. -/
theorem val_set (hc : h.cells a = some node) (node' : Node V) (hv : node'.val = node.val) :
    (h.set a node').val = h.val := by
  funext b
  by_cases hb : b = a
  · subst hb
    simp [val, hc, hv]
  · rw [val, set_cells_of_ne h hb, val]

end Heap

open Heap

/-- The nodes `as` are linked to each other in this order, after `prev` and before `next`. -/
def Seg (h : Heap V) : Option Nat → List Nat → Option Nat → Prop
  | _, [], _ => True
  | prev, a :: as, next =>
    (∃ v, h.cells a = some ⟨v, as.head?.or next, prev, false⟩) ∧ Seg h (some a) as next

section Segments

variable {h h' : Heap V} {prev next : Option Nat} {a : Nat} {as bs : List Nat}

@[simp] theorem seg_nil (h : Heap V) (prev next : Option Nat) : Seg h prev [] next := trivial

theorem seg_cons : Seg h prev (a :: as) next ↔
    (∃ v, h.cells a = some ⟨v, as.head?.or next, prev, false⟩) ∧ Seg h (some a) as next := Iff.rfl

theorem seg_append : Seg h prev (as ++ bs) next ↔
    Seg h prev as (bs.head?.or next) ∧ Seg h (as.getLast?.or prev) bs next := by
  induction as generalizing prev with
  | nil => simp
  | cons a as ih =>
    have hhead : (as ++ bs).head?.or next = as.head?.or (bs.head?.or next) := by
      cases as <;> rfl
    have hlast : (a :: as).getLast?.or prev = as.getLast?.or (some a) := by
      cases as with
      | nil => rfl
      | cons b as =>
        rw [List.getLast?_cons_cons, List.getLast?_eq_some_getLast (List.cons_ne_nil b as)]
        rfl
    rw [List.cons_append, seg_cons, ih, hhead, hlast, seg_cons, and_assoc]

theorem Seg.congr (hs : Seg h prev as next) (hc : ∀ a ∈ as, h'.cells a = h.cells a) :
    Seg h' prev as next := by
  induction as generalizing prev with
  | nil => trivial
  | cons a as ih =>
    obtain ⟨⟨v, hv⟩, hs⟩ := hs
    refine ⟨⟨v, ?_⟩, ih hs fun b hb => hc b (List.mem_cons_of_mem _ hb)⟩
    rw [hc a List.mem_cons_self, hv]

/-- A node that is not visited can be written freely. -/
theorem Seg.set (hs : Seg h prev as next) (ha : a ∉ as) (node : Node V) :
    Seg (h.set a node) prev as next :=
  hs.congr fun _ hb => set_cells_of_ne h (ne_of_mem_of_not_mem hb ha) node

theorem Seg.live (hs : Seg h prev as next) (ha : a ∈ as) :
    ∃ node, h.cells a = some node ∧ node.freed = false := by
  induction as generalizing prev with
  | nil => cases ha
  | cons b as ih =>
    obtain ⟨⟨v, hv⟩, hs⟩ := hs
    rcases List.mem_cons.mp ha with rfl | ha
    · exact ⟨_, hv, rfl⟩
    · exact ih hs ha

theorem Seg.setVal (hs : Seg h prev as next) (ha : a ∈ as) (hnd : as.Nodup) (f : V → V) :
    ∃ h', h.setVal (some a) f = some h' ∧ Seg h' prev as next ∧ h'.fresh = h.fresh ∧
      h'.val = Function.update h.val a ((h.val a).map f) := by
  obtain ⟨l, r, rfl⟩ := List.append_of_mem ha
  rw [seg_append, seg_cons] at hs
  obtain ⟨hl, ⟨v, hv⟩, hr⟩ := hs
  obtain ⟨hal, har⟩ : a ∉ l ∧ a ∉ r := by
    simp [List.nodup_append, List.nodup_cons] at hnd
    exact ⟨fun hm => (hnd.2.2 a hm).1 rfl, hnd.2.1.1⟩
  refine ⟨h.set a ⟨f v, _, _, false⟩, write_eq hv rfl _, ?_, rfl, ?_⟩
  · rw [seg_append, seg_cons]
    exact ⟨hl.set hal _, ⟨f v, set_cells_self _ _ _⟩, hr.set har _⟩
  · funext b
    by_cases hb : b = a
    · subst hb
      simp [val, hv]
    · rw [Function.update_of_ne hb, val, set_cells_of_ne h hb, val]

/-- A new link behind the last node. -/
theorem Seg.setNext_last {q : Option Nat} (hs : Seg h prev (as ++ [a]) next) (ha : a ∉ as) :
    ∃ h', h.setNext (some a) q = some h' ∧ Seg h' prev (as ++ [a]) q ∧ h'.fresh = h.fresh ∧
      h'.val = h.val ∧ ∀ b, b ≠ a → h'.cells b = h.cells b := by
  rw [seg_append, seg_cons] at hs
  obtain ⟨hl, ⟨v, hv⟩, -⟩ := hs
  refine ⟨h.set a ⟨v, q, _, false⟩, write_eq hv rfl _, ?_, rfl, val_set hv _ rfl,
    fun b hb => set_cells_of_ne h hb _⟩
  rw [seg_append, seg_cons]
  exact ⟨hl.set ha _, ⟨v, set_cells_self _ _ _⟩, trivial⟩

/-- A new link before the first node. -/
theorem Seg.setPrev_head {q : Option Nat} (hs : Seg h prev (a :: as) next) (ha : a ∉ as) :
    ∃ h', h.setPrev (some a) q = some h' ∧ Seg h' q (a :: as) next ∧ h'.fresh = h.fresh ∧
      h'.val = h.val ∧ ∀ b, b ≠ a → h'.cells b = h.cells b := by
  obtain ⟨⟨v, hv⟩, hr⟩ := hs
  exact ⟨h.set a ⟨v, _, q, false⟩, write_eq hv rfl _,
    ⟨⟨v, set_cells_self _ _ _⟩, hr.set ha _⟩, rfl, val_set hv _ rfl,
    fun b hb => set_cells_of_ne h hb _⟩

theorem Seg.malloc (hs : Seg h prev as next) (ha : h.fresh ∉ as) (v : V) (p q : Option Nat) :
    Seg (h.malloc v p q).1 prev as next :=
  hs.congr fun _ hb => Function.update_of_ne (ne_of_mem_of_not_mem hb ha) _ _

theorem Seg.mapVal (hs : Seg h prev as next) (f : Nat → V → V) : Seg (h.mapVal f) prev as next := by
  induction as generalizing prev with
  | nil => trivial
  | cons a as ih =>
    obtain ⟨⟨v, hv⟩, hs⟩ := hs
    refine ⟨⟨f a v, ?_⟩, ih hs⟩
    rw [Heap.mapVal]
    dsimp only
    rw [hv, Option.map_some]

/-- The nodes are visited in order from the first one on. -/
theorem Seg.visits_next (hs : Seg h prev as none) : Visits Node.next h as.head? as := by
  induction as generalizing prev with
  | nil => rfl
  | cons a as ih =>
    obtain ⟨⟨v, hv⟩, hs⟩ := hs
    refine ⟨rfl, _, deref_eq hv rfl, ?_⟩
    rw [Option.or_none]
    exact ih hs

/-- The nodes are visited in reverse order from the last one on. -/
theorem Seg.visits_prev (hs : Seg h none as next) :
    Visits Node.prev h as.getLast? as.reverse := by
  induction as using List.reverseRecOn generalizing next with
  | nil => rfl
  | append_singleton as a ih =>
    rw [seg_append, seg_cons] at hs
    obtain ⟨hl, ⟨v, hv⟩, -⟩ := hs
    rw [List.getLast?_concat, List.reverse_append, List.reverse_singleton, List.singleton_append]
    refine ⟨rfl, _, deref_eq hv rfl, ?_⟩
    rw [Option.or_none]
    exact ih hl

/-- A fresh node linked behind a list. -/
theorem Seg.snoc {v : V} {p : Option Nat} (hs : Seg h none (as ++ [a]) none) {e : Nat}
    (he : h.cells e = some ⟨v, none, p, false⟩) (hnd : (as ++ [a] ++ [e]).Nodup) :
    ∃ h', ((h.setNext (some a) (some e)).bind fun h => h.setPrev (some e) (some a)) = some h' ∧
      Seg h' none (as ++ [a] ++ [e]) none ∧ h'.fresh = h.fresh ∧ h'.val = h.val := by
  simp only [List.nodup_append, List.mem_append, List.mem_singleton] at hnd
  have ha : a ∉ as := fun hm => hnd.1.2.2 a hm a rfl rfl
  have hea : e ≠ a := fun heq => hnd.2.2 a (Or.inr rfl) e rfl heq.symm
  have hmem : ∀ b ∈ as ++ [a], b ≠ e := fun b hb => hnd.2.2 b (List.mem_append.mp hb |>.imp_right
    List.mem_singleton.mp) e rfl
  obtain ⟨h₁, h₁eq, hs₁, hfresh₁, hval₁, hcells₁⟩ := hs.setNext_last (q := some e) ha
  have he₁ : h₁.cells e = some ⟨v, none, p, false⟩ := (hcells₁ e hea).trans he
  have hse : Seg h₁ p [e] none := ⟨⟨v, he₁⟩, trivial⟩
  obtain ⟨h₂, h₂eq, hs₂, hfresh₂, hval₂, hcells₂⟩ :=
    hse.setPrev_head (q := some a) List.not_mem_nil
  refine ⟨h₂, ?_, ?_, hfresh₂.trans hfresh₁, hval₂.trans hval₁⟩
  · rw [h₁eq, Option.bind_some, h₂eq]
  · rw [seg_append]
    refine ⟨?_, ?_⟩
    · exact hs₁.congr fun b hb => hcells₂ b (hmem b hb)
    · rw [List.getLast?_concat]
      exact hs₂

/-- Detaching a node leaves the others linked and the node itself as it was. -/
theorem Seg.detach (hs : Seg h none (as ++ a :: bs) none) (hnd : (as ++ a :: bs).Nodup) :
    ∃ h', h.detach a = some h' ∧ Seg h' none (as ++ bs) none ∧ h'.fresh = h.fresh ∧
      h'.val = h.val ∧ h'.cells a = h.cells a := by
  rw [seg_append, seg_cons] at hs
  obtain ⟨hl, ⟨v, hv⟩, hr⟩ := hs
  obtain ⟨hndl, hndr, hdis⟩ := List.nodup_append.mp hnd
  obtain ⟨har, hndb⟩ := List.nodup_cons.mp hndr
  have hal : a ∉ as := fun hm => hdis a hm a List.mem_cons_self rfl
  -- first the link of the left neighbour
  obtain ⟨h₁, h₁eq, hl₁, hfresh₁, hval₁, hcells₁⟩ : ∃ h₁,
      (if (as.getLast?.or none).isSome then h.setNext (as.getLast?.or none) (bs.head?.or none)
        else some h) = some h₁ ∧ Seg h₁ none as (bs.head?.or none) ∧ h₁.fresh = h.fresh ∧
      h₁.val = h.val ∧ ∀ b, b ∉ as → h₁.cells b = h.cells b := by
    rcases List.eq_nil_or_concat as with rfl | ⟨l, x, rfl⟩
    · exact ⟨h, rfl, trivial, rfl, rfl, fun _ _ => rfl⟩
    · rw [List.concat_eq_append] at hl hndl ⊢
      have hx : x ∉ l := fun hm =>
        (List.nodup_append.mp hndl).2.2 x hm x List.mem_cons_self rfl
      obtain ⟨h₁, heq, hs₁, hf, hval, hcells⟩ := hl.setNext_last (q := bs.head?.or none) hx
      refine ⟨h₁, ?_, hs₁, hf, hval, fun b hb => hcells b fun heq => hb (by simp [heq])⟩
      rw [List.getLast?_concat]
      exact heq
  have hr₁ : Seg h₁ (some a) bs none := hr.congr fun b hb => hcells₁ b fun hm =>
    hdis b hm b (List.mem_cons_of_mem _ hb) rfl
  -- then the link of the right neighbour
  obtain ⟨h₂, h₂eq, hr₂, hfresh₂, hval₂, hcells₂⟩ : ∃ h₂,
      (if (bs.head?.or none).isSome then h₁.setPrev (bs.head?.or none) (as.getLast?.or none)
        else some h₁) = some h₂ ∧ Seg h₂ (as.getLast?.or none) bs none ∧ h₂.fresh = h₁.fresh ∧
      h₂.val = h₁.val ∧ ∀ b, b ∉ bs → h₂.cells b = h₁.cells b := by
    cases bs with
    | nil => exact ⟨h₁, rfl, trivial, rfl, rfl, fun _ _ => rfl⟩
    | cons y r =>
      obtain ⟨h₂, heq, hs₂, hf, hval, hcells⟩ :=
        hr₁.setPrev_head (q := as.getLast?.or none) (List.nodup_cons.mp hndb).1
      exact ⟨h₂, heq, hs₂, hf, hval, fun b hb => hcells b fun heq => hb (by simp [heq])⟩
  refine ⟨h₂, ?_, ?_, hfresh₂.trans hfresh₁, hval₂.trans hval₁, ?_⟩
  · rw [Heap.detach, deref_eq hv rfl, Option.bind_some]
    dsimp only
    rw [h₁eq, Option.bind_some, h₂eq]
  · rw [seg_append]
    refine ⟨hl₁.congr fun b hb => hcells₂ b fun hm =>
      hdis b hb b (List.mem_cons_of_mem _ hm) rfl, hr₂⟩
  · rw [hcells₂ a har, hcells₁ a hal]

/-- A node with two neighbours can be unlinked. -/
theorem Seg.unlink (hs : Seg h none (as ++ a :: bs) none) (hnd : (as ++ a :: bs).Nodup)
    (has : as ≠ []) (hbs : bs ≠ []) :
    ∃ h', h.unlink a = some h' ∧ Seg h' none (as ++ bs) none ∧ h'.fresh = h.fresh ∧
      h'.val = h.val ∧ h'.cells a = h.cells a := by
  obtain ⟨h', heq, hs', hfresh, hval, hcell⟩ := hs.detach hnd
  rw [seg_append, seg_cons] at hs
  obtain ⟨-, ⟨v, hv⟩, -⟩ := hs
  refine ⟨h', ?_, hs', hfresh, hval, hcell⟩
  have hprev : (as.getLast?.or none).isSome := by
    rw [List.getLast?_eq_some_getLast has]
    rfl
  have hnext : (bs.head?.or none).isSome := by
    rw [List.head?_eq_some_head hbs]
    rfl
  rw [Heap.detach, deref_eq hv rfl, Option.bind_some] at heq
  dsimp only at heq
  simp only [hprev, hnext, if_true] at heq
  rw [Heap.unlink, deref_eq hv rfl, Option.bind_some]
  exact heq

/-- A node without one of its neighbours cannot be unlinked. -/
theorem Seg.unlink_eq_none (hs : Seg h none (as ++ a :: bs) none) (hend : as = [] ∨ bs = []) :
    h.unlink a = none := by
  rw [seg_append, seg_cons] at hs
  obtain ⟨-, ⟨v, hv⟩, -⟩ := hs
  rw [Heap.unlink, deref_eq hv rfl, Option.bind_some]
  rcases hend with rfl | rfl
  · exact congrArg (Option.bind · _) (setNext_null h _)
  · exact Option.bind_eq_none_iff.mpr fun h' _ => setPrev_null h' _

theorem Seg.values (hs : Seg h prev as none) {fuel : Nat} (hf : as.length ≤ fuel) :
    h.values fuel as.head? = as.filterMap h.val := by
  induction as generalizing prev fuel with
  | nil => cases fuel <;> rfl
  | cons a as ih =>
    obtain ⟨⟨v, hv⟩, hs⟩ := hs
    obtain ⟨fuel, rfl⟩ : ∃ k, fuel = k + 1 := ⟨fuel - 1, by rw [List.length_cons] at hf; omega⟩
    have hval : h.val a = some v := by rw [val, hv, Option.map_some]
    rw [List.head?_cons, Heap.values, deref_eq hv rfl, List.filterMap_cons_some hval, Option.or_none]
    dsimp only
    rw [ih hs (by rw [List.length_cons] at hf; omega)]

/-- A search finds the first visited node whose value passes the test. -/
theorem Seg.search (hs : Seg h prev as none) (test : V → Bool) {fuel : Nat}
    (hf : as.length ≤ fuel) :
    h.search test fuel as.head? = some (as.find? fun a => (h.val a).any test) := by
  induction as generalizing prev fuel with
  | nil => cases fuel <;> rfl
  | cons a as ih =>
    obtain ⟨⟨v, hv⟩, hs⟩ := hs
    obtain ⟨fuel, rfl⟩ : ∃ k, fuel = k + 1 := ⟨fuel - 1, by rw [List.length_cons] at hf; omega⟩
    have hval : (h.val a).any test = test v := by simp [val, hv]
    rw [List.head?_cons, Heap.search, deref_eq hv rfl, Option.bind_some, List.find?_cons, hval]
    dsimp only
    cases htest : test v with
    | true => rfl
    | false =>
      rw [Option.or_none]
      exact ih hs (by rw [List.length_cons] at hf; omega)

/-- A sweep leaves the visited nodes whose values do not pass the test. -/
theorem Seg.sweep (hs : Seg h none (as ++ bs) none) (hnd : (as ++ bs).Nodup) (test : V → Bool)
    {fuel : Nat} (hf : bs.length ≤ fuel) :
    ∃ h', Heap.sweep test fuel h bs.head? = some h' ∧
      Seg h' none (as ++ bs.filter fun a => !(h.val a).any test) none ∧
      h'.fresh = h.fresh ∧ h'.val = h.val := by
  induction bs generalizing h as fuel with
  | nil => exact ⟨h, by cases fuel <;> rfl, hs, rfl, rfl⟩
  | cons a bs ih =>
    obtain ⟨fuel, rfl⟩ : ∃ k, fuel = k + 1 := ⟨fuel - 1, by rw [List.length_cons] at hf; omega⟩
    have hf : bs.length ≤ fuel := by rw [List.length_cons] at hf; omega
    obtain ⟨v, hv⟩ := (seg_cons.mp (seg_append.mp hs).2).1
    have hval : (h.val a).any test = test v := by simp [val, hv]
    rw [List.head?_cons, Heap.sweep, deref_eq hv rfl, Option.bind_some, List.filter_cons, hval]
    cases htest : test v with
    | true =>
      obtain ⟨h₁, h₁eq, hs₁, hfresh₁, hval₁, hcell₁⟩ := hs.detach hnd
      rw [hv] at hcell₁
      have hsub : (as ++ bs).Sublist (as ++ a :: bs) :=
        (List.Sublist.refl as).append (List.sublist_cons_self a bs)
      have ha : a ∉ as ++ bs := by
        have hperm := (List.nodup_cons.mp (List.perm_middle.nodup_iff.mp hnd)).1
        exact hperm
      have hfreed := hs₁.set ha ⟨v, bs.head?.or none, as.getLast?.or none, true⟩
      obtain ⟨h', heq, hs', hfresh, hval'⟩ := ih hfreed (hsub.nodup hnd) hf
      have hvals := (val_set hcell₁ ⟨v, bs.head?.or none, as.getLast?.or none, true⟩ rfl).trans
        hval₁
      rw [hvals] at hs' hval'
      refine ⟨h', ?_, ?_, hfresh.trans hfresh₁, hval'⟩
      · simp only [if_true, h₁eq, Option.bind_some, Heap.free, write_eq hcell₁ rfl, Heap.next,
          set_cells_self, Option.or_none]
        simpa only [Option.or_none] using heq
      · simpa using hs'
    | false =>
      rw [List.append_cons] at hs hnd
      obtain ⟨h', heq, hs', hfresh, hval'⟩ := ih hs hnd hf
      refine ⟨h', ?_, ?_, hfresh, hval'⟩
      · simpa using heq
      · simpa using hs'

/-- A sweep that reads no link of a freed node frees none. -/
theorem Seg.sweepLive (hs : Seg h prev as none) (test : V → Bool) {fuel : Nat}
    (hf : as.length ≤ fuel) :
    Heap.sweepLive test fuel h as.head? =
      if as.any fun a => (h.val a).any test then none else some h := by
  induction as generalizing prev fuel with
  | nil => cases fuel <;> rfl
  | cons a as ih =>
    obtain ⟨⟨v, hv⟩, hs⟩ := hs
    obtain ⟨fuel, rfl⟩ : ∃ k, fuel = k + 1 := ⟨fuel - 1, by rw [List.length_cons] at hf; omega⟩
    have hval : (h.val a).any test = test v := by simp [val, hv]
    rw [List.head?_cons, Heap.sweepLive, deref_eq hv rfl, Option.bind_some, List.any_cons, hval]
    dsimp only
    cases htest : test v with
    | true =>
      rw [if_pos rfl, Bool.true_or, if_pos rfl, Option.bind_eq_none_iff]
      intro h₁ _
      rw [Option.bind_eq_none_iff]
      intro h₂ hfree
      rw [deref_of_free hfree, Option.bind_none]
    | false =>
      rw [if_neg Bool.false_ne_true, Bool.false_or, Option.or_none]
      exact ih hs (by rw [List.length_cons] at hf; omega)

end Segments

end SmeltConsensus.Foundation.LinkedHeap
