import Mathlib.Data.List.Basic
import Mathlib.Data.Nat.Init

/-!
Arrays of a fixed length, whose elements are read and written inside of them
only, and counting loops over such accesses. An access outside of the array has
no result, and neither has a loop that makes one.
-/

set_option autoImplicit false
set_option relaxedAutoImplicit false

namespace SmeltConsensus.Foundation.Buffer

variable {σ α : Type}

/-- `for (int i = a; i < b; i++)`, where each round may fail. -/
def forLoop (a b : Nat) (body : Nat → σ → Option σ) (s : σ) : Option σ :=
  (List.range' a (b - a)).foldlM (fun s i => body i s) s

theorem forLoop_split {a k b : Nat} (hak : a ≤ k) (hkb : k ≤ b) (body : Nat → σ → Option σ)
    (s : σ) : forLoop a b body s = (forLoop a k body s).bind (forLoop k b body) := by
  have hrange : List.range' a (b - a) = List.range' a (k - a) ++ List.range' k (b - k) := by
    have hstart : a + (k - a) = k := by omega
    have hlen : k - a + (b - k) = b - a := by omega
    rw [← hlen, ← List.range'_append_1, hstart]
  rw [forLoop, hrange, List.foldlM_append]
  rfl

theorem forLoop_self (a : Nat) (body : Nat → σ → Option σ) (s : σ) :
    forLoop a a body s = some s := by
  rw [forLoop, Nat.sub_self]
  rfl

theorem forLoop_succ {a b : Nat} (h : a ≤ b) (body : Nat → σ → Option σ) (s : σ) :
    forLoop a (b + 1) body s = (forLoop a b body s).bind (body b) := by
  rw [forLoop_split h (Nat.le_succ b)]
  congr 1
  funext t
  have hone : b.succ - b = 1 := Nat.add_sub_cancel_left b 1
  rw [forLoop, hone]
  exact bind_pure (body b t)

/-- The rule of the loop: a body that gets from the invariant at each count to the
invariant at the next one. -/
theorem forLoop_rule {a b : Nat} (inv : Nat → σ → Prop) {body : Nat → σ → Option σ} {s : σ}
    (hab : a ≤ b) (hinit : inv a s)
    (hstep : ∀ i t, a ≤ i → i < b → inv i t → ∃ t', body i t = some t' ∧ inv (i + 1) t') :
    ∃ t, forLoop a b body s = some t ∧ inv b t := by
  induction b, hab using Nat.le_induction with
  | base => exact ⟨s, forLoop_self a body s, hinit⟩
  | succ b hab ih =>
    obtain ⟨t, hrun, ht⟩ := ih fun i t hi hlt => hstep i t hi (Nat.lt_succ_of_lt hlt)
    obtain ⟨t', hbody, ht'⟩ := hstep b t hab (Nat.lt_succ_self b) ht
    exact ⟨t', by rw [forLoop_succ hab, hrun, Option.bind_some, hbody], ht'⟩

/-- A loop that comes to a round `k` which fails. -/
theorem forLoop_fails {a k b : Nat} (inv : Nat → σ → Prop) {body : Nat → σ → Option σ} {s : σ}
    (hak : a ≤ k) (hkb : k < b) (hinit : inv a s)
    (hstep : ∀ i t, a ≤ i → i < k → inv i t → ∃ t', body i t = some t' ∧ inv (i + 1) t')
    (hfail : ∀ t, inv k t → body k t = none) : forLoop a b body s = none := by
  obtain ⟨t, hrun, ht⟩ := forLoop_rule inv hak hinit hstep
  rw [forLoop_split (Nat.le_succ_of_le hak) hkb, forLoop_succ hak, hrun, Option.bind_some, hfail t ht]
  rfl

/-- `buf[i] = x` -/
def writeAt (buf : List α) (i : Nat) (x : α) : Option (List α) :=
  if i < buf.length then some (buf.set i x) else none

theorem writeAt_of_lt {buf : List α} {i : Nat} (h : i < buf.length) (x : α) :
    writeAt buf i x = some (buf.set i x) := if_pos h

theorem writeAt_of_ge {buf : List α} {i : Nat} (h : buf.length ≤ i) (x : α) :
    writeAt buf i x = none := if_neg (Nat.not_lt.mpr h)

/-- `malloc` of `n` elements, with whatever is in them. -/
def malloc (junk : Nat → α) (n : Nat) : List α := (List.range n).map junk

theorem length_malloc (junk : Nat → α) (n : Nat) : (malloc junk n).length = n := by
  rw [malloc, List.length_map, List.length_range]

/-- `for (int j = 0; j < n; j++) buf[j] = src(j);` -/
def fill (src : Nat → Option α) (n : Nat) (buf : List α) : Option (List α) :=
  forLoop 0 n (fun j buf => (src j).bind (writeAt buf j)) buf

/-- The first `k` elements of the array are those of the source. -/
def Filled (src : Nat → Option α) (len k : Nat) (buf : List α) : Prop :=
  buf.length = len ∧ ∀ j < k, buf[j]? = src j

theorem filled_step {src : Nat → Option α} {len k : Nat} {buf : List α} {x : α}
    (h : Filled src len k buf) (hk : k < len) (hx : src k = some x) :
    ∃ buf', (src k).bind (writeAt buf k) = some buf' ∧ Filled src len (k + 1) buf' := by
  have hlt : k < buf.length := h.1.symm ▸ hk
  refine ⟨buf.set k x, by rw [hx, Option.bind_some, writeAt_of_lt hlt],
    (List.length_set ..).trans h.1, fun j hj => ?_⟩
  rcases eq_or_ne j k with rfl | hne
  · rw [List.getElem?_set_self hlt, hx]
  · rw [List.getElem?_set_ne hne.symm, h.2 j (by omega)]

/-- A copy that fits. -/
theorem fill_of_le {src : Nat → Option α} {n : Nat} {buf : List α}
    (hsrc : ∀ j < n, ∃ x, src j = some x) (h : n ≤ buf.length) :
    ∃ out, fill src n buf = some out ∧ Filled src buf.length n out := by
  refine forLoop_rule (Filled src buf.length) (Nat.zero_le n)
    ⟨rfl, fun j hj => absurd hj (Nat.not_lt_zero j)⟩ fun k t _ hk ht => ?_
  obtain ⟨x, hx⟩ := hsrc k hk
  exact filled_step ht (Nat.lt_of_lt_of_le hk h) hx

/-- A copy that does not fit writes past the end. -/
theorem fill_of_lt {src : Nat → Option α} {n : Nat} {buf : List α}
    (hsrc : ∀ j < n, ∃ x, src j = some x) (h : buf.length < n) : fill src n buf = none := by
  refine forLoop_fails (Filled src buf.length) (Nat.zero_le _) h
    ⟨rfl, fun j hj => absurd hj (Nat.not_lt_zero j)⟩ (fun k t _ hk ht => ?_) fun t ht => ?_
  · obtain ⟨x, hx⟩ := hsrc k (Nat.lt_trans hk h)
    exact filled_step ht hk hx
  · obtain ⟨x, hx⟩ := hsrc _ h
    rw [hx, Option.bind_some, writeAt_of_ge (Nat.le_of_eq ht.1)]

/-- A loop that only reads the first `n` elements. -/
def readAll (buf : List α) (n : Nat) : Option (List α) :=
  forLoop 0 n (fun i out => buf[i]?.map fun x => out ++ [x]) []

theorem readAll_eq {buf : List α} {n : Nat} (h : n ≤ buf.length) :
    readAll buf n = some (buf.take n) := by
  have hloop : ∃ out, readAll buf n = some out ∧ out = buf.take n := by
    refine forLoop_rule (fun i out => out = buf.take i) (Nat.zero_le n) rfl fun i out _ hi hout => ?_
    have hlt : i < buf.length := Nat.lt_of_lt_of_le hi h
    refine ⟨buf.take i ++ [buf[i]], ?_, List.take_append_getElem hlt⟩
    rw [List.getElem?_eq_getElem hlt, Option.map_some, hout]
  obtain ⟨out, hrun, rfl⟩ := hloop
  exact hrun

end SmeltConsensus.Foundation.Buffer
