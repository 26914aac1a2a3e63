import Mathlib.Data.List.Basic

/-!
Shift registers with feedback over words: division by a polynomial over two elements, with the
lowest bit as the highest power. What comes out depends on the input bit by bit, and no
difference that fits in the register gets lost.
-/

set_option autoImplicit false
set_option relaxedAutoImplicit false

namespace SmeltConsensus.Foundation.ShiftRegister

variable {w : Nat}

/-- One step of the register with feedback `p`. -/
def shift (p c : BitVec w) : BitVec w := if c.getLsbD 0 then (c >>> 1) ^^^ p else c >>> 1

/-- A bit as a word. -/
def bit (b : Bool) : BitVec w := if b then 1#w else 0#w

/-- The register after the bits `bs`. -/
def register (p : BitVec w) : BitVec w → List Bool → BitVec w
  | c, [] => c
  | c, b :: bs => register p (shift p (c ^^^ bit b)) bs

/-- The bits from the lowest one on. -/
def word : List Bool → BitVec w
  | [] => 0#w
  | b :: bs => bit b ^^^ (word bs <<< 1)

/-- A word has no bit from `n` on. -/
def Short (n : Nat) (c : BitVec w) : Prop := ∀ i, n ≤ i → c.getLsbD i = false

/-- The feedback of a register of `n` bits. -/
structure Feedback (n : Nat) (p : BitVec w) : Prop where
  short : Short n p
  last : p.getLsbD (n - 1) = true
  pos : 0 < n
  le : n ≤ w

variable {n : Nat} {p c d : BitVec w}

theorem Short.xor (hc : Short n c) (hd : Short n d) : Short n (c ^^^ d) := by
  intro i hi
  rw [BitVec.getLsbD_xor, hc i hi, hd i hi]
  rfl

theorem Short.mono {m : Nat} (h : Short m c) (hmn : m ≤ n) : Short n c :=
  fun i hi => h i (Nat.le_trans hmn hi)

theorem short_zero (n : Nat) : Short n (0#w) := fun _ _ => BitVec.getLsbD_zero

theorem Short.eq_zero (h : Short 0 c) : c = 0#w := by
  apply BitVec.eq_of_getLsbD_eq
  intro i _
  rw [h i (Nat.zero_le i), BitVec.getLsbD_zero]

theorem bit_short (b : Bool) : Short 1 (bit b : BitVec w) := by
  intro i hi
  cases b with
  | false => exact BitVec.getLsbD_zero
  | true =>
    have hne : i ≠ 0 := Nat.ne_of_gt hi
    show (1#w).getLsbD i = false
    rw [BitVec.getLsbD_one]
    simp [hne]

theorem getLsbD_shift (p c : BitVec w) (i : Nat) :
    (shift p c).getLsbD i = ((c.getLsbD (i + 1)) ^^ (c.getLsbD 0 && p.getLsbD i)) := by
  unfold shift
  cases hc : c.getLsbD 0 with
  | false =>
    rw [if_neg Bool.false_ne_true, BitVec.getLsbD_ushiftRight, Nat.add_comm, Bool.false_and,
      Bool.xor_false]
  | true =>
    rw [if_pos rfl, BitVec.getLsbD_xor, BitVec.getLsbD_ushiftRight, Nat.add_comm, Bool.true_and]

/-- The register is linear. -/
theorem shift_xor (p c d : BitVec w) : shift p (c ^^^ d) = shift p c ^^^ shift p d := by
  apply BitVec.eq_of_getLsbD_eq
  intro i _
  rw [BitVec.getLsbD_xor, getLsbD_shift, getLsbD_shift, getLsbD_shift, BitVec.getLsbD_xor,
    BitVec.getLsbD_xor]
  cases c.getLsbD (i + 1) <;> cases c.getLsbD 0 <;> cases d.getLsbD (i + 1) <;>
    cases d.getLsbD 0 <;> cases p.getLsbD i <;> rfl

theorem shift_zero (p : BitVec w) : shift p (0#w) = 0#w := by
  apply BitVec.eq_of_getLsbD_eq
  intro i _
  rw [getLsbD_shift, BitVec.getLsbD_zero, BitVec.getLsbD_zero, BitVec.getLsbD_zero]
  rfl

/-- A word without its lowest bit only moves down. -/
theorem shift_double (p : BitVec w) (h : Short (w - 1) d) : shift p (d <<< 1) = d := by
  apply BitVec.eq_of_getLsbD_eq
  intro i hi
  have hlow : (d <<< 1).getLsbD 0 = false := by
    rw [BitVec.getLsbD_shiftLeft]
    simp
  rw [getLsbD_shift, hlow, Bool.false_and, Bool.xor_false, BitVec.getLsbD_shiftLeft]
  by_cases hlt : i + 1 < w
  · simp [hlt]
  · rw [h i (by omega)]
    simp [hlt]

theorem Short.shift (hp : Feedback n p) (hc : Short n c) : Short n (shift p c) := by
  intro i hi
  rw [getLsbD_shift, hc (i + 1) (Nat.le_succ_of_le hi), hp.short i hi, Bool.and_false]
  rfl

/-- The register does not come to zero by itself. -/
theorem eq_zero_of_shift (hp : Feedback n p) (hc : Short n c) (h : shift p c = 0#w) :
    c = 0#w := by
  have hbit : ∀ i, (c.getLsbD (i + 1) ^^ (c.getLsbD 0 && p.getLsbD i)) = false := by
    intro i
    rw [← getLsbD_shift, h, BitVec.getLsbD_zero]
  -- the last bit of the register is the one that was fed back
  have hlow : c.getLsbD 0 = false := by
    have hlast := hbit (n - 1)
    rw [Nat.sub_add_cancel hp.pos, hc n (Nat.le_refl n), hp.last, Bool.false_xor,
      Bool.and_true] at hlast
    exact hlast
  apply BitVec.eq_of_getLsbD_eq
  intro i _
  rw [BitVec.getLsbD_zero]
  cases i with
  | zero => exact hlow
  | succ i =>
    have hi := hbit i
    rw [hlow, Bool.false_and, Bool.xor_false] at hi
    exact hi

theorem register_append (p c : BitVec w) (bs bs' : List Bool) :
    register p c (bs ++ bs') = register p (register p c bs) bs' := by
  induction bs generalizing c with
  | nil => rfl
  | cons b bs ih => exact ih _

theorem Short.register (hp : Feedback n p) (hc : Short n c) (bs : List Bool) :
    Short n (register p c bs) := by
  induction bs generalizing c with
  | nil => exact hc
  | cons b bs ih => exact ih ((hc.xor ((bit_short b).mono hp.pos)).shift hp)

@[simp] theorem xor_bit_false (c : BitVec w) : c ^^^ bit false = c := BitVec.xor_zero

theorem register_zeros_succ (p c : BitVec w) (k : Nat) :
    register p c (List.replicate (k + 1) false) =
      register p (shift p c) (List.replicate k false) := by
  rw [List.replicate_succ, register, xor_bit_false]

/-- Differences of the input are differences of what comes out. -/
theorem register_xor (p : BitVec w) {as bs : List Bool} (hlen : as.length = bs.length)
    (c d : BitVec w) :
    register p c as ^^^ register p d bs =
      register p (c ^^^ d) (List.zipWith xor as bs) := by
  induction as generalizing bs c d with
  | nil =>
    obtain rfl := List.length_eq_zero_iff.mp hlen.symm
    rfl
  | cons a as ih =>
    cases bs with
    | nil => cases hlen
    | cons b bs =>
      have hbit : (bit (a ^^ b) : BitVec w) = bit a ^^^ bit b := by
        cases a <;> cases b <;> simp [bit]
      have hstep : shift p (c ^^^ bit a) ^^^ shift p (d ^^^ bit b) =
          shift p (c ^^^ d ^^^ bit (a ^^ b)) := by
        rw [← shift_xor, hbit]
        congr 1
        ac_rfl
      rw [List.zipWith_cons_cons, register, register, register, ih (Nat.succ.inj hlen), hstep]

/-- Without input the register takes differences through. -/
theorem register_zeros_xor (p : BitVec w) (k : Nat) (c d : BitVec w) :
    register p (c ^^^ d) (List.replicate k false) =
      register p c (List.replicate k false) ^^^ register p d (List.replicate k false) := by
  induction k generalizing c d with
  | zero => rfl
  | succ k ih =>
    rw [register_zeros_succ, register_zeros_succ, register_zeros_succ, shift_xor, ih]

/-- What has no bits below `k` only moves down in `k` steps. -/
theorem register_zeros_shiftLeft (p : BitVec w) (k : Nat) (h : Short (w - k) d) :
    register p (d <<< k) (List.replicate k false) = d := by
  induction k with
  | zero => exact BitVec.shiftLeft_zero d
  | succ k ih =>
    have hfits : Short (w - 1) (d <<< k) := by
      intro i hi
      rw [BitVec.getLsbD_shiftLeft]
      by_cases hk : i < k
      · simp [hk]
      · rw [h (i - k) (by omega), Bool.and_false]
    rw [register_zeros_succ, BitVec.shiftLeft_add, shift_double p hfits]
    exact ih (h.mono (by omega))

theorem register_zeros (p : BitVec w) (k : Nat) :
    register p (0#w) (List.replicate k false) = 0#w := by
  induction k with
  | zero => rfl
  | succ k ih => rw [register_zeros_succ, shift_zero, ih]

theorem eq_zero_of_register_zeros (hp : Feedback n p) (hc : Short n c) (k : Nat)
    (h : register p c (List.replicate k false) = 0#w) : c = 0#w := by
  induction k generalizing c with
  | zero => exact h
  | succ k ih =>
    rw [register_zeros_succ] at h
    exact eq_zero_of_shift hp hc (ih (hc.shift hp) h)

theorem word_short (bs : List Bool) : Short bs.length (word bs : BitVec w) := by
  induction bs with
  | nil => exact short_zero 0
  | cons b bs ih =>
    refine Short.xor ((bit_short b).mono (Nat.succ_le_succ (Nat.zero_le _))) fun i hi => ?_
    rw [BitVec.getLsbD_shiftLeft, ih (i - 1) (Nat.le_sub_of_add_le hi), Bool.and_false]

/-- Bits that fit in the word may as well be there from the start. -/
theorem register_eq_word (p c : BitVec w) (bs : List Bool) (hlen : bs.length ≤ w) :
    register p c bs =
      register p (c ^^^ word bs) (List.replicate bs.length false) := by
  induction bs generalizing c with
  | nil =>
    show c = c ^^^ 0#w
    rw [BitVec.xor_zero]
  | cons b bs ih =>
    have hfits : Short (w - 1) (word bs : BitVec w) :=
      (word_short bs).mono (Nat.le_sub_of_add_le hlen)
    have hfirst : shift p (c ^^^ bit b) ^^^ word bs = shift p (c ^^^ word (b :: bs)) := by
      rw [word, ← BitVec.xor_assoc, shift_xor p (c ^^^ bit b), shift_double p hfits]
    rw [register, ih _ (Nat.le_of_succ_le hlen), hfirst, List.length_cons, register_zeros_succ]

/-- A difference that begins with a set bit and fits in the register comes out. -/
theorem register_burst_ne (hp : Feedback n p) (bs : List Bool) (hlen : bs.length < n)
    (k m : Nat) :
    register p (0#w)
      (List.replicate k false ++ (true :: bs) ++ List.replicate m false) ≠ 0#w := by
  intro h
  have hlen' : (true :: bs).length ≤ n := hlen
  have hword : Short n (0#w ^^^ word (true :: bs)) :=
    (short_zero n).xor ((word_short _).mono hlen')
  rw [register_append, register_append, register_zeros,
    register_eq_word p _ _ (Nat.le_trans hlen' hp.le)] at h
  have hinner := eq_zero_of_register_zeros hp (hword.register hp _) m h
  have hzero := eq_zero_of_register_zeros hp hword _ hinner
  have hbit : (0#w ^^^ word (true :: bs) : BitVec w).getLsbD 0 = true := by
    have hw : 0 < w := Nat.lt_of_lt_of_le hp.pos hp.le
    rw [word, BitVec.getLsbD_xor, BitVec.getLsbD_xor, BitVec.getLsbD_shiftLeft]
    simp [bit, hw]
  rw [hzero, BitVec.getLsbD_zero] at hbit
  cases hbit

theorem zipWith_xor_self (bs : List Bool) :
    List.zipWith xor bs bs = List.replicate bs.length false := by
  induction bs with
  | nil => rfl
  | cons b bs ih =>
    rw [List.zipWith_cons_cons, ih, Bool.xor_self, List.length_cons, List.replicate_succ]

/-- Where two inputs differ first. -/
theorem first_difference {u v : List Bool} (hlen : u.length = v.length) (hne : u ≠ v) :
    ∃ k rest, List.zipWith xor u v = List.replicate k false ++ (true :: rest) ∧
      rest.length < u.length := by
  induction u generalizing v with
  | nil => exact absurd (List.length_eq_zero_iff.mp hlen.symm).symm hne
  | cons a u ih =>
    cases v with
    | nil => cases hlen
    | cons b v =>
      by_cases hab : a = b
      · subst hab
        have hrest : u ≠ v := fun heq => hne (congrArg (List.cons a) heq)
        obtain ⟨k, rest, hzip, hshort⟩ := ih (Nat.succ.inj hlen) hrest
        refine ⟨k + 1, rest, ?_, Nat.lt_succ_of_lt hshort⟩
        rw [List.zipWith_cons_cons, hzip, Bool.xor_self, List.replicate_succ, List.cons_append]
      · refine ⟨0, List.zipWith xor u v, ?_, ?_⟩
        · have hxor : (a ^^ b) = true := by
            cases a <;> cases b <;> first | rfl | exact absurd rfl hab
          rw [List.zipWith_cons_cons, hxor]
          rfl
        · rw [List.length_zipWith, List.length_cons]
          omega

/-- Inputs that differ within as many bits as the register has come out differently. -/
theorem register_ne (hp : Feedback n p) (c : BitVec w) (before after : List Bool)
    {u v : List Bool} (hlen : u.length = v.length) (hn : u.length ≤ n) (hne : u ≠ v) :
    register p c (before ++ u ++ after) ≠
      register p c (before ++ v ++ after) := by
  intro h
  obtain ⟨k, rest, hzip, hshort⟩ := first_difference hlen hne
  have hfront : (before ++ u).length = (before ++ v).length := by
    rw [List.length_append, List.length_append, hlen]
  have hwhole : (before ++ u ++ after).length = (before ++ v ++ after).length := by
    rw [List.length_append, hfront, ← List.length_append]
  have hdiff := register_xor p hwhole c c
  rw [h, BitVec.xor_self, BitVec.xor_self, List.zipWith_append hfront, List.zipWith_append rfl,
    hzip, zipWith_xor_self, zipWith_xor_self, ← List.append_assoc,
    ← List.replicate_add] at hdiff
  exact register_burst_ne hp rest (Nat.lt_of_lt_of_le hshort hn) _ _ hdiff.symm

end SmeltConsensus.Foundation.ShiftRegister
