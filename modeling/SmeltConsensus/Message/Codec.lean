import Mathlib.Data.List.Induction
import SmeltConsensus.Foundation.Views
import SmeltConsensus.Message.Header

/-!
The header accessors on bytes. A word of a message is read and written in place
through arrays of 16 and of 32 bits over its eight bytes.
-/

set_option autoImplicit false
set_option relaxedAutoImplicit false

namespace SmeltConsensus.Message.Codec

open SmeltConsensus.Foundation.Views

/-- The `uintptr_t` at `msg`. -/
def word (mem : Memory) (msg : Nat) : Nat := load mem 8 msg

def getTag (mem : Memory) (msg : Nat) : Nat := view mem 2 msg 3

def setTag (mem : Memory) (msg tag : Nat) : Memory := setView mem 2 msg 3 tag

def getClientId (mem : Memory) (msg : Nat) : Nat := view mem 2 msg 2

def setClientId (mem : Memory) (msg cid : Nat) : Memory := setView mem 2 msg 2 cid

def getRequestId (mem : Memory) (msg : Nat) : Nat := view mem 4 msg 0

def setRequestId (mem : Memory) (msg clientId : Nat) : Memory := setView mem 4 msg 0 clientId

/-- The fields of a header word. -/
inductive Field
  | tag
  | clientId
  | requestId
  deriving DecidableEq

namespace Field

/-- The bytes of the C type, `uint16_t` or `uint32_t`. -/
def size : Field → Nat
  | tag => 2
  | clientId => 2
  | requestId => 4

def index : Field → Nat
  | tag => 3
  | clientId => 2
  | requestId => 0

def get : Field → Memory → Nat → Nat
  | tag => getTag
  | clientId => getClientId
  | requestId => getRequestId

def set : Field → Memory → Nat → Nat → Memory
  | tag => setTag
  | clientId => setClientId
  | requestId => setRequestId

/-- The conversion of an argument to the C type. -/
def convert (f : Field) (v : Nat) : Nat := v % 2 ^ (8 * f.size)

variable {f g : Field} {mem mem' : Memory} {msg msg' : Nat}

theorem get_eq (f : Field) (mem : Memory) (msg : Nat) :
    f.get mem msg = view mem f.size msg f.index := by
  cases f <;> rfl

theorem set_eq (f : Field) (mem : Memory) (msg v : Nat) :
    f.set mem msg v = setView mem f.size msg f.index v := by
  cases f <;> rfl

/-- Two fields share no byte. -/
theorem disjoint (h : f ≠ g) :
    f.size * f.index + f.size ≤ g.size * g.index ∨
      g.size * g.index + g.size ≤ f.size * f.index := by
  cases f <;> cases g <;> first | exact absurd rfl h | decide

@[simp] theorem get_set_self (f : Field) (mem : Memory) (msg v : Nat) :
    f.get (f.set mem msg v) msg = f.convert v := by
  rw [get_eq, set_eq, view_setView_self, convert]

theorem get_set_of_ne (h : f ≠ g) (mem : Memory) (msg v : Nat) :
    g.get (f.set mem msg v) msg = g.get mem msg := by
  rw [get_eq, get_eq, set_eq]
  exact view_setView_of_disjoint mem v (disjoint h.symm)

theorem set_comm (h : f ≠ g) (mem : Memory) (msg v v' : Nat) :
    f.set (g.set mem msg v') msg v = g.set (f.set mem msg v) msg v' := by
  rw [set_eq, set_eq, set_eq, set_eq]
  exact setView_comm mem v v' (disjoint h)

theorem get_lt (f : Field) (mem : Memory) (msg : Nat) : f.get mem msg < 2 ^ (8 * f.size) := by
  rw [get_eq]
  exact load_lt _ _ _

end Field

variable {mem mem' : Memory} {msg msg' : Nat}

/-- The fields cover the word. -/
theorem word_eq (mem : Memory) (msg : Nat) :
    word mem msg = getRequestId mem msg + 2 ^ 32 * (getClientId mem msg + 2 ^ 16 * getTag mem msg) := by
  have hlow := load_add mem 4 4 msg
  have hhigh := load_add mem 2 2 (msg + 4)
  rw [hhigh] at hlow
  exact hlow

/-- A word is determined by its three fields. -/
theorem word_eq_of_fields (h : ∀ f : Field, f.get mem msg = f.get mem' msg') :
    word mem msg = word mem' msg' := by
  have htag : getTag mem msg = getTag mem' msg' := h .tag
  have hcid : getClientId mem msg = getClientId mem' msg' := h .clientId
  have hrid : getRequestId mem msg = getRequestId mem' msg' := h .requestId
  rw [word_eq, word_eq, htag, hcid, hrid]

theorem word_lt (mem : Memory) (msg : Nat) : word mem msg < 2 ^ 64 := load_lt _ _ _

section Header

/-- The accessor that reads the field of a word. -/
def Field.ofWord : Field → Nat → Nat
  | tag => Header.getTag
  | clientId => Header.getClientId
  | requestId => Header.getRequestId

/-- The accessor that writes the field of a word. -/
def Field.inWord : Field → Nat → Nat → Nat
  | tag => Header.setTag
  | clientId => Header.setClientId
  | requestId => Header.setRequestId

theorem Field.ofWord_inWord_self (f : Field) (w v : Nat) : f.ofWord (f.inWord w v) = f.convert v := by
  cases f with
  | tag => exact Header.getTag_setTag w v
  | clientId => exact Header.getClientId_setClientId w v
  | requestId => exact Header.getRequestId_setRequestId w v

theorem Field.ofWord_inWord_of_ne {f g : Field} (h : f ≠ g) (w v : Nat) :
    g.ofWord (f.inWord w v) = g.ofWord w := by
  cases f <;> cases g <;> first | exact absurd rfl h | simp [ofWord, inWord]

theorem Field.inWord_lt (f : Field) {w : Nat} (h : w < 2 ^ 64) (v : Nat) :
    f.inWord w v < 2 ^ 64 := by
  cases f <;> simp only [inWord, Header.setTag, Header.setClientId, Header.setRequestId] <;> omega

theorem eq_of_ofWord {w w' : Nat} (h : ∀ f : Field, f.ofWord w = f.ofWord w') (hw : w < 2 ^ 64)
    (hw' : w' < 2 ^ 64) : w = w' := by
  have htag : w / 2 ^ 48 % 2 ^ 16 = w' / 2 ^ 48 % 2 ^ 16 := h .tag
  have hcid : w / 2 ^ 32 % 2 ^ 16 = w' / 2 ^ 32 % 2 ^ 16 := h .clientId
  have hrid : w % 2 ^ 32 = w' % 2 ^ 32 := h .requestId
  omega

/-- Reading a field of the word is reading it from the bytes. -/
theorem ofWord_word (f : Field) (mem : Memory) (msg : Nat) :
    f.ofWord (word mem msg) = f.get mem msg := by
  have htag : getTag mem msg < 2 ^ 16 := Field.get_lt .tag mem msg
  have hcid : getClientId mem msg < 2 ^ 16 := Field.get_lt .clientId mem msg
  have hrid : getRequestId mem msg < 2 ^ 32 := Field.get_lt .requestId mem msg
  rw [word_eq]
  cases f <;> simp only [Field.ofWord, Field.get, Header.getTag, Header.getClientId,
    Header.getRequestId] <;> omega

/-- Writing a field of the word is writing it to the bytes. -/
theorem word_set (f : Field) (mem : Memory) (msg v : Nat) :
    word (f.set mem msg v) msg = f.inWord (word mem msg) v := by
  apply eq_of_ofWord _ (word_lt _ _) (f.inWord_lt (word_lt _ _) v)
  intro g
  rw [ofWord_word]
  by_cases h : f = g
  · rw [← h, Field.get_set_self, Field.ofWord_inWord_self]
  · rw [Field.get_set_of_ne h, Field.ofWord_inWord_of_ne h, ofWord_word]

end Header

/-- One call of a setter. -/
structure SetCall where
  field : Field
  value : Nat

def setAll (mem : Memory) (msg : Nat) (calls : List SetCall) : Memory :=
  calls.foldl (fun mem c => c.field.set mem msg c.value) mem

/-- The value that the last call for `f` sets, if there is one. -/
def lastSet (f : Field) (calls : List SetCall) : Option Nat :=
  ((calls.filter (·.field = f)).getLast?).map fun c => f.convert c.value

@[simp] theorem setAll_append_single (mem : Memory) (msg : Nat) (calls : List SetCall)
    (c : SetCall) :
    setAll mem msg (calls ++ [c]) = c.field.set (setAll mem msg calls) msg c.value := by
  rw [setAll, List.foldl_append]
  rfl

theorem lastSet_append_single (f : Field) (calls : List SetCall) (c : SetCall) :
    lastSet f (calls ++ [c]) = if c.field = f then some (f.convert c.value) else lastSet f calls := by
  rw [lastSet, List.filter_append]
  by_cases h : c.field = f
  · simp [h]
  · simp [h, lastSet]

/-- Whatever the calls, a field has the last value that was set, or its old one. -/
theorem get_setAll (f : Field) (mem : Memory) (msg : Nat) (calls : List SetCall) :
    f.get (setAll mem msg calls) msg = (lastSet f calls).getD (f.get mem msg) := by
  induction calls using List.reverseRecOn with
  | nil => rfl
  | append_singleton calls c ih =>
    rw [setAll_append_single, lastSet_append_single]
    by_cases h : c.field = f
    · rw [if_pos h, h, Field.get_set_self, Option.getD_some]
    · rw [if_neg h, Field.get_set_of_ne h, ih]

/-- The laws of the accessors at one word, on its bytes and as functions of words. -/
structure IsCodec (mem : Memory) (msg : Nat) : Prop where
  last_set : ∀ (f : Field) (calls : List SetCall),
    f.get (setAll mem msg calls) msg = (lastSet f calls).getD (f.get mem msg)
  others : ∀ (f g : Field) (v : Nat), f ≠ g → g.get (f.set mem msg v) msg = g.get mem msg
  commute : ∀ (f g : Field) (v v' : Nat), f ≠ g →
    f.set (g.set mem msg v') msg v = g.set (f.set mem msg v) msg v'
  determined : ∀ (mem' : Memory) (msg' : Nat),
    (∀ f : Field, f.get mem msg = f.get mem' msg') ↔ word mem msg = word mem' msg'
  read_word : ∀ f : Field, f.ofWord (word mem msg) = f.get mem msg
  write_word : ∀ (f : Field) (v : Nat),
    word (f.set mem msg v) msg = f.inWord (word mem msg) v

theorem isCodec (mem : Memory) (msg : Nat) : IsCodec mem msg where
  last_set f calls := get_setAll f mem msg calls
  others _ _ v h := Field.get_set_of_ne h mem msg v
  commute _ _ v v' h := Field.set_comm h mem msg v v'
  determined mem' msg' := by
    refine ⟨word_eq_of_fields, fun h f => ?_⟩
    rw [← ofWord_word, h, ofWord_word]
  read_word f := ofWord_word f mem msg
  write_word f v := word_set f mem msg v

end SmeltConsensus.Message.Codec
