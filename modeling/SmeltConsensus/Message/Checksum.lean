import Mathlib.Algebra.Group.Nat.Defs
import SmeltConsensus.Foundation.ShiftRegister

/-!
The checksum over the histories of executed requests, with which the verifying build compares
its replicas. A table takes it through eight bits at once.
-/

set_option autoImplicit false
set_option relaxedAutoImplicit false

namespace SmeltConsensus.Message.Checksum

open SmeltConsensus.Foundation.ShiftRegister

/-- `crc_t`, an `uint_fast16_t`. -/
abbrev CrcT := BitVec 64

/-- `crc_table` -/
def crcTable : List CrcT := List.map (BitVec.ofNat 64)
  [0x0000, 0xc0c1, 0xc181, 0x0140, 0xc301, 0x03c0, 0x0280, 0xc241,
   0xc601, 0x06c0, 0x0780, 0xc741, 0x0500, 0xc5c1, 0xc481, 0x0440,
   0xcc01, 0x0cc0, 0x0d80, 0xcd41, 0x0f00, 0xcfc1, 0xce81, 0x0e40,
   0x0a00, 0xcac1, 0xcb81, 0x0b40, 0xc901, 0x09c0, 0x0880, 0xc841,
   0xd801, 0x18c0, 0x1980, 0xd941, 0x1b00, 0xdbc1, 0xda81, 0x1a40,
   0x1e00, 0xdec1, 0xdf81, 0x1f40, 0xdd01, 0x1dc0, 0x1c80, 0xdc41,
   0x1400, 0xd4c1, 0xd581, 0x1540, 0xd701, 0x17c0, 0x1680, 0xd641,
   0xd201, 0x12c0, 0x1380, 0xd341, 0x1100, 0xd1c1, 0xd081, 0x1040,
   0xf001, 0x30c0, 0x3180, 0xf141, 0x3300, 0xf3c1, 0xf281, 0x3240,
   0x3600, 0xf6c1, 0xf781, 0x3740, 0xf501, 0x35c0, 0x3480, 0xf441,
   0x3c00, 0xfcc1, 0xfd81, 0x3d40, 0xff01, 0x3fc0, 0x3e80, 0xfe41,
   0xfa01, 0x3ac0, 0x3b80, 0xfb41, 0x3900, 0xf9c1, 0xf881, 0x3840,
   0x2800, 0xe8c1, 0xe981, 0x2940, 0xeb01, 0x2bc0, 0x2a80, 0xea41,
   0xee01, 0x2ec0, 0x2f80, 0xef41, 0x2d00, 0xedc1, 0xec81, 0x2c40,
   0xe401, 0x24c0, 0x2580, 0xe541, 0x2700, 0xe7c1, 0xe681, 0x2640,
   0x2200, 0xe2c1, 0xe381, 0x2340, 0xe101, 0x21c0, 0x2080, 0xe041,
   0xa001, 0x60c0, 0x6180, 0xa141, 0x6300, 0xa3c1, 0xa281, 0x6240,
   0x6600, 0xa6c1, 0xa781, 0x6740, 0xa501, 0x65c0, 0x6480, 0xa441,
   0x6c00, 0xacc1, 0xad81, 0x6d40, 0xaf01, 0x6fc0, 0x6e80, 0xae41,
   0xaa01, 0x6ac0, 0x6b80, 0xab41, 0x6900, 0xa9c1, 0xa881, 0x6840,
   0x7800, 0xb8c1, 0xb981, 0x7940, 0xbb01, 0x7bc0, 0x7a80, 0xba41,
   0xbe01, 0x7ec0, 0x7f80, 0xbf41, 0x7d00, 0xbdc1, 0xbc81, 0x7c40,
   0xb401, 0x74c0, 0x7580, 0xb541, 0x7700, 0xb7c1, 0xb681, 0x7640,
   0x7200, 0xb2c1, 0xb381, 0x7340, 0xb101, 0x71c0, 0x7080, 0xb041,
   0x5000, 0x90c1, 0x9181, 0x5140, 0x9301, 0x53c0, 0x5280, 0x9241,
   0x9601, 0x56c0, 0x5780, 0x9741, 0x5500, 0x95c1, 0x9481, 0x5440,
   0x9c01, 0x5cc0, 0x5d80, 0x9d41, 0x5f00, 0x9fc1, 0x9e81, 0x5e40,
   0x5a00, 0x9ac1, 0x9b81, 0x5b40, 0x9901, 0x59c0, 0x5880, 0x9841,
   0x8801, 0x48c0, 0x4980, 0x8941, 0x4b00, 0x8bc1, 0x8a81, 0x4a40,
   0x4e00, 0x8ec1, 0x8f81, 0x4f40, 0x8d01, 0x4dc0, 0x4c80, 0x8c41,
   0x4400, 0x84c1, 0x8581, 0x4540, 0x8701, 0x47c0, 0x4680, 0x8641,
   0x8201, 0x42c0, 0x4380, 0x8341, 0x4100, 0x81c1, 0x8081, 0x4040]

/-- One round of the loop in `crc_reflect`, on `data` and `ret`. -/
def reflectBit (x : CrcT × CrcT) : CrcT × CrcT :=
  let data := x.1 >>> 1
  (data, (x.2 <<< 1) ||| (data &&& 1#64))

def crcReflect (data : CrcT) (dataLen : Nat) : CrcT :=
  ((List.range (dataLen - 1)).foldl (fun x _ => reflectBit x) (data, data &&& 1#64)).2

def crcInit : CrcT := 0#64

/-- One round of the loop in `crc_update`. -/
def crcByte (crc : CrcT) (data : BitVec 8) : CrcT :=
  let tblIdx := (crc ^^^ data.setWidth 64) &&& 0xff#64
  (crcTable.getD tblIdx.toNat 0#64 ^^^ (crc >>> 8)) &&& 0xffff#64

def crcUpdate (crc : CrcT) (data : List (BitVec 8)) : CrcT := data.foldl crcByte crc &&& 0xffff#64

def crcFinalize (crc : CrcT) : CrcT := crc ^^^ 0#64

/-- The bytes of a word of `n` bytes in memory. -/
def bytesOf (n : Nat) (x : BitVec 64) : List (BitVec 8) :=
  (List.range n).map fun k => (x >>> (8 * k)).setWidth 8

/-- `verify`, from the histories of request ids and client ids. -/
def verify (ridHistory : List (BitVec 64)) (cidHistory : List (BitVec 16)) : CrcT :=
  let crc := crcInit
  let crc := crcUpdate crc (ridHistory.flatMap (bytesOf 8))
  let crc := crcUpdate crc (cidHistory.flatMap fun cid => bytesOf 2 (cid.setWidth 64))
  crcFinalize crc

/-- The bits of a byte in the order in which they are transmitted. -/
def byteBits (b : BitVec 8) : List Bool := (List.range 8).map b.getLsbD

def bits (data : List (BitVec 8)) : List Bool := data.flatMap byteBits

/-- The polynomial of the comment, reflected. -/
def poly : CrcT := crcReflect 0x8005#64 16

theorem short_of_lt {n : Nat} {c : CrcT} (h : c.toNat < 2 ^ n) : Short n c := by
  intro i hi
  rw [BitVec.getLsbD]
  exact Nat.testBit_lt_two_pow (Nat.lt_of_lt_of_le h (Nat.pow_le_pow_right (by decide) hi))

theorem feedback_poly : Feedback 16 poly where
  short := short_of_lt (by decide)
  last := by decide
  pos := by decide
  le := by decide

/-- Every entry of the table is what eight steps of the register make of its index. -/
theorem crcTable_eq : ∀ i : Fin 256,
    crcTable.getD i 0#64 = register poly (BitVec.ofNat 64 i) (List.replicate 8 false) := by
  decide +kernel

theorem word_byteBits : ∀ b : Fin 256,
    (word (byteBits (BitVec.ofFin (w := 8) b)) : CrcT) =
      (BitVec.ofFin (w := 8) b).setWidth 64 := by
  decide +kernel

theorem length_byteBits (b : BitVec 8) : (byteBits b).length = 8 := by
  rw [byteBits, List.length_map, List.length_range]

/-- The lowest bits as a mask. -/
theorem getLsbD_mask {n : Nat} (hn : n < 64) (i : Nat) :
    (BitVec.ofNat 64 (2 ^ n - 1)).getLsbD i = decide (i < n) := by
  rw [BitVec.getLsbD_ofNat, Nat.testBit_two_pow_sub_one]
  by_cases hi : i < n
  · simp [hi, Nat.lt_trans hi hn]
  · simp [hi]

theorem and_mask {n : Nat} (hn : n < 64) {c : CrcT} (h : Short n c) :
    c &&& BitVec.ofNat 64 (2 ^ n - 1) = c := by
  apply BitVec.eq_of_getLsbD_eq
  intro i _
  rw [BitVec.getLsbD_and, getLsbD_mask hn]
  by_cases hi : i < n
  · simp [hi]
  · simp [h i (Nat.le_of_not_lt hi)]

/-- A word is its lowest byte and the rest. -/
theorem split_byte (c : CrcT) : c = (c &&& 0xff#64) ^^^ ((c >>> 8) <<< 8) := by
  apply BitVec.eq_of_getLsbD_eq
  intro i hi
  have hmask : (0xff#64).getLsbD i = decide (i < 8) := getLsbD_mask (n := 8) (by decide) i
  rw [BitVec.getLsbD_xor, BitVec.getLsbD_and, hmask, BitVec.getLsbD_shiftLeft,
    BitVec.getLsbD_ushiftRight]
  by_cases hlow : i < 8
  · simp [hlow]
  · simp [hlow, hi, Nat.add_sub_cancel' (Nat.le_of_not_lt hlow)]

theorem Short.shiftRight {n : Nat} {c : CrcT} (h : Short n c) (k : Nat) :
    Short (n - k) (c >>> k) := by
  intro i hi
  rw [BitVec.getLsbD_ushiftRight]
  exact h (k + i) (by omega)

theorem short_byte (b : BitVec 8) : Short 8 (b.setWidth 64) := by
  apply short_of_lt
  rw [BitVec.toNat_setWidth]
  exact Nat.lt_of_le_of_lt (Nat.mod_le _ _) b.isLt

/-- The table takes the register through the bits of a byte. -/
theorem crcByte_eq {crc : CrcT} (h : Short 16 crc) (b : BitVec 8) :
    crcByte crc b = register poly crc (byteBits b) := by
  have hword : (word (byteBits b) : CrcT) = b.setWidth 64 := word_byteBits b.toFin
  have hhigh : (crc ^^^ b.setWidth 64) >>> 8 = crc >>> 8 := by
    rw [BitVec.ushiftRight_xor_distrib, (Short.shiftRight (short_byte b) 8).eq_zero,
      BitVec.xor_zero]
  have hrest : Short 8 (crc >>> 8) := Short.shiftRight h 8
  have hindex : ((crc ^^^ b.setWidth 64) &&& 0xff#64).toNat < 256 := by
    rw [BitVec.toNat_and]
    exact Nat.lt_succ_of_le Nat.and_le_right
  have hentry : crcTable.getD ((crc ^^^ b.setWidth 64) &&& 0xff#64).toNat 0#64 =
      register poly ((crc ^^^ b.setWidth 64) &&& 0xff#64) (List.replicate 8 false) := by
    have heq := crcTable_eq ⟨_, hindex⟩
    rw [heq, BitVec.ofNat_toNat, BitVec.setWidth_eq]
  have hfull : register poly crc (byteBits b) =
      register poly ((crc ^^^ b.setWidth 64) &&& 0xff#64) (List.replicate 8 false) ^^^
        (crc >>> 8) := by
    rw [register_eq_word poly crc _ (by rw [length_byteBits]; decide), length_byteBits, hword]
    conv => lhs; rw [split_byte (crc ^^^ b.setWidth 64)]
    rw [register_zeros_xor, hhigh, register_zeros_shiftLeft poly 8 (hrest.mono (by decide))]
  have hshort : Short 16 (register poly crc (byteBits b)) := h.register feedback_poly _
  rw [hfull] at hshort ⊢
  show (crcTable.getD _ 0#64 ^^^ _) &&& BitVec.ofNat 64 (2 ^ 16 - 1) = _
  rw [hentry, and_mask (by decide) hshort]

theorem foldl_crcByte {crc : CrcT} (h : Short 16 crc) (data : List (BitVec 8)) :
    data.foldl crcByte crc = register poly crc (bits data) := by
  induction data generalizing crc with
  | nil => rfl
  | cons b data ih =>
    have hshort : Short 16 (register poly crc (byteBits b)) := h.register feedback_poly _
    show _ = register poly crc (byteBits b ++ bits data)
    rw [List.foldl_cons, crcByte_eq h, ih hshort, register_append]

/-- A call of `crc_update` takes the register through the bits of its buffer. -/
theorem crcUpdate_eq {crc : CrcT} (h : crc.toNat < 2 ^ 16) (data : List (BitVec 8)) :
    crcUpdate crc data = register poly crc (bits data) := by
  have hshort : Short 16 crc := short_of_lt h
  rw [crcUpdate, foldl_crcByte hshort]
  exact and_mask (by decide) (hshort.register feedback_poly _)

theorem crcUpdate_lt (crc : CrcT) (data : List (BitVec 8)) :
    (crcUpdate crc data).toNat < 2 ^ 16 := by
  rw [crcUpdate, BitVec.toNat_and]
  exact Nat.lt_succ_of_le Nat.and_le_right

theorem bits_append (data data' : List (BitVec 8)) :
    bits (data ++ data') = bits data ++ bits data' :=
  List.flatMap_append

/-- The table-driven checksum is the remainder that a register with the polynomial of the comment
computes bit by bit, however the data is divided among the calls. -/
theorem checksum_streamed {crc : CrcT} (h : crc.toNat < 2 ^ 16)
    (buffers : List (List (BitVec 8))) :
    buffers.foldl crcUpdate crc = register poly crc (bits buffers.flatten) := by
  induction buffers generalizing crc with
  | nil => rfl
  | cons data buffers ih =>
    rw [List.foldl_cons, ih (crcUpdate_lt crc data), crcUpdate_eq h, List.flatten_cons,
      bits_append, register_append]

/-- The digits from 1 to 9, for which the algorithm has a published checksum. -/
private def digits : List (List (BitVec 8)) :=
  [[0x31#8, 0x32#8, 0x33#8, 0x34#8], [0x35#8, 0x36#8, 0x37#8, 0x38#8, 0x39#8]]

theorem checksum_streamed_digits : register poly crcInit (bits digits.flatten) = 0xbb3d#64 :=
  (checksum_streamed (by decide) digits).symm.trans (by decide +kernel)

/-- Buffers that differ within 16 successive bits have different checksums. -/
theorem crcUpdate_ne {crc : CrcT} (h : crc.toNat < 2 ^ 16) {data data' : List (BitVec 8)}
    (before after : List Bool) {u v : List Bool} (hu : bits data = before ++ u ++ after)
    (hv : bits data' = before ++ v ++ after) (hlen : u.length = v.length) (h16 : u.length ≤ 16)
    (hne : u ≠ v) : crcUpdate crc data ≠ crcUpdate crc data' := by
  rw [crcUpdate_eq h, crcUpdate_eq h, hu, hv]
  exact register_ne feedback_poly crc before after hlen h16 hne

theorem byteBits_injective {a b : BitVec 8} (h : byteBits a = byteBits b) : a = b := by
  have ha : (word (byteBits a) : CrcT) = a.setWidth 64 := word_byteBits a.toFin
  have hb : (word (byteBits b) : CrcT) = b.setWidth 64 := word_byteBits b.toFin
  rw [h, hb] at ha
  apply BitVec.eq_of_toNat_eq
  have hnat := congrArg BitVec.toNat ha
  rw [BitVec.toNat_setWidth, BitVec.toNat_setWidth] at hnat
  have hlta := a.isLt
  have hltb := b.isLt
  omega

theorem bits_cid (cid : BitVec 16) : bits (bytesOf 2 (cid.setWidth 64)) =
    byteBits ((cid.setWidth 64 >>> 0).setWidth 8) ++
      byteBits ((cid.setWidth 64 >>> 8).setWidth 8) := rfl

theorem bits_cid_injective {a b : BitVec 16}
    (h : bits (bytesOf 2 (a.setWidth 64)) = bits (bytesOf 2 (b.setWidth 64))) : a = b := by
  rw [bits_cid, bits_cid] at h
  obtain ⟨hlow, hhigh⟩ := List.append_inj h (by rw [length_byteBits, length_byteBits])
  have hlow := congrArg BitVec.toNat (byteBits_injective hlow)
  have hhigh := congrArg BitVec.toNat (byteBits_injective hhigh)
  simp only [BitVec.toNat_setWidth, BitVec.toNat_ushiftRight,
    Nat.shiftRight_eq_div_pow] at hlow hhigh
  apply BitVec.eq_of_toNat_eq
  have hlta := a.isLt
  have hltb := b.isLt
  omega

/-- Replicas that have executed the same requests but one, which came from different clients, are
told apart. -/
theorem verify_ne (ridHistory : List (BitVec 64)) (before after : List (BitVec 16))
    {a b : BitVec 16} (hne : a ≠ b) :
    verify ridHistory (before ++ a :: after) ≠ verify ridHistory (before ++ b :: after) := by
  have hsplit : ∀ cid : BitVec 16,
      bits ((before ++ cid :: after).flatMap fun cid => bytesOf 2 (cid.setWidth 64)) =
        bits (before.flatMap fun cid => bytesOf 2 (cid.setWidth 64)) ++
          bits (bytesOf 2 (cid.setWidth 64)) ++
            bits (after.flatMap fun cid => bytesOf 2 (cid.setWidth 64)) := by
    intro cid
    rw [List.flatMap_append, List.flatMap_cons, bits_append, bits_append, List.append_assoc]
  have hlength : ∀ cid : BitVec 16, (bits (bytesOf 2 (cid.setWidth 64))).length = 16 := by
    intro cid
    rw [bits_cid, List.length_append, length_byteBits, length_byteBits]
  have hcrc := crcUpdate_ne (crcUpdate_lt crcInit (ridHistory.flatMap (bytesOf 8))) _ _
    (hsplit a) (hsplit b) ((hlength a).trans (hlength b).symm) (Nat.le_of_eq (hlength a))
    fun heq => hne (bits_cid_injective heq)
  intro heq
  simp only [verify, crcFinalize, BitVec.xor_zero] at heq
  exact hcrc heq

theorem verify_ne_second : verify [7#64, 8#64] [0#16, 1#16] ≠ verify [7#64, 8#64] [0#16, 2#16] :=
  verify_ne [7#64, 8#64] [0#16] [] (by decide)

end SmeltConsensus.Message.Checksum
