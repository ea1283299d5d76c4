import Mathlib.Data.Nat.Digits.Lemmas
import MemInfo.Common.Crc32c
import MemInfo.Lib.ReflectedCrc

/-! # The two builds of the checksum

`crc32c` is built with a table, or with the SSE4.2 instructions, which take eight bytes at a time
and then the rest. Both are the CRC of the bits of the message, and that is what the detection of
errors and the sums of chunked data rest on.
-/

namespace MemInfo

open Lib ReflectedCrc

def castagnoli : BitVec 32 := 0x82F63B78

def byteBits (b : Byte) : List Bool := (List.range 8).map b.toBitVec.getLsbD

/-- What `crc32c` is for: the CRC bit by bit, complemented at the start and at the end. -/
def crc32cBitwise (data : List Byte) (initialCrc : UInt32) : UInt32 :=
  ⟨~~~ feed castagnoli (~~~ initialCrc.toBitVec) (data.flatMap byteBits)⟩

/-- `_mm_crc32_u8`. -/
def mmCrc32U8 (crc : UInt32) (v : Byte) : UInt32 := ⟨feed castagnoli crc.toBitVec (byteBits v)⟩

def bytesOfU64 (v : UInt64) : List Byte :=
  (List.range 8).map fun i => UInt8.ofNat (v.toNat / 256 ^ i)

/-- `_mm_crc32_u64`. -/
def mmCrc32U64 (crc v : UInt64) : UInt64 :=
  ((bytesOfU64 v).foldl mmCrc32U8 crc.toUInt32).toUInt64

/-- The word that `__builtin_memcpy` copies from eight bytes. -/
def loadU64 (bytes : List Byte) : UInt64 := UInt64.ofNat (Nat.ofDigits 256 (bytes.map UInt8.toNat))

/-- `crc32c` where `__SSE4_2__` is defined. -/
def crc32cSse42 (data : List Byte) (initialCrc : UInt32 := 0) : UInt32 :=
  let numBlocks := data.length / 8
  let crc := (List.range numBlocks).foldl (fun crc i =>
    (mmCrc32U64 crc.toUInt64 (loadU64 ((data.drop (i * 8)).take 8))).toUInt32) (~~~ initialCrc)
  ~~~ (data.drop (numBlocks * 8)).foldl mmCrc32U8 crc

/-! The table. -/

theorem toBitVec_crcRound (crc : UInt32) :
    (crcRound crc).toBitVec = shift castagnoli crc.toBitVec := by
  have hlow : crc &&& 1 ≠ 0 ↔ crc.toBitVec.getLsbD 0 = true := by
    rw [ne_eq, ← UInt32.toBitVec_inj, UInt32.toBitVec_and]
    have hone : crc.toBitVec &&& (1 : UInt32).toBitVec =
        BitVec.setWidth 32 (BitVec.ofBool (crc.toBitVec.getLsbD 0)) :=
      BitVec.and_one_eq_setWidth_ofBool_getLsbD
    rw [hone]
    cases crc.toBitVec.getLsbD 0 <;> decide
  unfold crcRound shift
  by_cases h : crc &&& 1 ≠ 0
  · rw [if_pos h, if_pos (hlow.mp h), UInt32.toBitVec_xor, UInt32.toBitVec_shiftRight]
    rfl
  · rw [if_neg h, if_neg (mt hlow.mpr h), UInt32.toBitVec_shiftRight]
    rfl

theorem toBitVec_iterate_crcRound (n : ℕ) (crc : UInt32) :
    (crcRound^[n] crc).toBitVec = (shift castagnoli)^[n] crc.toBitVec := by
  induction n generalizing crc with
  | zero => rfl
  | succ n ih => rw [Function.iterate_succ_apply, ih, toBitVec_crcRound]; rfl

theorem generateCrc32cTable_getD {i : ℕ} (h : i < 256) :
    generateCrc32cTable.getD i 0 = crcRound^[8] (UInt32.ofNat i) := by
  simp [generateCrc32cTable, h]

theorem iterate_shift_eight (x : BitVec 32) :
    (shift castagnoli)^[8] x = (shift castagnoli)^[8] (x &&& 0xFF#32) ^^^ x >>> 8 := by
  have hmask (i : ℕ) : (0xFF#32).getLsbD i = decide (i < 8) := by
    rw [show 0xFF#32 = BitVec.ofNat 32 (2 ^ 8 - 1) from rfl, BitVec.getLsbD_ofNat,
      Nat.testBit_two_pow_sub_one]
    by_cases h : i < 8
    · simp [h, Nat.lt_trans h (by decide : 8 < 32)]
    · simp [h]
  have hsplit : x = (x &&& 0xFF#32) ^^^ x >>> 8 <<< 8 := by
    apply BitVec.eq_of_getLsbD_eq
    intro i hi
    rw [BitVec.getLsbD_xor, BitVec.getLsbD_and, hmask, BitVec.getLsbD_shiftLeft,
      BitVec.getLsbD_ushiftRight]
    by_cases h : i < 8
    · simp [h]
    · simp [h, hi, Nat.add_sub_cancel' (Nat.not_lt.mp h)]
  have hclear : ∀ i < 8, (x >>> 8 <<< 8).getLsbD i = false := by
    intro i hi
    rw [BitVec.getLsbD_shiftLeft]
    simp [hi]
  have hdown : x >>> 8 <<< 8 >>> 8 = x >>> 8 := by
    apply BitVec.eq_of_getLsbD_eq
    intro i hi
    rw [BitVec.getLsbD_ushiftRight, BitVec.getLsbD_shiftLeft, BitVec.getLsbD_ushiftRight]
    by_cases h : 8 + i < 32
    · simp [h]
    · simp [h, BitVec.getLsbD_of_ge x (8 + i) (by omega)]
  conv_lhs => rw [hsplit, iterate_shift_xor, iterate_shift_of_clear hclear, hdown]

theorem ofBits_byteBits (b : Byte) : ofBits 32 (byteBits b) = b.toBitVec.setWidth 32 := by
  apply BitVec.eq_of_getLsbD_eq
  intro i hi
  rw [getLsbD_ofBits, BitVec.getLsbD_setWidth, byteBits]
  by_cases h : i < 8
  · simp [hi, h]
  · simp [h, BitVec.getLsbD_of_ge b.toBitVec i (by omega)]

theorem crcByte_eq (crc : UInt32) (b : Byte) : crcByte crc b = mmCrc32U8 crc b := by
  apply UInt32.toBitVec_inj.mp
  have hlt : ((crc ^^^ b.toUInt32) &&& 0xFF).toNat < 256 := by
    rw [UInt32.toNat_and]
    exact Nat.lt_of_le_of_lt Nat.and_le_right (by decide)
  have hhigh : (crc ^^^ b.toUInt32).toBitVec >>> 8 = crc.toBitVec >>> 8 := by
    rw [UInt32.toBitVec_xor, BitVec.ushiftRight_xor_distrib]
    have hb : b.toUInt32.toBitVec >>> 8 = 0#32 := by
      apply BitVec.eq_of_getLsbD_eq
      intro i hi
      rw [BitVec.getLsbD_ushiftRight, UInt8.toBitVec_toUInt32, BitVec.getLsbD_setWidth]
      simp
    rw [hb, BitVec.xor_zero]
  have hfeed : (mmCrc32U8 crc b).toBitVec =
      (shift castagnoli)^[8] (crc ^^^ b.toUInt32).toBitVec := by
    change feed castagnoli crc.toBitVec (byteBits b) = _
    rw [feed_eq (by decide : 8 ≤ 32), ofBits_byteBits, UInt32.toBitVec_xor,
      UInt8.toBitVec_toUInt32]
    rfl
  rw [hfeed, iterate_shift_eight, hhigh, crcByte, generateCrc32cTable_getD hlt,
    UInt32.ofNat_toNat, UInt32.toBitVec_xor, toBitVec_iterate_crcRound, UInt32.toBitVec_and,
    UInt32.toBitVec_shiftRight]
  rfl

theorem toBitVec_foldl_crcByte (data : List Byte) (crc : UInt32) :
    (data.foldl crcByte crc).toBitVec =
      feed castagnoli crc.toBitVec (data.flatMap byteBits) := by
  induction data generalizing crc with
  | nil => rfl
  | cons b data ih =>
    rw [List.foldl_cons, ih, crcByte_eq, List.flatMap_cons, feed_append]
    rfl

theorem crc32c_eq_bitwise (data : List Byte) (initialCrc : UInt32) :
    crc32c data initialCrc = crc32cBitwise data initialCrc := by
  apply UInt32.toBitVec_inj.mp
  rw [crc32c, UInt32.toBitVec_not, toBitVec_foldl_crcByte, UInt32.toBitVec_not]
  rfl

/-! The blocks. -/

theorem bytesOfU64_loadU64 {bytes : List Byte} (h : bytes.length = 8) :
    bytesOfU64 (loadU64 bytes) = bytes := by
  have hdigit : ∀ d ∈ bytes.map UInt8.toNat, d < 256 := by
    intro d hd
    obtain ⟨b, -, rfl⟩ := List.mem_map.mp hd
    exact b.toNat_lt
  have hlt : Nat.ofDigits 256 (bytes.map UInt8.toNat) < 2 ^ 64 := by
    have := Nat.ofDigits_lt_base_pow_length (by decide : 1 < 256) hdigit
    rwa [List.length_map, h] at this
  have hload : (loadU64 bytes).toNat = Nat.ofDigits 256 (bytes.map UInt8.toNat) :=
    UInt64.toNat_ofNat_of_lt hlt
  apply List.ext_getElem
  · simp [bytesOfU64, h]
  · intro i hi hi'
    have hdrop : (bytes.map UInt8.toNat).drop i =
        bytes[i].toNat :: (bytes.map UInt8.toNat).drop (i + 1) := by
      rw [List.drop_eq_getElem_cons (by simpa using hi'), List.getElem_map]
    simp only [bytesOfU64, List.getElem_map, List.getElem_range, hload]
    rw [Nat.ofDigits_div_pow_eq_ofDigits_drop i (by decide) _ hdigit, hdrop, Nat.ofDigits_cons]
    apply UInt8.toNat_inj.mp
    rw [UInt8.toNat_ofNat', Nat.add_mul_mod_self_left]
    exact Nat.mod_eq_of_lt bytes[i].toNat_lt

theorem mmCrc32U64_load (crc : UInt32) {bytes : List Byte} (h : bytes.length = 8) :
    (mmCrc32U64 crc.toUInt64 (loadU64 bytes)).toUInt32 = bytes.foldl mmCrc32U8 crc := by
  rw [mmCrc32U64, bytesOfU64_loadU64 h, UInt32.toUInt32_toUInt64, UInt32.toUInt32_toUInt64]

theorem foldl_blocks (data : List Byte) (crc : UInt32) {n : ℕ} (h : n * 8 ≤ data.length) :
    (List.range n).foldl (fun crc i =>
        (mmCrc32U64 crc.toUInt64 (loadU64 ((data.drop (i * 8)).take 8))).toUInt32) crc =
      (data.take (n * 8)).foldl mmCrc32U8 crc := by
  induction n with
  | zero => rfl
  | succ n ih =>
    have hblock : ((data.drop (n * 8)).take 8).length = 8 := by
      rw [List.length_take, List.length_drop]
      omega
    rw [List.range_succ, List.foldl_append, ih (by omega), List.foldl_cons, List.foldl_nil,
      mmCrc32U64_load _ hblock, ← List.foldl_append, ← List.take_add, Nat.succ_mul]

theorem crc32cSse42_eq (data : List Byte) (initialCrc : UInt32) :
    crc32cSse42 data initialCrc = crc32c data initialCrc := by
  have hbyte : mmCrc32U8 = crcByte := funext₂ fun crc b => (crcByte_eq crc b).symm
  unfold crc32cSse42 crc32c
  dsimp only
  rw [foldl_blocks _ _ (Nat.div_mul_le_self _ _), ← List.foldl_append, List.take_append_drop,
    hbyte]

/-- Both builds compute the CRC of the bits of the message, whatever its length. -/
theorem crc32c_builds_agree (data : List Byte) (initialCrc : UInt32) :
    crc32c data initialCrc = crc32cBitwise data initialCrc ∧
      crc32cSse42 data initialCrc = crc32c data initialCrc :=
  ⟨crc32c_eq_bitwise data initialCrc, crc32cSse42_eq data initialCrc⟩

example : crc32c [0x31, 0x32, 0x33, 0x34, 0x35, 0x36, 0x37, 0x38, 0x39] = 0xE3069283 := by
  decide +kernel

/-! Chunks. -/

theorem crc32c_append (a b : List Byte) (c : UInt32) :
    crc32c b (crc32c a c) = crc32c (a ++ b) c := by
  simp only [crc32c, UInt32.not_not, List.foldl_append]

/-- The checksum of chunked data, in either build. -/
theorem crc32c_incremental (a b : List Byte) (c : UInt32) :
    crc32c b (crc32c a c) = crc32c (a ++ b) c ∧
      crc32cSse42 b (crc32cSse42 a c) = crc32cSse42 (a ++ b) c := by
  simp only [crc32cSse42_eq, crc32c_append, and_self]

/-! Errors. -/

theorem length_flatMap_byteBits (data : List Byte) :
    (data.flatMap byteBits).length = 8 * data.length := by
  induction data with
  | nil => rfl
  | cons b data ih =>
    rw [List.flatMap_cons, List.length_append, ih, List.length_cons, byteBits, List.length_map,
      List.length_range]
    omega

theorem byteBits_injective : Function.Injective byteBits := by
  intro a b h
  apply UInt8.toBitVec_inj.mp
  apply BitVec.eq_of_getLsbD_eq
  intro i hi
  have hbit : (byteBits a)[i]? = (byteBits b)[i]? := by rw [h]
  simpa [byteBits, hi] using hbit

theorem flatMap_byteBits_injective {u v : List Byte} (hlen : u.length = v.length)
    (h : u.flatMap byteBits = v.flatMap byteBits) : u = v := by
  induction u generalizing v with
  | nil => exact (List.length_eq_zero_iff.mp hlen.symm).symm
  | cons a u ih =>
    obtain ⟨b, v, rfl⟩ := List.exists_cons_of_length_eq_add_one hlen.symm
    rw [List.flatMap_cons, List.flatMap_cons] at h
    obtain ⟨hhead, htail⟩ := List.append_inj h (by simp [byteBits])
    rw [byteBits_injective hhead, ih (Nat.succ.inj hlen) htail]

theorem crc32c_window {before after u v : List Byte} {c : UInt32} (hlen : u.length = v.length)
    (hfour : u.length ≤ 4)
    (h : crc32c (before ++ u ++ after) c = crc32c (before ++ v ++ after) c) : u = v := by
  have hbits := congrArg UInt32.toBitVec h
  rw [crc32c_eq_bitwise, crc32c_eq_bitwise] at hbits
  have hfeed := BitVec.not_inj.mp hbits
  simp only [List.flatMap_append] at hfeed
  apply flatMap_byteBits_injective hlen
  refine feed_burst (by decide) _ _ ?_ ?_ hfeed
  · rw [length_flatMap_byteBits, length_flatMap_byteBits, hlen]
  · rw [length_flatMap_byteBits]
    omega

/-- Damage inside of a window of four bytes changes the checksum, in either build. -/
theorem crc32c_detects_burst {xs ys : List Byte} (hlen : xs.length = ys.length) (hne : xs ≠ ys)
    (hwindow : ∃ k, ∀ i, i < k ∨ k + 4 ≤ i → xs[i]? = ys[i]?) (initialCrc : UInt32) :
    crc32c xs initialCrc ≠ crc32c ys initialCrc ∧
      crc32cSse42 xs initialCrc ≠ crc32cSse42 ys initialCrc := by
  rw [crc32cSse42_eq, crc32cSse42_eq, and_self]
  obtain ⟨k, hk⟩ := hwindow
  have hbefore : xs.take k = ys.take k := by
    apply List.ext_getElem?
    intro i
    rw [List.getElem?_take, List.getElem?_take]
    split_ifs with hi
    · exact hk i (.inl hi)
    · rfl
  have hafter : xs.drop (k + 4) = ys.drop (k + 4) := by
    apply List.ext_getElem?
    intro i
    rw [List.getElem?_drop, List.getElem?_drop]
    exact hk _ (.inr (Nat.le_add_right _ _))
  have hsplit (zs : List Byte) : zs = zs.take k ++ (zs.drop k).take 4 ++ zs.drop (k + 4) := by
    rw [← List.take_add, List.take_append_drop]
  intro h
  rw [hsplit xs, hsplit ys, hbefore, hafter] at h
  have hmid := crc32c_window (by simp [hlen]) (by simp) h
  apply hne
  rw [hsplit xs, hsplit ys, hbefore, hafter, hmid]

/-- One bit of the second of three bytes. -/
theorem crc32c_detects_flipped_bit :
    crc32c [1, 2, 3] 0 ≠ crc32c [1, 3, 3] 0 ∧
      crc32cSse42 [1, 2, 3] 0 ≠ crc32cSse42 [1, 3, 3] 0 := by
  have hne : ([1, 2, 3] : List Byte) ≠ [1, 3, 3] := by decide
  refine crc32c_detects_burst (by rfl) hne ⟨1, ?_⟩ 0
  rintro (_ | _ | i) hi
  · rfl
  · omega
  · rfl

end MemInfo
