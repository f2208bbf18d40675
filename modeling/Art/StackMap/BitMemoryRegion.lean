import Art.StackMap.BitTable

/-!
# Bits in memory

`LoadBits` and `StoreBits` of `libartbase/base/bit_memory_region.h` over the bytes of memory. The
lists of bits of the other modules are what memory holds, a reader takes a part and a writer
appends.
-/

namespace Art.BitMemoryRegion

open Parsing List

variable {data : ℕ → BitVec 8} {start n i : ℕ}

/-- A bit of memory, the least significant bit of a byte first. -/
def bit (data : ℕ → BitVec 8) (i : ℕ) : Bool := (data (i / 8)).getLsbD (i % 8)

/-- The bits of a region. -/
def bits (data : ℕ → BitVec 8) (start size : ℕ) : List Bool :=
  (range size).map fun i => bit data (start + i)

/-! ## Loads -/

/-- A little-endian number of `n` bytes. -/
def loadBytes (w : ℕ) (data : ℕ → BitVec 8) (address : ℕ) : ℕ → BitVec w
  | 0 => 0#w
  | n + 1 => loadBytes w data address n ||| (data (address + n)).setWidth w <<< (8 * n)

/-- `LoadBits(bit_offset, bit_length)`, for a `Result` of `w` bits. -/
def loadBits (w : ℕ) (data : ℕ → BitVec 8) (bitOffset bitLength : ℕ) : BitVec w :=
  if bitLength = 0 then 0#w
  else
    let index := bitOffset / w
    let shift := bitOffset % w
    let value := loadBytes w data (index * (w / 8)) (w / 8) >>> shift
    let extra := loadBytes w data ((index + (shift + (bitLength - 1)) / w) * (w / 8)) (w / 8)
    let clear := BitVec.allOnes w <<< 1 <<< (bitLength - 1)
    (value ||| extra <<< ((w - shift) &&& (w - 1))) &&& ~~~clear

lemma getLsbD_loadBytes (w address : ℕ) (hi : i < w) : (loadBytes w data address n).getLsbD i =
    (decide (i < 8 * n) && (data (address + i / 8)).getLsbD (i % 8)) := by
  induction n with
  | zero => simp [loadBytes]
  | succ n ih =>
    rw [loadBytes, BitVec.getLsbD_or, ih, BitVec.getLsbD_shiftLeft, BitVec.getLsbD_setWidth]
    rcases lt_or_ge i (8 * n) with hlt | hge
    · simp [hlt, show i < 8 * (n + 1) by omega]
    rcases lt_or_ge i (8 * (n + 1)) with hlt' | hge'
    · rw [show i / 8 = n by omega, show i % 8 = i - 8 * n by omega]
      simp [hi, hlt', hge.not_gt, show i - 8 * n < w by omega]
    · simp [hge.not_gt, hge'.not_gt, BitVec.getLsbD_of_ge (data (address + n)) (i - 8 * n)
        (by omega)]

lemma getLsbD_word {w : ℕ} (hw : 8 ∣ w) (index : ℕ) (hi : i < w) :
    (loadBytes w data (index * (w / 8)) (w / 8)).getLsbD i = bit data (index * w + i) := by
  obtain ⟨q, rfl⟩ := hw
  have hq : 8 * q / 8 = q := by omega
  have hmul : index * (8 * q) = 8 * (index * q) := by ring
  have h1 : (8 * (index * q) + i) / 8 = index * q + i / 8 := by omega
  have h2 : (8 * (index * q) + i) % 8 = i % 8 := by omega
  rw [getLsbD_loadBytes _ _ hi, bit, hq, hmul, decide_eq_true hi, Bool.true_and, h1, h2]

/-- A load reads the bits at its offset. -/
lemma getLsbD_loadBits {e bitLength : ℕ} (he : 3 ≤ e) (hlen : bitLength ≤ 2 ^ e) (bitOffset : ℕ) :
    (loadBits (2 ^ e) data bitOffset bitLength).getLsbD i =
      (decide (i < bitLength) && bit data (bitOffset + i)) := by
  have hword {i} (index) := @getLsbD_word data i _ (pow_dvd_pow 2 he) index
  have hdiv := Nat.div_add_mod' bitOffset (2 ^ e)
  have hshift := Nat.mod_lt bitOffset (Nat.two_pow_pos e)
  have hand s := Nat.and_two_pow_sub_one_eq_mod s e
  rw [loadBits]
  generalize 2 ^ e = w at *
  split
  case isTrue h0 => simp [h0]
  generalize bitOffset / w = index at *
  generalize bitOffset % w = shift at *
  have hclear : (~~~(BitVec.allOnes w <<< 1 <<< (bitLength - 1))).getLsbD i =
      decide (i < bitLength) := by
    rw [BitVec.getLsbD_not, BitVec.getLsbD_shiftLeft, BitVec.getLsbD_shiftLeft,
      BitVec.getLsbD_allOnes]
    rw [Bool.eq_iff_iff]
    simp
    omega
  dsimp only
  rw [hand, BitVec.getLsbD_and, hclear, BitVec.getLsbD_or, BitVec.getLsbD_ushiftRight,
    BitVec.getLsbD_shiftLeft,
    Bool.and_comm]
  rcases le_or_gt bitLength i with hge | hlt
  · simp [hge.not_gt]
  have hiw : i < w := hlt.trans_le hlen
  congr 1
  rcases lt_or_ge (shift + i) w with hfirst | hsecond
  · -- the bit is in the first word; the second is the same one, or is shifted past it
    rw [hword index hfirst, ← Nat.add_assoc, hdiv]
    rcases Nat.eq_zero_or_pos shift with rfl | hpos
    · have h1 : (0 + (bitLength - 1)) / w = 0 := Nat.div_eq_of_lt (by omega)
      rw [h1, Nat.sub_zero, Nat.mod_self, Nat.sub_zero, Nat.add_zero, hword index hiw, ← hdiv,
        Nat.add_zero]
      simp
    · rw [Nat.mod_eq_of_lt (by omega), decide_eq_true (show i < w - shift by omega)]
      simp
  · have h1 : (shift + (bitLength - 1)) / w = 1 := by
      rw [Nat.div_eq_iff (by omega)]
      omega
    rw [BitVec.getLsbD_of_ge _ _ hsecond, h1, Nat.mod_eq_of_lt (by omega), hword _ (by omega),
      show (index + 1) * w + (i - (w - shift)) = bitOffset + i by rw [Nat.succ_mul]; omega]
    simp [hiw, show ¬i < w - shift by omega]

/-! ## Stores -/

/-- `data_[index] &= ~clear; data_[index] |= set`. -/
def storeByte (data : ℕ → BitVec 8) (index : ℕ) (clear set : BitVec 64) : ℕ → BitVec 8 :=
  Function.update data index (data index &&& ~~~clear.setWidth 8 ||| set.setWidth 8)

/-- The loop of `StoreBits` over the bytes after the first. -/
def storeBytes (value mask : BitVec 64) (bitLength index finishedBits : ℕ) (data : ℕ → BitVec 8) :
    ℕ → BitVec 8 :=
  if finishedBits < bitLength then
    storeBytes value mask bitLength (index + 1) (finishedBits + 8)
      (storeByte data index (mask >>> finishedBits) (value >>> finishedBits))
  else data
  termination_by bitLength - finishedBits

def storeBits (data : ℕ → BitVec 8) (bitOffset : ℕ) (value : BitVec 64) (bitLength : ℕ) :
    ℕ → BitVec 8 :=
  if bitLength = 0 then data
  else
    let mask := BitVec.allOnes 64 >>> (64 - bitLength)
    let index := bitOffset / 8
    let shift := bitOffset % 8
    storeBytes value mask bitLength (index + 1) (8 - shift)
      (storeByte data index (mask <<< shift) (value <<< shift))

lemma bit_storeByte (index : ℕ) (clear set : BitVec 64) : bit (storeByte data index clear set) i =
    if i / 8 = index then bit data i && !clear.getLsbD (i % 8) || set.getLsbD (i % 8)
    else bit data i := by
  have hi : i % 8 < 8 := Nat.mod_lt _ (by decide)
  rw [bit, storeByte, Function.update_apply]
  split
  case isTrue h => simp [bit, h, hi]
  case isFalse => rfl

section Store

variable {value mask : BitVec 64} {bitLength : ℕ}
  (hmask : ∀ j, mask.getLsbD j = decide (j < bitLength))
  (hvalue : ∀ j, bitLength ≤ j → value.getLsbD j = false)
include hmask hvalue

lemma bit_storeBytes {index finishedBits : ℕ} (h : 8 * index = start + finishedBits) :
    bit (storeBytes value mask bitLength index finishedBits data) i =
      if start + finishedBits ≤ i ∧ i < start + bitLength then value.getLsbD (i - start)
      else bit data i := by
  fun_induction storeBytes with
  | case1 index finishedBits data hlt ih =>
    rw [ih (by omega), bit_storeByte, BitVec.getLsbD_ushiftRight, BitVec.getLsbD_ushiftRight, hmask]
    by_cases hi : i / 8 = index
    · rw [if_neg (by omega), if_pos hi, show finishedBits + i % 8 = i - start by omega]
      rcases lt_or_ge (i - start) bitLength with hlt' | hge
      · rw [if_pos (by omega), decide_eq_true hlt']
        simp
      · rw [if_neg (by omega), hvalue _ hge]
        simp [hge]
    · rw [if_neg hi]
      exact if_congr (by omega) rfl rfl
  | case2 index finishedBits data hge => rw [if_neg (by omega)]

end Store

/-- A store writes the bits of its value at the offset and no others. -/
lemma bit_storeBits {value bitLength : ℕ} (hlen : bitLength ≤ 64) (hvalue : value < 2 ^ bitLength)
    (bitOffset : ℕ) :
    bit (storeBits data bitOffset (BitVec.ofNat 64 value) bitLength) i =
      if bitOffset ≤ i ∧ i < bitOffset + bitLength then value.testBit (i - bitOffset)
      else bit data i := by
  rw [storeBits]
  split
  case isTrue h0 => rw [if_neg (by omega)]
  have hmask : ∀ j, (BitVec.allOnes 64 >>> (64 - bitLength)).getLsbD j = decide (j < bitLength) :=
    fun j => by
    rw [BitVec.getLsbD_ushiftRight, BitVec.getLsbD_allOnes, decide_eq_decide]
    omega
  have htest : ∀ j, bitLength ≤ j → value.testBit j = false := fun j hj =>
    Nat.testBit_lt_two_pow (hvalue.trans_le (Nat.pow_le_pow_right (by decide) hj))
  have hbits : ∀ j, (BitVec.ofNat 64 value).getLsbD j = value.testBit j := fun j => by
    rw [BitVec.getLsbD_ofNat]
    rcases lt_or_ge j 64 with hj | hj
    · simp [hj]
    · simp [hj.not_gt, htest j (hlen.trans hj)]
  rw [bit_storeBytes hmask (fun j hj => by rw [hbits, htest j hj])
    (show 8 * (bitOffset / 8 + 1) = bitOffset + (8 - bitOffset % 8) by omega), bit_storeByte,
    BitVec.getLsbD_shiftLeft, BitVec.getLsbD_shiftLeft, hmask, hbits, hbits]
  have hshift := Nat.mod_lt bitOffset (show 8 > 0 by decide)
  have hi8 : i % 8 < 64 := (Nat.mod_lt i (by decide)).trans (by decide)
  by_cases hi : i / 8 = bitOffset / 8
  · rw [if_neg (by omega), if_pos hi, show i % 8 - bitOffset % 8 = i - bitOffset by omega]
    rcases lt_or_ge i bitOffset with hlt | hge
    · rw [if_neg (by omega)]
      simp [show i % 8 < bitOffset % 8 by omega]
    rcases lt_or_ge (i - bitOffset) bitLength with hlt' | hge'
    · rw [if_pos (by omega)]
      simp [hi8, hlt', show ¬i % 8 < bitOffset % 8 by omega]
    · rw [if_neg (by omega), htest _ hge']
      simp [hge']
  · rw [if_neg hi]
    exact if_congr (by omega) rfl rfl

/-! ## Writers -/

/-- `WriteBits(value, bit_length)` of one value after the other, from a bit of memory on. -/
def writeAll (data : ℕ → BitVec 8) (start : ℕ) : List (ℕ × ℕ) → ℕ → BitVec 8
  | [] => data
  | (value, bitLength) :: writes =>
    writeAll (storeBits data start (BitVec.ofNat 64 value) bitLength) (start + bitLength) writes

lemma bits_add (data : ℕ → BitVec 8) (start m n : ℕ) :
    bits data start (m + n) = bits data start m ++ bits data (start + m) n := by
  simp [bits, range_add, Nat.add_assoc]

/-- What is written is appended to what is in memory before, and nothing else changes. -/
lemma bits_writeAll {writes : List (ℕ × ℕ)} (h : ∀ w ∈ writes, w.1 < 2 ^ w.2 ∧ w.2 ≤ 64)
    (data : ℕ → BitVec 8) (start : ℕ) :
    bits (writeAll data start writes) start (writes.flatMap fun w => ofNat w.2 w.1).length =
        (writes.flatMap fun w => ofNat w.2 w.1) ∧
      ∀ i, i < start ∨ start + (writes.flatMap fun w => ofNat w.2 w.1).length ≤ i →
        bit (writeAll data start writes) i = bit data i := by
  induction writes generalizing data start with
  | nil => exact ⟨rfl, fun _ _ => rfl⟩
  | cons w writes ih =>
    obtain ⟨value, bitLength⟩ := w
    obtain ⟨⟨hvalue, hlen⟩, hrest⟩ := forall_mem_cons.1 h
    have hstore {i} := @bit_storeBits data i _ _ hlen hvalue start
    obtain ⟨hbits, hother⟩ := ih hrest (storeBits data start (BitVec.ofNat 64 value) bitLength)
      (start + bitLength)
    rw [flatMap_cons, length_append, length_ofNat, writeAll, bits_add, hbits]
    refine ⟨congrArg (· ++ _) ?_, fun i hi => ?_⟩
    · rw [bits, ofNat_eq_map]
      refine map_congr_left fun j hj => ?_
      have hj := mem_range.1 hj
      rw [hother _ (.inl (by omega)), hstore, if_pos (by omega), Nat.add_sub_cancel_left]
    · rw [hother i (by omega), hstore, if_neg (by omega)]

/-! ## Readers -/

lemma toNat_bits {e : ℕ} (he : 3 ≤ e) (hn : n ≤ 2 ^ e) (data : ℕ → BitVec 8) (start : ℕ) :
    toNat (bits data start n) = (loadBits (2 ^ e) data start n).toNat := by
  refine Nat.eq_of_testBit_eq fun i => ?_
  rw [testBit_toNat, BitVec.testBit_toNat, getLsbD_loadBits he hn, bits]
  rcases lt_or_ge i n with hi | hi
  · simp [hi]
  · simp [hi.not_gt]

/-- A part of a region is what is loaded at its offset. -/
lemma toNat_slice {size offset : ℕ} (hn : n ≤ 64) (hsize : offset + n ≤ size) (data : ℕ → BitVec 8)
    (start : ℕ) :
    toNat (((bits data start size).drop offset).take n) =
      (loadBits 64 data (start + offset) n).toNat := by
  obtain ⟨rest, rfl⟩ := Nat.exists_eq_add_of_le hsize
  have hlen : (bits data start offset).length = offset := by simp [bits]
  have hlen' : (bits data (start + offset) n).length = n := by simp [bits]
  rw [Nat.add_assoc, bits_add, drop_left' hlen, bits_add, take_left' hlen']
  exact toNat_bits (e := 6) (by decide) hn data _

end Art.BitMemoryRegion
