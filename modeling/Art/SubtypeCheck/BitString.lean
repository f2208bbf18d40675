import Mathlib.Algebra.Order.BigOperators.Group.List
import Mathlib.Algebra.Order.Ring.Nat
import Art.Base.BitUtils

/-!
# Bit strings

`BitString` of `libartbase/base/bit_string.h`: up to `kCapacity` characters in the
low bits of a 32-bit word, each position with a width of its own.

The lemmas below turn every operation on the word into one on the characters
(`data s i`): `data_setAt`, `data_truncate`, `eq_iff_data`, `isEmpty_iff` and
`length_truncate_eq_iff`. `and_mask_eq_iff` does the same for the masked comparison
of two words that the fast subtype check performs.
-/

namespace Art

/-- `BitString::kBitSizeAtPosition`, the width of each character. -/
def kBitSizeAtPosition : List ℕ := [12, 4, 11]

/-- `BitString::kCapacity`, the number of characters. -/
def kCapacity : ℕ := kBitSizeAtPosition.length

/-- `MaybeGetBitLengthAtPosition(position)`: the width of a character, zero past the capacity. -/
def bitLengthAtPosition (position : ℕ) : ℕ := kBitSizeAtPosition.getD position 0

/-- `GetBitLengthTotalAtPosition(position)`: the bits of the characters before `position`; also
    `GetLsbForPosition`, the least significant bit of the character at `position`. -/
def bitLengthTotalAtPosition (position : ℕ) : ℕ := (kBitSizeAtPosition.take position).sum

/-- `BitStringChar`: a character with the width it may use. Equality in the source ignores the
    width, so the model compares `data`. -/
structure BitStringChar where
  /-- The bits of the character. -/
  data : BitVec 32 := 0#32
  /-- The most bits that the character may use. -/
  bitlength : ℕ := 0

/-- `BitStringChar::MaximumValue()`: the largest value with the same width. -/
def BitStringChar.maximumValue (c : BitStringChar) : BitStringChar :=
  ⟨maskLeastSignificant 32 c.bitlength, c.bitlength⟩

/-- `BitStringChar::operator+`. -/
def BitStringChar.add (c : BitStringChar) (n : BitVec 32) : BitStringChar := ⟨c.data + n, c.bitlength⟩

/-- `BitString`: the characters, the first in the least significant bits; the unused bits of the
    word are zero. -/
@[ext]
structure BitString where
  storage : BitVec 32
  unused_eq_false : ∀ i, bitLengthTotalAtPosition kCapacity ≤ i → storage.getLsbD i = false

namespace BitString

/-- `BitString{}`: no characters. -/
def empty : BitString := ⟨0#32, fun _ _ => BitVec.getLsbD_zero ..⟩

variable (s : BitString) (idx : ℕ)

/-- `BitString::operator[]`. -/
def get : BitStringChar :=
  ⟨bitFieldExtract s.storage (bitLengthTotalAtPosition idx) (bitLengthAtPosition idx),
    bitLengthAtPosition idx⟩

lemma bitLengthTotal_add_le : bitLengthTotalAtPosition idx + bitLengthAtPosition idx ≤
      bitLengthTotalAtPosition kCapacity := by
  match idx with
  | 0 | 1 | 2 => decide
  | n + 3 => simp [bitLengthTotalAtPosition, bitLengthAtPosition, kBitSizeAtPosition, kCapacity]

def setAt (bitchar : BitStringChar) : BitString where
  storage := bitFieldInsert s.storage bitchar.data (bitLengthTotalAtPosition idx)
    (bitLengthAtPosition idx)
  unused_eq_false i hi := by
    have := bitLengthTotal_add_le idx
    rw [getLsbD_bitFieldInsert, if_neg (by omega), s.unused_eq_false i hi]

/-- The loop of `BitString::Length()`, from the position `i - 1` down: it stops at the last
    character that is not zero. -/
def lengthBelow (s : BitString) : ℕ → ℕ
  | 0 => 0
  | i + 1 => if (s.get i).data ≠ 0#32 then i + 1 else lengthBelow s i

/-- `BitString::Length()`: the characters without the trailing zeros. -/
def length : ℕ := s.lengthBelow kCapacity

def isEmpty : Bool := s.storage == 0#32

/-- `BitString::Truncate(end)`: without the characters from `end` on. -/
def truncate (e : ℕ) : BitString :=
  if e < kCapacity then
    ⟨bitFieldClear s.storage (bitLengthTotalAtPosition e)
      (bitLengthTotalAtPosition kCapacity - bitLengthTotalAtPosition e), fun i hi => by
        rw [getLsbD_bitFieldClear, s.unused_eq_false i hi, Bool.false_and]⟩
  else s

/-! ## The characters of a bit string -/

/-- The bits of the character at `idx`. -/
def data (s : BitString) (idx : ℕ) : BitVec 32 := (s.get idx).data

lemma data_lt : (s.data idx).toNat < 2 ^ bitLengthAtPosition idx := toNat_bitFieldExtract_lt ..

variable {idx : ℕ}

lemma data_eq_zero_of_le (s : BitString) (h : kCapacity ≤ idx) : s.data idx = 0#32 := by
  have hlt := s.data_lt idx
  rw [bitLengthAtPosition, List.getD_eq_default _ _ h] at hlt
  exact BitVec.eq_of_toNat_eq (by simpa using hlt)

@[simp] lemma data_empty (idx : ℕ) : empty.data idx = 0#32 := by
  simp [empty, data, get, bitFieldExtract]

variable {i : ℕ}

/-- The characters occupy consecutive fields of the word. -/
lemma bitLengthTotal_disjoint {j : ℕ} (h : i < j) :
    bitLengthTotalAtPosition i + bitLengthAtPosition i ≤ bitLengthTotalAtPosition j := by
  by_cases hi : i < kCapacity
  · have hsucc : bitLengthTotalAtPosition (i + 1) = bitLengthTotalAtPosition i + bitLengthAtPosition i := by
      rw [bitLengthTotalAtPosition, List.take_succ_eq_append_getElem hi, bitLengthAtPosition,
    List.getD_eq_getElem _ _ hi]
      simp [bitLengthTotalAtPosition]
    rw [← hsucc]
    exact (List.take_sublist_take_left h).sum_le_sum fun _ _ => Nat.zero_le _
  · rw [bitLengthAtPosition, List.getD_eq_default _ _ (not_lt.1 hi), bitLengthTotalAtPosition,
      bitLengthTotalAtPosition, List.take_of_length_le (not_lt.1 hi),
      List.take_of_length_le ((not_lt.1 hi).trans h.le)]
    exact le_rfl

lemma data_setAt (s : BitString) {c : BitStringChar}
    (hc : c.data.toNat < 2 ^ bitLengthAtPosition idx) (j : ℕ) :
    (s.setAt idx c).data j = if j = idx then c.data else s.data j := by
  have h32 : bitLengthTotalAtPosition idx + bitLengthAtPosition idx ≤ 32 :=
    (bitLengthTotal_add_le idx).trans (by decide)
  split
  next h => subst h; exact bitFieldExtract_insert_self _ _ h32 hc
  next h =>
    refine bitFieldExtract_insert_of_disjoint _ _ ?_
    rcases lt_or_gt_of_ne h with h | h
    · exact .inl (bitLengthTotal_disjoint h)
    · exact .inr (bitLengthTotal_disjoint h)

lemma data_truncate (e j : ℕ) : (s.truncate e).data j = if j < e then s.data j else 0#32 := by
  unfold truncate
  by_cases he : e < kCapacity
  · rw [if_pos he]
    have hE := (Nat.le_add_right ..).trans (bitLengthTotal_disjoint he)
    split
    next h => exact bitFieldExtract_clear_of_disjoint _ (.inl (bitLengthTotal_disjoint h))
    next h =>
      refine bitFieldExtract_clear_of_le _ ?_ ?_
      · rcases eq_or_lt_of_le (not_lt.1 h) with rfl | h
        · exact le_rfl
        · exact (Nat.le_add_right ..).trans (bitLengthTotal_disjoint h)
      · rw [Nat.add_sub_cancel' hE]
        exact bitLengthTotal_add_le j
  · rw [if_neg he]
    split
    next => rfl
    next h => exact s.data_eq_zero_of_le (by omega)

/-- Every used bit of the word is a bit of some character. -/
lemma exists_position (h : i < bitLengthTotalAtPosition kCapacity) :
    ∃ j < kCapacity, ∃ k < bitLengthAtPosition j, i = bitLengthTotalAtPosition j + k := by
  have h27 : i < 27 := h
  by_cases h0 : i < 12
  · exact ⟨0, by decide, i, h0, (zero_add i).symm⟩
  by_cases h1 : i < 16
  · exact ⟨1, by decide, i - 12, show i - 12 < 4 by omega, show i = 12 + (i - 12) by omega⟩
  · exact ⟨2, by decide, i - 16, show i - 16 < 11 by omega, show i = 16 + (i - 16) by omega⟩

variable {s t : BitString}

/-- A bit string is its characters. -/
lemma eq_iff_data : s = t ↔ ∀ j < kCapacity, s.data j = t.data j := by
  refine ⟨fun h _ _ => h ▸ rfl, fun h => ?_⟩
  ext1
  refine BitVec.eq_of_getLsbD_eq fun i _ => ?_
  by_cases hi : i < bitLengthTotalAtPosition kCapacity
  · obtain ⟨j, hj, k, hk, rfl⟩ := exists_position hi
    have := congrArg (·.getLsbD k) (h j hj)
    simpa [data, get, getLsbD_bitFieldExtract, hk] using this
  · rw [s.unused_eq_false i (not_lt.1 hi), t.unused_eq_false i (not_lt.1 hi)]

lemma isEmpty_iff : s.isEmpty = true ↔ ∀ j < kCapacity, s.data j = 0#32 := by
  have h : s.isEmpty = true ↔ s = empty := by
    rw [isEmpty, beq_iff_eq, BitString.ext_iff]
    rfl
  simp only [h, eq_iff_data, data_empty]

lemma lengthBelow_le (s : BitString) (n : ℕ) : s.lengthBelow n ≤ n := by
  induction n with
  | zero => exact le_rfl
  | succ n ih => unfold lengthBelow; split <;> omega

lemma length_le (s : BitString) : s.length ≤ kCapacity := s.lengthBelow_le kCapacity

variable {d : ℕ}

lemma lengthBelow_eq_iff {n : ℕ} (hd : d ≤ n) (hz : ∀ j, d ≤ j → s.data j = 0#32) :
    s.lengthBelow n = d ↔ d = 0 ∨ s.data (d - 1) ≠ 0#32 := by
  induction n with
  | zero => simp [lengthBelow, Nat.le_zero.1 hd]
  | succ n ih =>
    rcases eq_or_lt_of_le hd with rfl | h
    · by_cases hn : s.data n = 0#32
      · have := s.lengthBelow_le n
        have hn' : ¬ (s.get n).data ≠ 0#32 := not_not.2 hn
        simp only [lengthBelow, if_neg hn', Nat.succ_ne_zero, Nat.add_sub_cancel, hn, false_or,
          ne_eq, not_true_eq_false, iff_false]
        omega
      · have hn' : (s.get n).data ≠ 0#32 := hn
        simp [lengthBelow, hn', hn]
    · have hn : ¬ (s.get n).data ≠ 0#32 := not_not.2 (hz n (by omega))
      rw [lengthBelow, if_neg hn]
      exact ih (by omega)

/-- The length of the first `d` characters is `d` when the last of them is not zero. -/
lemma length_truncate_eq_iff (hd : d ≤ kCapacity) :
    (s.truncate d).length = d ↔ d = 0 ∨ s.data (d - 1) ≠ 0#32 := by
  rw [length, lengthBelow_eq_iff hd fun j hj => by rw [data_truncate, if_neg (by omega)], data_truncate]
  rcases Nat.eq_zero_or_pos d with rfl | h
  · simp
  · rw [if_pos (by omega)]

/-- Masking a word with the bits of the first `d` characters truncates the string. -/
lemma and_mask_eq_iff (hd : d ≤ kCapacity) :
    s.storage &&& maskLeastSignificant 32 (bitLengthTotalAtPosition d) = t.storage ↔ s.truncate d = t := by
  have hs : s.storage &&& maskLeastSignificant 32 (bitLengthTotalAtPosition d) = (s.truncate d).storage := by
    refine BitVec.eq_of_getLsbD_eq fun i hi => ?_
    rw [BitVec.getLsbD_and, getLsbD_maskLeastSignificant, decide_eq_true hi]
    unfold truncate
    rcases eq_or_lt_of_le hd with rfl | h
    · by_cases hk : i < bitLengthTotalAtPosition kCapacity
      · simp [hk]
      · simp [s.unused_eq_false i (not_lt.1 hk)]
    · rw [if_pos h, getLsbD_bitFieldClear]
      by_cases hk : i < bitLengthTotalAtPosition kCapacity
      · have : i < bitLengthTotalAtPosition d +
          (bitLengthTotalAtPosition kCapacity - bitLengthTotalAtPosition d) := by omega
        by_cases hi : i < bitLengthTotalAtPosition d <;> simp [hi, this]; omega
      · simp [s.unused_eq_false i (not_lt.1 hk)]
  rw [hs, BitString.ext_iff]

end BitString

end Art
