import Mathlib.Data.Nat.Bitwise

/-!
# Bit fields of a machine word

The helpers of `libartbase/base/bit_utils.h` on an unsigned word of `w` bits: a
mask of least significant bits, and clearing, inserting and extracting the field
of `width` bits that starts at bit `lsb`.

* `getLsbD_bitFieldClear`, `getLsbD_bitFieldInsert`, `getLsbD_bitFieldExtract`
  describe each of them one bit at a time;
* `bitFieldExtract_insert_self` and `bitFieldExtract_insert_of_disjoint` say what
  a field holds after an insertion: the inserted data in the field itself, and
  what it held before in every field beside it;
* `bitFieldExtract_clear_of_le` and `bitFieldExtract_clear_of_disjoint` say the
  same of a clearing.
-/

namespace Art

open BitVec Nat

variable {w : ℕ}

/-- `MaskLeastSignificant<T>(bits)`: the word whose `bits` low bits are set. -/
def maskLeastSignificant (w bits : ℕ) : BitVec w :=
  if w ≤ bits then allOnes w else (1#w <<< bits) - 1#w

def bitFieldClear (value : BitVec w) (lsb width : ℕ) : BitVec w :=
  value &&& ~~~(maskLeastSignificant w width <<< lsb)

def bitFieldInsert (value data : BitVec w) (lsb width : ℕ) : BitVec w :=
  bitFieldClear value lsb width ||| ((data &&& maskLeastSignificant w width) <<< lsb)

/-- `BitFieldExtract(value, lsb, width)` of an unsigned type. -/
def bitFieldExtract (value : BitVec w) (lsb width : ℕ) : BitVec w :=
  (value >>> lsb) &&& maskLeastSignificant w width

lemma toNat_maskLeastSignificant (w bits : ℕ) :
    (maskLeastSignificant w bits).toNat = 2 ^ min w bits - 1 := by
  unfold maskLeastSignificant
  split
  next h => rw [min_eq_left h, toNat_allOnes]
  next h =>
    have hb : bits < w := by omega
    have h2 : 2 ^ bits < 2 ^ w := Nat.pow_lt_pow_right (by omega) hb
    have h1 : 1 % 2 ^ w = 1 := Nat.mod_eq_of_lt (Nat.one_lt_two_pow (by omega))
    have h0 := Nat.one_le_two_pow (n := bits)
    rw [toNat_sub, toNat_shiftLeft, toNat_ofNat, h1, one_shiftLeft,
      mod_eq_of_lt h2, min_eq_right (by omega)]
    have h3 : 2 ^ w - 1 + 2 ^ bits = (2 ^ bits - 1) + 2 ^ w := by omega
    rw [h3, add_mod_right, mod_eq_of_lt (by omega)]

@[simp] lemma getLsbD_maskLeastSignificant (w bits i : ℕ) :
    (maskLeastSignificant w bits).getLsbD i = (decide (i < w) && decide (i < bits)) := by
  rw [← testBit_toNat, toNat_maskLeastSignificant, testBit_two_pow_sub_one]
  exact (decide_eq_decide.2 Nat.lt_min).trans (Bool.decide_and ..)

variable (v : BitVec w)

lemma getLsbD_bitFieldClear (lsb width i : ℕ) : (bitFieldClear v lsb width).getLsbD i =
      (v.getLsbD i && !(decide (lsb ≤ i) && decide (i < lsb + width))) := by
  by_cases hi : i < w
  · simp only [bitFieldClear, getLsbD_and, getLsbD_not, hi, decide_true,
      getLsbD_shiftLeft, getLsbD_maskLeastSignificant, Bool.true_and]
    congr 2
    by_cases hl : lsb ≤ i
    · simp only [hl, show ¬ i < lsb by omega, show i - lsb < w by omega, decide_true, decide_false,
        Bool.not_false, Bool.true_and, decide_eq_decide]
      omega
    · simp [hl, show i < lsb by omega]
  · simp [bitFieldClear, getLsbD_of_ge v i (by omega)]

lemma getLsbD_bitFieldInsert (v d : BitVec w) (lsb width i : ℕ) : (bitFieldInsert v d lsb width).getLsbD i =
      if lsb ≤ i ∧ i < lsb + width then decide (i < w) && d.getLsbD (i - lsb)
      else v.getLsbD i := by
  by_cases hi : i < w
  · simp only [bitFieldInsert, getLsbD_or, getLsbD_bitFieldClear, getLsbD_shiftLeft,
      getLsbD_and, getLsbD_maskLeastSignificant, hi, decide_true, Bool.true_and]
    split
    next h => simp [h.1, h.2, show i - lsb < w by omega, show i - lsb < width by omega]
    next h =>
      by_cases hl : lsb ≤ i
      · simp [hl, show ¬ i < lsb + width by omega, show ¬ i - lsb < width by omega]
      · simp [hl, show i < lsb by omega]
  · simp [getLsbD_of_ge _ i (show w ≤ i by omega), hi]

lemma getLsbD_bitFieldExtract (lsb width i : ℕ) : (bitFieldExtract v lsb width).getLsbD i =
      (v.getLsbD (lsb + i) && decide (i < width)) := by
  rw [bitFieldExtract, getLsbD_and, getLsbD_ushiftRight, getLsbD_maskLeastSignificant]
  by_cases hi : i < w
  · simp [hi]
  · simp [getLsbD_of_ge v (lsb + i) (by omega)]

/-- A field is below two to its width. -/
lemma toNat_bitFieldExtract_lt (lsb width : ℕ) : (bitFieldExtract v lsb width).toNat < 2 ^ width := by
  rw [bitFieldExtract, toNat_and, toNat_maskLeastSignificant]
  have h : 2 ^ min w width ≤ 2 ^ width := Nat.pow_le_pow_right (by omega) (min_le_right _ _)
  have h0 := Nat.one_le_two_pow (n := min w width)
  have := Nat.and_le_right (n := (v >>> lsb).toNat) (m := 2 ^ min w width - 1)
  omega

variable {lsb width : ℕ}

/-- A field that fits is read back. -/
lemma bitFieldExtract_insert_self (v d : BitVec w) (hw : lsb + width ≤ w)
    (hd : d.toNat < 2 ^ width) : bitFieldExtract (bitFieldInsert v d lsb width) lsb width = d := by
  refine eq_of_getLsbD_eq fun i hi => ?_
  rw [getLsbD_bitFieldExtract, getLsbD_bitFieldInsert]
  by_cases h : i < width
  · simp [h, show lsb + i < w by omega]
  · have : d.getLsbD i = false := by
      rw [← testBit_toNat]
      exact Nat.testBit_lt_two_pow (hd.trans_le (Nat.pow_le_pow_right (by omega) (by omega)))
    simp [h, this]

variable {lsb' width' : ℕ}

/-- An insertion keeps the other fields. -/
lemma bitFieldExtract_insert_of_disjoint (v d : BitVec w) (h : lsb' + width' ≤ lsb ∨ lsb + width ≤ lsb') :
    bitFieldExtract (bitFieldInsert v d lsb width) lsb' width' = bitFieldExtract v lsb' width' := by
  refine eq_of_getLsbD_eq fun i _ => ?_
  rw [getLsbD_bitFieldExtract, getLsbD_bitFieldExtract, getLsbD_bitFieldInsert]
  by_cases hi : i < width'
  · rw [if_neg (by omega)]
  · simp [hi]

lemma bitFieldExtract_clear_of_le (v : BitVec w) (hl : lsb ≤ lsb') (hr : lsb' + width' ≤ lsb + width) :
    bitFieldExtract (bitFieldClear v lsb width) lsb' width' = 0#w := by
  refine eq_of_getLsbD_eq fun i _ => ?_
  rw [getLsbD_bitFieldExtract, getLsbD_bitFieldClear, getLsbD_zero]
  by_cases hi : i < width'
  · simp [show lsb ≤ lsb' + i by omega, show lsb' + i < lsb + width by omega]
  · simp [hi]

lemma bitFieldExtract_clear_of_disjoint (v : BitVec w) (h : lsb' + width' ≤ lsb ∨ lsb + width ≤ lsb') :
    bitFieldExtract (bitFieldClear v lsb width) lsb' width' = bitFieldExtract v lsb' width' := by
  refine eq_of_getLsbD_eq fun i _ => ?_
  rw [getLsbD_bitFieldExtract, getLsbD_bitFieldExtract, getLsbD_bitFieldClear]
  by_cases hi : i < width'
  · have : ¬ (lsb ≤ lsb' + i ∧ lsb' + i < lsb + width) := by omega
    rw [← Bool.decide_and, decide_eq_false this, Bool.not_false, Bool.and_true]
  · simp [hi]

end Art
