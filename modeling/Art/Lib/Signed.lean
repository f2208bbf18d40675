import Mathlib.Tactic.Linarith
import Mathlib.Tactic.Ring

/-!
# Signed numbers of a fixed width

A bit vector is the value of an integer, up to multiples of `2 ^ w`. Here is what a signed division
gives if the numerator has wrapped around: read as an unsigned number, the quotient is that of
the integers if and only if the numerator has not.
-/

namespace Signed

open Int

open BitVec (ofInt ofInt_toInt toInt_ofInt toInt_ofInt_eq_self toNat_ofInt)

variable {w : ℕ}

lemma two_pow_eq (hw : 0 < w) : (2 : ℤ) ^ w = 2 * 2 ^ (w - 1) := by
  obtain ⟨n, rfl⟩ : ∃ n, w = n + 1 := ⟨w - 1, by omega⟩
  rw [Nat.add_sub_cancel, pow_succ, mul_comm]

lemma toNat_eq (x : BitVec w) : (x.toNat : ℤ) = x.toInt % 2 ^ w := by
  have h := congrArg (fun n : ℕ => (n : ℤ)) (toNat_ofInt (n := w) x.toInt)
  simp only [ofInt_toInt] at h
  rw [h, toNat_of_nonneg]
  · norm_cast
  · exact emod_nonneg _ (by norm_cast; omega)

lemma toNat_ofInt_of_mem {z : ℤ} (h : 0 ≤ z) (h' : z < 2 ^ w) : ((ofInt w z).toNat : ℤ) = z := by
  have hcast : ((2 ^ w : ℕ) : ℤ) = 2 ^ w := by norm_cast
  rw [toNat_ofInt, hcast, emod_eq_of_lt h h', toNat_of_nonneg h]

lemma ofInt_sub (a b : ℤ) : ofInt w (a - b) = ofInt w a - ofInt w b := by
  rw [Int.sub_eq_add_neg, BitVec.ofInt_add, BitVec.ofInt_neg, BitVec.sub_eq_add_neg]

/-- Two integers are the same number up to multiples of `2 ^ w`. -/
lemma ofInt_eq_ofInt_iff {a b : ℤ} : ofInt w a = ofInt w b ↔ (2 : ℤ) ^ w ∣ a - b := by
  have hcast : ((2 ^ w : ℕ) : ℤ) = 2 ^ w := by norm_cast
  rw [← BitVec.toInt_inj, toInt_ofInt, toInt_ofInt,
    bmod_eq_bmod_iff_bmod_sub_eq_zero, ← dvd_iff_bmod_eq_zero, hcast]

/-- The low bits of a number are those of the integer. -/
lemma setWidth_ofInt {v : ℕ} (h : v ≤ w) (z : ℤ) : (ofInt w z).setWidth v = ofInt v z := by
  have hdvd : ((2 ^ v : ℕ) : ℤ) ∣ ((2 ^ w : ℕ) : ℤ) := by exact_mod_cast pow_dvd_pow 2 h
  refine BitVec.eq_of_toNat_eq ?_
  have hleft : (((ofInt w z).setWidth v).toNat : ℤ) = z % ((2 ^ w : ℕ) : ℤ) % ((2 ^ v : ℕ) : ℤ) := by
    rw [BitVec.toNat_setWidth, toNat_ofInt, natCast_mod,
      toNat_of_nonneg (emod_nonneg _ (by positivity))]
  have hright : ((ofInt v z).toNat : ℤ) = z % ((2 ^ v : ℕ) : ℤ) := by
    rw [toNat_ofInt, toNat_of_nonneg (emod_nonneg _ (by positivity))]
  have heq : (((ofInt w z).setWidth v).toNat : ℤ) = ((ofInt v z).toNat : ℤ) := by
    rw [hleft, hright, emod_emod_of_dvd z hdvd]
  exact_mod_cast heq

lemma sdiv_eq_ofInt (x d : BitVec w) : x.sdiv d = ofInt w (x.toInt.tdiv d.toInt) := by
  have h := congrArg (ofInt w) (BitVec.toInt_sdiv x d)
  rwa [ofInt_toInt, ← toInt_ofInt, ofInt_toInt] at h

/-- A truncated quotient by a positive number is not larger than the dividend. -/
lemma tdiv_mem (a : ℤ) {d : ℤ} (hd : 0 < d) : min a 0 ≤ a.tdiv d ∧ a.tdiv d ≤ max a 0 := by
  rcases le_total 0 a with ha | ha
  · have hq := Int.tdiv_eq_ediv_of_nonneg (b := d) ha
    have hle : a / d ≤ a := Int.ediv_le_self d ha
    have hnonneg : 0 ≤ a / d := Int.ediv_nonneg ha hd.le
    omega
  · have hq : a.tdiv d = -(-a / d) := by
      rw [← Int.tdiv_eq_ediv_of_nonneg (by omega), Int.neg_tdiv, neg_neg]
    have hle : -a / d ≤ -a := Int.ediv_le_self d (by omega)
    have hnonneg : 0 ≤ -a / d := Int.ediv_nonneg (by omega) hd.le
    omega

/-- A quotient by a positive number does not wrap around. -/
lemma toInt_sdiv_of_pos (hw : 0 < w) (x : BitVec w) {d : BitVec w} (hd : 0 < d.toInt) :
    (x.sdiv d).toInt = x.toInt.tdiv d.toInt := by
  have hmem := tdiv_mem x.toInt hd
  have hlow := BitVec.le_toInt x
  have hhigh := BitVec.toInt_lt (x := x)
  rw [sdiv_eq_ofInt]
  exact toInt_ofInt_eq_self hw (by omega) (by omega)

/-- Dividing twice is dividing by the product. -/
lemma tdiv_tdiv (a : ℤ) {b : ℤ} (hb : 0 < b) (c : ℤ) : (a.tdiv b).tdiv c = a.tdiv (b * c) := by
  have hnonneg (a : ℤ) (ha : 0 ≤ a) : (a.tdiv b).tdiv c = a.tdiv (b * c) := by
    rw [tdiv_eq_ediv_of_nonneg ha, tdiv_eq_ediv_of_nonneg (ediv_nonneg ha hb.le),
      tdiv_eq_ediv_of_nonneg ha, ediv_ediv_of_nonneg hb.le]
  rcases le_total 0 a with ha | ha
  · exact hnonneg a ha
  · have h := hnonneg (-a) (by omega)
    rwa [Int.neg_tdiv, Int.neg_tdiv, Int.neg_tdiv, neg_inj] at h

/-- A quotient, read as an unsigned number. -/
lemma toNat_sdiv (x s : BitVec w) : ((x.sdiv s).toNat : ℤ) = x.toInt.tdiv s.toInt % 2 ^ w := by
  have h := bmod_emod (x := x.toInt.tdiv s.toInt) (m := 2 ^ w)
  rw [Nat.cast_pow, Nat.cast_ofNat] at h
  rw [toNat_eq, BitVec.toInt_sdiv, h]

/-- If the numerator has wrapped around, the quotient is too large, or zero, unless the divisor is one. -/
lemma neg_ediv_emod_eq_iff {H n s : ℤ} (hs : 0 < s) (hn : s ≤ n) (hn' : n < 2 * H) :
    -((2 * H - n) / s) % (2 * H) = n / s ↔ s = 1 := by
  have hq : n / s * s ≤ n := Int.ediv_mul_le n hs.ne'
  have hq1 : 1 ≤ n / s := (Int.le_ediv_iff_mul_le hs).2 (by omega)
  have hd : (2 * H - n) / s * s ≤ 2 * H - n := Int.ediv_mul_le _ hs.ne'
  have hd0 : 0 ≤ (2 * H - n) / s := Int.ediv_nonneg (by omega) hs.le
  rcases (Int.add_one_le_iff.2 hs).eq_or_lt with hone | htwo
  · rw [← hone, zero_add, Int.ediv_one, Int.ediv_one, neg_sub, Int.sub_emod_right,
      Int.emod_eq_of_lt (by omega) hn']
    simp
  refine iff_of_false ?_ htwo.ne'
  generalize n / s = q at *
  generalize (2 * H - n) / s = d at *
  have hq2 : q * 2 ≤ q * s := Int.mul_le_mul_of_nonneg_left htwo (by omega)
  have hd2 : d * 2 ≤ d * s := Int.mul_le_mul_of_nonneg_left htwo hd0
  rcases hd0.eq_or_lt with hzero | hpos
  · rw [← hzero, neg_zero, Int.zero_emod]
    omega
  · rw [← Int.add_emod_right, Int.emod_eq_of_lt (by omega) (by omega)]
    omega

/-- The quotient of two positive or two negative numbers. -/
lemma toNat_sdiv_eq_iff (hw : 0 < w) {δ n s : ℤ} {x : BitVec w} (hδ : δ = 1 ∨ δ = -1)
    (hx : x.toInt = δ * s) (hs : 0 < s) (hn : s ≤ n) (hn' : n < 2 ^ w) :
    ((ofInt w (δ * n)).sdiv x).toNat = (n / s).toNat ↔
      s = 1 ∨ -2 ^ (w - 1) ≤ δ * n ∧ δ * n < 2 ^ (w - 1) := by
  have hpow := two_pow_eq hw
  have hq : n / s ≤ n := ediv_le_self s (by omega)
  have hq0 : 0 ≤ n / s := ediv_nonneg (by omega) hs.le
  have hdiv (a : ℤ) : (δ * a).tdiv (δ * s) = a.tdiv s := by
    rcases hδ with rfl | rfl <;> simp [Int.neg_tdiv, Int.tdiv_neg]
  rw [← Nat.cast_inj (R := ℤ), toNat_of_nonneg hq0, toNat_sdiv, hx, hpow]
  by_cases hmem : -2 ^ (w - 1) ≤ δ * n ∧ δ * n < 2 ^ (w - 1)
  · refine iff_of_true ?_ (.inr hmem)
    rw [toInt_ofInt_eq_self hw hmem.1 hmem.2, hdiv, tdiv_eq_ediv_of_nonneg (by omega),
      emod_eq_of_lt hq0 (by omega)]
  · -- the numerator has wrapped around once, to the other sign
    have hwrap : ofInt w (δ * n) = ofInt w (δ * -(2 * 2 ^ (w - 1) - n)) := by
      rw [ofInt_eq_ofInt_iff, ← hpow]
      exact ⟨δ, by ring⟩
    rw [hwrap, toInt_ofInt_eq_self hw (by rcases hδ with rfl | rfl <;> omega)
      (by rcases hδ with rfl | rfl <;> omega), hdiv, Int.neg_tdiv, Int.tdiv_eq_ediv_of_nonneg (by omega),
      neg_ediv_emod_eq_iff hs hn (by omega), or_iff_left hmem]

end Signed
