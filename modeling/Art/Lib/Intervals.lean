import Mathlib.Algebra.Order.Ring.Int

/-!
# Bounds of products, quotients and remainders

Products and truncated quotients of integers from two intervals, for each combination of signs, and
when the truncated remainders of an interval stay in it.
-/

namespace Interval

open Int

variable {l1 v1 h1 l2 v2 h2 : ℤ}

/-! ## Products -/

section

variable (h₁l : l1 ≤ v1) (h₁h : v1 ≤ h1) (h₂l : l2 ≤ v2) (h₂h : v2 ≤ h2)

include h₁l h₁h h₂l h₂h

lemma mul_mem_of_nonneg_of_nonneg (hl1 : 0 ≤ l1) (hl2 : 0 ≤ l2) : l1 * l2 ≤ v1 * v2 ∧ v1 * v2 ≤ h1 * h2 :=
  ⟨mul_le_mul h₁l h₂l hl2 (hl1.trans h₁l), mul_le_mul h₁h h₂h (hl2.trans h₂l) (hl1.trans (h₁l.trans h₁h))⟩

lemma mul_mem_of_nonneg_of_nonpos (hl1 : 0 ≤ l1) (hh2 : h2 ≤ 0) :
    h1 * l2 ≤ v1 * v2 ∧ v1 * v2 ≤ l1 * h2 := by
  have h := mul_mem_of_nonneg_of_nonneg h₁l h₁h (neg_le_neg h₂h) (neg_le_neg h₂l) hl1 (neg_nonneg.2 hh2)
  simp only [mul_neg, neg_le_neg_iff] at h
  exact ⟨h.2, h.1⟩

lemma mul_mem_of_nonpos_of_nonneg (hh1 : h1 ≤ 0) (hl2 : 0 ≤ l2) :
    l1 * h2 ≤ v1 * v2 ∧ v1 * v2 ≤ h1 * l2 := by
  have h := mul_mem_of_nonneg_of_nonpos h₂l h₂h h₁l h₁h hl2 hh1
  rwa [mul_comm h2, mul_comm v2, mul_comm l2] at h

lemma mul_mem_of_nonpos_of_nonpos (hh1 : h1 ≤ 0) (hh2 : h2 ≤ 0) :
    h1 * h2 ≤ v1 * v2 ∧ v1 * v2 ≤ l1 * l2 := by
  have h := mul_mem_of_nonneg_of_nonneg (neg_le_neg h₁h) (neg_le_neg h₁l) (neg_le_neg h₂h)
    (neg_le_neg h₂l) (neg_nonneg.2 hh1) (neg_nonneg.2 hh2)
  simpa only [neg_mul_neg] using h

/-! ## Truncated quotients -/

lemma tdiv_mem_of_nonneg_of_pos (hl1 : 0 ≤ l1) (hl2 : 0 < l2) :
    l1.tdiv h2 ≤ v1.tdiv v2 ∧ v1.tdiv v2 ≤ h1.tdiv l2 := by
  have hv1 := hl1.trans h₁l
  have hv2 := hl2.trans_le h₂l
  have hh2 := hv2.trans_le h₂h
  rw [tdiv_eq_ediv_of_nonneg hl1, tdiv_eq_ediv_of_nonneg hv1,
    tdiv_eq_ediv_of_nonneg (hv1.trans h₁h)]
  constructor
  · rw [Int.le_ediv_iff_mul_le hv2]
    calc l1 / h2 * v2 ≤ l1 / h2 * h2 := mul_le_mul_of_nonneg_left h₂h (ediv_nonneg hl1 hh2.le)
      _ ≤ l1 := Int.ediv_mul_le l1 hh2.ne'
      _ ≤ v1 := h₁l
  · rw [Int.le_ediv_iff_mul_le hl2]
    calc v1 / v2 * l2 ≤ v1 / v2 * v2 := mul_le_mul_of_nonneg_left h₂l (ediv_nonneg hv1 hv2.le)
      _ ≤ v1 := Int.ediv_mul_le v1 hv2.ne'
      _ ≤ h1 := h₁h

lemma tdiv_mem_of_nonneg_of_neg (hl1 : 0 ≤ l1) (hh2 : h2 < 0) :
    h1.tdiv h2 ≤ v1.tdiv v2 ∧ v1.tdiv v2 ≤ l1.tdiv l2 := by
  have h := tdiv_mem_of_nonneg_of_pos h₁l h₁h (neg_le_neg h₂h) (neg_le_neg h₂l) hl1 (neg_pos.2 hh2)
  simp only [Int.tdiv_neg, neg_le_neg_iff] at h
  exact ⟨h.2, h.1⟩

lemma tdiv_mem_of_nonpos_of_pos (hh1 : h1 ≤ 0) (hl2 : 0 < l2) :
    l1.tdiv l2 ≤ v1.tdiv v2 ∧ v1.tdiv v2 ≤ h1.tdiv h2 := by
  have h := tdiv_mem_of_nonneg_of_pos (neg_le_neg h₁h) (neg_le_neg h₁l) h₂l h₂h (neg_nonneg.2 hh1) hl2
  simp only [Int.neg_tdiv, neg_le_neg_iff] at h
  exact ⟨h.2, h.1⟩

lemma tdiv_mem_of_nonpos_of_neg (hh1 : h1 ≤ 0) (hh2 : h2 < 0) :
    h1.tdiv l2 ≤ v1.tdiv v2 ∧ v1.tdiv v2 ≤ l1.tdiv h2 := by
  have h := tdiv_mem_of_nonneg_of_pos (neg_le_neg h₁h) (neg_le_neg h₁l) (neg_le_neg h₂h)
    (neg_le_neg h₂l) (neg_nonneg.2 hh1) (neg_pos.2 hh2)
  simpa only [Int.neg_tdiv_neg] using h

end

lemma tdiv_le_tdiv_of_neg {a b c : ℤ} (hc : c < 0) (h : a ≤ b) : b.tdiv c ≤ a.tdiv c := by
  have hneg := Int.tdiv_le_tdiv (neg_pos.2 hc) h
  simpa only [Int.tdiv_neg, neg_le_neg_iff] using hneg

/-! ## Remainders -/

/-- A truncated remainder lies between the dividend and zero. -/
lemma tmod_mem (x d : ℤ) : min x 0 ≤ x.tmod d ∧ x.tmod d ≤ max x 0 := by
  have habs : (x.tmod d).natAbs ≤ x.natAbs := by
    rw [natAbs_tmod]
    exact Nat.mod_le _ _
  rcases le_total 0 x with hx | hx
  · have hnonneg : 0 ≤ x.tmod d := tmod_nonneg d hx
    omega
  · have hnonneg : 0 ≤ (-x).tmod d := tmod_nonneg d (by omega)
    rw [neg_tmod] at hnonneg
    omega

variable {d : ℤ}

lemma tmod_abs_lt (x : ℤ) (hd : d ≠ 0) : -|d| < x.tmod d ∧ x.tmod d < |d| := by
  have h : |x.tmod d| < |d| := by
    rw [abs_eq_natAbs, abs_eq_natAbs, natAbs_tmod]
    exact_mod_cast Nat.mod_lt _ (natAbs_pos.2 hd)
  exact abs_lt.1 h

lemma tmod_eq_self {x d : ℤ} (h : |x| < |d|) : x.tmod d = x := by
  rw [abs_eq_natAbs, abs_eq_natAbs] at h
  have hnat : (x.tmod d).natAbs = x.natAbs := by
    rw [natAbs_tmod]
    exact Nat.mod_eq_of_lt (by exact_mod_cast h)
  have hmem := tmod_mem x d
  omega

/-- The remainders of the numbers of an interval stay above its lower end exactly if that is not
    positive, or all the numbers are below the divisor. -/
lemma forall_le_tmod_iff (lo hi : ℤ) (hd : d ≠ 0) :
    (∀ x, lo ≤ x → x ≤ hi → lo ≤ x.tmod d) ↔ hi < lo ∨ lo ≤ 0 ∨ hi < |d| := by
  constructor
  · intro h
    by_contra hnot
    push Not at hnot
    obtain ⟨hle, hpos, hd'⟩ := hnot
    have hx := h (max lo |d|) (le_max_left _ _) (max_le hle hd')
    rcases le_total lo |d| with hlo | hlo
    · -- The divisor itself leaves nothing.
      rw [max_eq_right hlo] at hx
      have hzero : |d|.tmod d = 0 := by
        rcases abs_choice d with habs | habs <;> simp [habs, neg_tmod]
      omega
    · rw [max_eq_left hlo] at hx
      have hlt := tmod_abs_lt lo hd
      omega
  · rintro (hempty | hlo | hhi) x hx hx'
    · omega
    · have hmem := tmod_mem x d
      omega
    · rcases le_total lo 0 with hlo | hlo
      · have hmem := tmod_mem x d
        omega
      · rw [tmod_eq_self (by rw [abs_of_nonneg (hlo.trans hx)]; omega)]
        exact hx

/-- The same for the upper end. -/
lemma forall_tmod_le_iff (lo hi : ℤ) (hd : d ≠ 0) :
    (∀ x, lo ≤ x → x ≤ hi → x.tmod d ≤ hi) ↔ hi < lo ∨ 0 ≤ hi ∨ -|d| < lo := by
  have h : (∀ x, lo ≤ x → x ≤ hi → x.tmod d ≤ hi) ↔ ∀ x, -hi ≤ x → x ≤ -lo → -hi ≤ x.tmod d := by
    constructor
    all_goals
      intro h x hx hx'
      have hneg := h (-x) (by omega) (by omega)
      rw [neg_tmod] at hneg
      omega
  rw [h, forall_le_tmod_iff (-hi) (-lo) hd]
  omega

end Interval
