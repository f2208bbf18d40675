import Art.Lib.Intervals
import Art.Lib.Signed
import Art.InductionVar.Range

/-!
# The answers of the range analysis
-/

namespace Art

open Bool (and_eq_true)

open Value Interval
open BitVec (ofInt ofInt_mul ofInt_toInt signExtend)

variable {c : ℤ}

lemma canLongValueFitIntoInt_iff : canLongValueFitIntoInt c = true ↔ -2 ^ 31 ≤ c ∧ c < 2 ^ 31 := by
  rw [canLongValueFitIntoInt, and_eq_true, decide_eq_true_iff, decide_eq_true_iff]
  omega

/-! ## Symbolic values -/

/-- The number that an instruction stands for in an execution. -/
def Execution.number (env : Execution) : Option AnyInstruction → ℤ
  | none => 0
  | some ⟨_, i⟩ => (i.eval env).toInt

/-- The symbolic part of a value. -/
def Value.term (env : Execution) (v : Value) : ℤ := v.aConstant * env.number v.instruction

variable {env : Execution} {v₁ v₂ : Value} {v : Value}

lemma term_eq_zero (h : v.aConstant = 0) : v.term env = 0 := by
  rw [Value.term, h, zero_mul]

lemma term_linear (i : Option AnyInstruction) (a b : ℤ) : (linear i a b).term env = a * env.number i := by
  by_cases h : a = 0
  · simp [linear, term, h]
  · simp [linear, term, h]

lemma term_ofConstant (b : ℤ) : (ofConstant b).term env = 0 := term_eq_zero rfl

/-- What is known of a result that is known: the operands are known, and the constant fits. -/
structure Computed (v₁ v₂ v : Value) (b : ℤ) : Prop where
  left : v₁.isKnown = true
  right : v₂.isKnown = true
  fits : canLongValueFitIntoInt b = true
  bConstant_eq : v.bConstant = b

lemma addValue_spec (env : Execution) (h : (addValue v₁ v₂).isKnown = true) :
    Computed v₁ v₂ (addValue v₁ v₂) (v₁.bConstant + v₂.bConstant) ∧
      (addValue v₁ v₂).term env = v₁.term env + v₂.term env ∧
        (addValue v₁ v₂).aConstant = v₁.aConstant + v₂.aConstant := by
  unfold addValue at h ⊢
  split_ifs at h ⊢ with hknown h1 h2 h3
  any_goals
    rw [and_eq_true, and_eq_true] at hknown
    refine ⟨⟨hknown.1.1, hknown.1.2, hknown.2, rfl⟩, ?_⟩
  · rw [term_linear, term_eq_zero h1, zero_add, h1, zero_add]
    exact ⟨rfl, rfl⟩
  · rw [term_linear, term_eq_zero h2, add_zero, h2, add_zero]
    exact ⟨rfl, rfl⟩
  · rw [term_linear, add_mul, Value.term, Value.term, h3.1]
    exact ⟨rfl, rfl⟩
  · cases h
  · cases h

lemma subValue_spec (env : Execution) (h : (subValue v₁ v₂).isKnown = true) :
    Computed v₁ v₂ (subValue v₁ v₂) (v₁.bConstant - v₂.bConstant) ∧
      (subValue v₁ v₂).term env = v₁.term env - v₂.term env ∧
        (subValue v₁ v₂).aConstant = v₁.aConstant - v₂.aConstant := by
  unfold subValue at h ⊢
  split_ifs at h ⊢ with hknown h1 h2 h3
  any_goals
    rw [and_eq_true, and_eq_true] at hknown
    refine ⟨⟨hknown.1.1, hknown.1.2, hknown.2, rfl⟩, ?_⟩
  · rw [term_linear, term_eq_zero h1.1, zero_sub, neg_mul, h1.1, zero_sub]
    exact ⟨rfl, rfl⟩
  · rw [term_linear, term_eq_zero h2, sub_zero, h2, sub_zero]
    exact ⟨rfl, rfl⟩
  · rw [term_linear, sub_mul, term, term, h3.1]
    exact ⟨rfl, rfl⟩
  · cases h
  · cases h

/-- One of the operands of a product is a constant. -/
lemma mulValue_spec (env : Execution) (h : (mulValue v₁ v₂).isKnown = true) :
    Computed v₁ v₂ (mulValue v₁ v₂) (v₁.bConstant * v₂.bConstant) ∧
      (mulValue v₁ v₂).term env = v₁.bConstant * v₂.term env + v₁.term env * v₂.bConstant := by
  unfold mulValue at h ⊢
  split_ifs at h ⊢ with hknown h1 hfits h2 hfits
  · rw [and_eq_true] at hknown hfits
    refine ⟨⟨hknown.1, hknown.2, hfits.2, rfl⟩, ?_⟩
    rw [term_linear, term_eq_zero h1, zero_mul, add_zero, mul_assoc]
    rfl
  · cases h
  · rw [and_eq_true] at hknown hfits
    refine ⟨⟨hknown.1, hknown.2, hfits.2, rfl⟩, ?_⟩
    rw [term_linear, term_eq_zero h2, mul_zero, zero_add, mul_right_comm]
    rfl
  · cases h
  · cases h
  · cases h

lemma divValue_spec (env : Execution) (h : (divValue v₁ v₂).isKnown = true) :
    Computed v₁ v₂ (divValue v₁ v₂) (v₁.bConstant.tdiv v₂.bConstant) ∧ v₁.term env = 0 ∧
      v₂.term env = 0 ∧ v₂.bConstant ≠ 0 ∧ (divValue v₁ v₂).term env = 0 := by
  unfold divValue at h ⊢
  split_ifs at h ⊢ with hknown hsafe
  · simp only [and_eq_true, decide_eq_true_iff] at hknown hsafe
    exact ⟨⟨hknown.1.1.1, hknown.1.1.2, hsafe.2, rfl⟩, term_eq_zero hknown.1.2,
      term_eq_zero hknown.2, hsafe.1, term_ofConstant _⟩
  · cases h
  · cases h

/-! ## Bounds -/

/-- If both values are known, they are bounds of a number of a fixed width, up to wrapping around. -/
def Encloses (env : Execution) {w : ℕ} (low high : Value) (x : BitVec w) : Prop :=
  low.isKnown = true → high.isKnown = true →
    low.term env = high.term env ∧ canLongValueFitIntoInt low.bConstant = true ∧
      canLongValueFitIntoInt high.bConstant = true ∧
      ∃ v, low.bConstant ≤ v ∧ v ≤ high.bConstant ∧ x = BitVec.ofInt w (low.term env + v)

variable {w : ℕ} {x y : BitVec w} {low high low1 high1 low2 high2 : Value}

lemma encloses_unknown : Encloses env unknown high x := nofun

lemma encloses_ofConstant {b : ℤ} (hb : canLongValueFitIntoInt b = true)
    (hc : canLongValueFitIntoInt c = true) (hbx : b ≤ x.toInt) (hxc : x.toInt ≤ c) :
    Encloses env (ofConstant b) (ofConstant c) x := by
  intro _ _
  refine ⟨rfl, hb, hc, x.toInt, hbx, hxc, ?_⟩
  rw [term_ofConstant, zero_add, ofInt_toInt]

lemma encloses_itself {t : ControlType} (i : HInstruction t) :
    Encloses env i.itself i.itself (i.eval env) := by
  intro _ _
  refine ⟨rfl, rfl, rfl, 0, le_rfl, le_rfl, ?_⟩
  rw [HInstruction.itself, term_linear, one_mul, add_zero]
  exact (ofInt_toInt).symm

lemma Encloses.add (h1 : Encloses env low1 high1 x) (h2 : Encloses env low2 high2 y) :
    Encloses env (addValue low1 low2) (addValue high1 high2) (x + y) := by
  intro hlow hhigh
  obtain ⟨hl, hlterm, -⟩ := addValue_spec env hlow
  obtain ⟨hh, hhterm, -⟩ := addValue_spec env hhigh
  obtain ⟨hterm1, -, -, v, hlv, hvh, rfl⟩ := h1 hl.left hh.left
  obtain ⟨hterm2, -, -, u, hlu, huh, rfl⟩ := h2 hl.right hh.right
  rw [hlterm, hhterm, hl.bConstant_eq, hh.bConstant_eq, ← BitVec.ofInt_add]
  refine ⟨by rw [hterm1, hterm2], hl.fits, hh.fits, v + u, by omega, by omega, ?_⟩
  congr 1
  ring

lemma Encloses.sub (h1 : Encloses env low1 high1 x) (h2 : Encloses env low2 high2 y) :
    Encloses env (subValue low1 high2) (subValue high1 low2) (x - y) := by
  intro hlow hhigh
  obtain ⟨hl, hlterm, -⟩ := subValue_spec env hlow
  obtain ⟨hh, hhterm, -⟩ := subValue_spec env hhigh
  obtain ⟨hterm1, -, -, v, hlv, hvh, rfl⟩ := h1 hl.left hh.left
  obtain ⟨hterm2, -, -, u, hlu, huh, rfl⟩ := h2 hh.right hl.right
  rw [hlterm, hhterm, hl.bConstant_eq, hh.bConstant_eq, ← Signed.ofInt_sub]
  refine ⟨by rw [hterm1, hterm2], hl.fits, hh.fits, v - u, by omega, by omega, ?_⟩
  congr 1
  rw [hterm2]
  ring

variable (h : Encloses env low high x)

include h in
/-- Bounds without a symbolic part are bounds of the signed number. -/
lemma Encloses.mem_of_term_eq_zero (hw : 32 ≤ w) (hlow : low.isKnown = true)
    (hhigh : high.isKnown = true) (hterm : low.term env = 0) :
    low.bConstant ≤ x.toInt ∧ x.toInt ≤ high.bConstant := by
  obtain ⟨-, hfits, hfits', v, hlv, hvh, rfl⟩ := h hlow hhigh
  rw [canLongValueFitIntoInt_iff] at hfits hfits'
  have hpow : (2 : ℤ) ^ 31 ≤ 2 ^ (w - 1) := pow_le_pow_right₀ (by decide) (by omega)
  rw [hterm, zero_add, BitVec.toInt_ofInt_eq_self (by omega) (by omega) (by omega)]
  exact ⟨hlv, hvh⟩

variable {value : ℤ} {range : Bool → Value}

include h in
/-- A negative constant exchanges the bounds. -/
lemma Encloses.mul {l u : Value}
    (hlu : 0 ≤ value ∧ l = low ∧ u = high ∨ value ≤ 0 ∧ l = high ∧ u = low) (hy : y = ofInt w value) :
    Encloses env (mulValue l (ofConstant value)) (mulValue u (ofConstant value)) (x * y) := by
  intro hlow hhigh
  obtain ⟨hl, hlterm⟩ := mulValue_spec env hlow
  obtain ⟨hh, hhterm⟩ := mulValue_spec env hhigh
  rw [hlterm, hhterm, hl.bConstant_eq, hh.bConstant_eq, term_ofConstant, mul_zero, zero_add, mul_zero,
    zero_add, hy]
  rcases hlu with ⟨hvalue, rfl, rfl⟩ | ⟨hvalue, rfl, rfl⟩
  · obtain ⟨hterm, -, -, v, hlv, hvh, rfl⟩ := h hl.left hh.left
    rw [← ofInt_mul, add_mul]
    exact ⟨by rw [hterm], hl.fits, hh.fits, v * value, mul_le_mul_of_nonneg_right hlv hvalue,
      mul_le_mul_of_nonneg_right hvh hvalue, rfl⟩
  · obtain ⟨hterm, -, -, v, hlv, hvh, rfl⟩ := h hh.left hl.left
    rw [← ofInt_mul, add_mul, hterm]
    exact ⟨rfl, hl.fits, hh.fits, v * value, mul_le_mul_of_nonpos_right hvh hvalue,
      mul_le_mul_of_nonpos_right hlv hvalue, rfl⟩

lemma encloses_mulRangeAndConstant (h : Encloses env (range true) (range false) x)
    (hy : y = ofInt w value) :
    Encloses env (mulRangeAndConstant value range true) (mulRangeAndConstant value range false)
      (x * y) := by
  unfold mulRangeAndConstant
  split
  next =>
    by_cases hvalue : value ≥ 0
    · rw [decide_eq_true hvalue]
      exact h.mul (.inl ⟨hvalue, rfl, rfl⟩) hy
    · rw [decide_eq_false hvalue]
      exact h.mul (.inr ⟨by omega, rfl, rfl⟩) hy
  next => exact encloses_unknown

/-! ## Products and quotients of ranges -/

variable {a b c d : Value}

lemma isNonneg_iff : v.isNonneg = true ↔ v.isKnown = true ∧ v.aConstant = 0 ∧ 0 ≤ v.bConstant := by
  simp only [Value.isNonneg, isConstantValue, and_eq_true, decide_eq_true_iff, ge_iff_le, and_assoc]

lemma isNonpos_iff : v.isNonpos = true ↔ v.isKnown = true ∧ v.aConstant = 0 ∧ v.bConstant ≤ 0 := by
  simp only [Value.isNonpos, isConstantValue, and_eq_true, decide_eq_true_iff, and_assoc]

include h in
/-- The bounds, if one of them has no symbolic part. -/
lemma Encloses.mem (hw : 32 ≤ w) (hlow : low.isKnown = true) (hhigh : high.isKnown = true)
    (hconst : low.aConstant = 0 ∨ high.aConstant = 0) :
    low.term env = 0 ∧ high.term env = 0 ∧ low.bConstant ≤ x.toInt ∧ x.toInt ≤ high.bConstant := by
  have hterm := (h hlow hhigh).1
  have hzero : low.term env = 0 := by
    rcases hconst with hconst | hconst
    · exact term_eq_zero hconst
    · rw [hterm, term_eq_zero hconst]
  exact ⟨hzero, hterm ▸ hzero, h.mem_of_term_eq_zero hw hlow hhigh hzero⟩

/-- Products are bounds if they are bounds of the product of the signed numbers. -/
lemma encloses_mulValue (h : a.isKnown = true → b.isKnown = true → c.isKnown = true →
      d.isKnown = true → (a.term env = 0 ∧ b.term env = 0) ∧ (c.term env = 0 ∧ d.term env = 0) ∧
        a.bConstant * b.bConstant ≤ x.toInt * y.toInt ∧ x.toInt * y.toInt ≤ c.bConstant * d.bConstant) :
    Encloses env (mulValue a b) (mulValue c d) (x * y) := by
  intro hlow hhigh
  obtain ⟨hl, hlterm⟩ := mulValue_spec env hlow
  obtain ⟨hh, hhterm⟩ := mulValue_spec env hhigh
  obtain ⟨⟨ha, hb⟩, ⟨hc, hd⟩, hle, hle'⟩ := h hl.left hl.right hh.left hh.right
  rw [hlterm, hhterm, hl.bConstant_eq, hh.bConstant_eq, ha, hb, hc, hd, mul_zero, mul_zero, zero_mul,
    zero_mul]
  refine ⟨rfl, hl.fits, hh.fits, _, hle, hle', ?_⟩
  rw [zero_add, zero_add, ofInt_mul, ofInt_toInt, ofInt_toInt]

/-- Quotients are bounds if they are bounds of the quotient of the signed numbers. -/
lemma encloses_divValue
    (h : a.isKnown = true ∧ b.isKnown = true ∧ a.term env = 0 ∧ b.bConstant ≠ 0 →
      c.isKnown = true ∧ d.isKnown = true ∧ c.term env = 0 ∧ d.bConstant ≠ 0 →
      a.bConstant.tdiv b.bConstant ≤ x.toInt.tdiv y.toInt ∧
        x.toInt.tdiv y.toInt ≤ c.bConstant.tdiv d.bConstant) :
    Encloses env (divValue a b) (divValue c d) (x.sdiv y) := by
  intro hlow hhigh
  obtain ⟨hl, ha, -, hb, hlterm⟩ := divValue_spec env hlow
  obtain ⟨hh, hc, -, hd, hhterm⟩ := divValue_spec env hhigh
  obtain ⟨hle, hle'⟩ := h ⟨hl.left, hl.right, ha, hb⟩ ⟨hh.left, hh.right, hc, hd⟩
  rw [hlterm, hhterm, hl.bConstant_eq, hh.bConstant_eq]
  refine ⟨rfl, hl.fits, hh.fits, _, hle, hle', ?_⟩
  rw [zero_add, ← BitVec.toInt_inj, BitVec.toInt_sdiv, BitVec.toInt_ofInt]

variable {range1 range2 : Bool → Value} (hw : 32 ≤ w) (h1 : Encloses env (range1 true) (range1 false) x)
  (h2 : Encloses env (range2 true) (range2 false) y)

include hw h1 h2 in
lemma encloses_mulRanges :
    Encloses env (mulRanges range1 range2 true) (mulRanges range1 range2 false) (x * y) := by
  unfold mulRanges
  simp only [and_eq_true, isNonneg_iff, isNonpos_iff, if_true, if_false, Bool.false_eq_true]
  split_ifs with hpp hpn hnp hnn
  · refine encloses_mulValue fun k1 k2 k3 k4 => ?_
    obtain ⟨t1, t2, hl, hh⟩ := h1.mem hw k1 k3 (.inl hpp.1.2.1)
    obtain ⟨t3, t4, hl', hh'⟩ := h2.mem hw k2 k4 (.inl hpp.2.2.1)
    exact ⟨⟨t1, t3⟩, ⟨t2, t4⟩, mul_mem_of_nonneg_of_nonneg hl hh hl' hh' hpp.1.2.2 hpp.2.2.2⟩
  · refine encloses_mulValue fun k1 k2 k3 k4 => ?_
    obtain ⟨t1, t2, hl, hh⟩ := h1.mem hw k3 k1 (.inl hpn.1.2.1)
    obtain ⟨t3, t4, hl', hh'⟩ := h2.mem hw k2 k4 (.inr hpn.2.2.1)
    exact ⟨⟨t2, t3⟩, ⟨t1, t4⟩, mul_mem_of_nonneg_of_nonpos hl hh hl' hh' hpn.1.2.2 hpn.2.2.2⟩
  · refine encloses_mulValue fun k1 k2 k3 k4 => ?_
    obtain ⟨t1, t2, hl, hh⟩ := h1.mem hw k1 k3 (.inr hnp.1.2.1)
    obtain ⟨t3, t4, hl', hh'⟩ := h2.mem hw k4 k2 (.inl hnp.2.2.1)
    exact ⟨⟨t1, t4⟩, ⟨t2, t3⟩, mul_mem_of_nonpos_of_nonneg hl hh hl' hh' hnp.1.2.2 hnp.2.2.2⟩
  · refine encloses_mulValue fun k1 k2 k3 k4 => ?_
    obtain ⟨t1, t2, hl, hh⟩ := h1.mem hw k3 k1 (.inr hnn.1.2.1)
    obtain ⟨t3, t4, hl', hh'⟩ := h2.mem hw k4 k2 (.inr hnn.2.2.1)
    exact ⟨⟨t2, t4⟩, ⟨t1, t3⟩, mul_mem_of_nonpos_of_nonpos hl hh hl' hh' hnn.1.2.2 hnn.2.2.2⟩
  · exact encloses_unknown

include hw h1 h2 in
/-- A divisor of zero is refused for one of the bounds, so the divisor has one sign. -/
lemma encloses_divRanges :
    Encloses env (divRanges range1 range2 true) (divRanges range1 range2 false) (x.sdiv y) := by
  unfold divRanges
  simp only [and_eq_true, isNonneg_iff, isNonpos_iff, if_true, if_false, Bool.false_eq_true]
  split_ifs with hpp hpn hnp hnn
  · refine encloses_divValue fun ⟨k1, k2, _⟩ ⟨k3, k4, _, hne⟩ => ?_
    obtain ⟨-, -, hxl, hxh⟩ := h1.mem hw k1 k3 (.inl hpp.1.2.1)
    obtain ⟨-, -, hyl, hyh⟩ := h2.mem hw k4 k2 (.inl hpp.2.2.1)
    exact tdiv_mem_of_nonneg_of_pos hxl hxh hyl hyh hpp.1.2.2 (hpp.2.2.2.lt_of_ne' hne)
  · refine encloses_divValue fun ⟨k1, k2, _, hne⟩ ⟨k3, k4, _⟩ => ?_
    obtain ⟨-, -, hxl, hxh⟩ := h1.mem hw k3 k1 (.inl hpn.1.2.1)
    obtain ⟨-, -, hyl, hyh⟩ := h2.mem hw k4 k2 (.inr hpn.2.2.1)
    exact tdiv_mem_of_nonneg_of_neg hxl hxh hyl hyh hpn.1.2.2 (hpn.2.2.2.lt_of_ne hne)
  · refine encloses_divValue fun ⟨k1, k2, _, hne⟩ ⟨k3, k4, _⟩ => ?_
    obtain ⟨-, -, hxl, hxh⟩ := h1.mem hw k1 k3 (.inr hnp.1.2.1)
    obtain ⟨-, -, hyl, hyh⟩ := h2.mem hw k2 k4 (.inl hnp.2.2.1)
    exact tdiv_mem_of_nonpos_of_pos hxl hxh hyl hyh hnp.1.2.2 (hnp.2.2.2.lt_of_ne' hne)
  · refine encloses_divValue fun ⟨k1, k2, _⟩ ⟨k3, k4, _, hne⟩ => ?_
    obtain ⟨-, -, hxl, hxh⟩ := h1.mem hw k3 k1 (.inr hnn.1.2.1)
    obtain ⟨-, -, hyl, hyh⟩ := h2.mem hw k2 k4 (.inr hnn.2.2.1)
    exact tdiv_mem_of_nonpos_of_neg hxl hxh hyl hyh hnn.1.2.2 (hnn.2.2.2.lt_of_ne hne)
  · exact encloses_unknown

lemma encloses_divRangeAndConstant (hw : 32 ≤ w) (h : Encloses env (range true) (range false) x)
    (hy : y.toInt = value) :
    Encloses env (divRangeAndConstant value range true) (divRangeAndConstant value range false)
      (x.sdiv y) := by
  unfold divRangeAndConstant
  split
  next =>
    by_cases hvalue : value ≥ 0
    · rw [decide_eq_true hvalue]
      refine encloses_divValue fun ⟨k1, _, hzero, hne⟩ ⟨k2, _⟩ => ?_
      have hmem := h.mem_of_term_eq_zero hw k1 k2 hzero
      have hpos : 0 < value := lt_of_le_of_ne hvalue hne.symm
      rw [hy]
      exact ⟨Int.tdiv_le_tdiv hpos hmem.1, Int.tdiv_le_tdiv hpos hmem.2⟩
    · rw [decide_eq_false hvalue]
      refine encloses_divValue fun ⟨k1, _⟩ ⟨k2, _, hzero, _⟩ => ?_
      have hmem := h.mem_of_term_eq_zero hw k2 k1 hzero
      have hneg : value < 0 := by omega
      rw [hy]
      exact ⟨tdiv_le_tdiv_of_neg hneg hmem.2, tdiv_le_tdiv_of_neg hneg hmem.1⟩
  next => exact encloses_unknown

/-! ## Fetches -/

variable {t : ControlType} {chaseHint : Option AnyInstruction}

lemma ControlType.le_width (t : ControlType) : 32 ≤ t.width := by
  cases t <;> decide

namespace HInstruction

/-- The int instruction whose conversion to long is chased. -/
def widened (chaseHint : Option AnyInstruction) :
    {t : ControlType} → HInstruction t → Option (HInstruction .int32)
  | t, add id left right =>
    if some ⟨t, add id left right⟩ = chaseHint then none
    else
      match left.getInt, right.getInt with
      | some _, _ => right.widened chaseHint
      | none, some _ => left.widened chaseHint
      | none, none => none
  | t, sub id left right =>
    if some ⟨t, sub id left right⟩ = chaseHint then none
    else
      match left.getInt, right.getInt with
      | some _, _ => right.widened chaseHint
      | none, some _ => left.widened chaseHint
      | none, none => none
  | _, typeConversion id input =>
    if some ⟨.int64, typeConversion id input⟩ = chaseHint then none else some input
  | _, _ => none

/-- An int sum that is chased through a conversion to long does not overflow. -/
def WidensExactly (chaseHint : Option AnyInstruction) (env : Execution) (i : HInstruction t) : Prop :=
  ∀ input, i.widened chaseHint = some input → ∀ isMin, (input.getFetch chaseHint isMin).isKnown = true →
    (input.getFetch chaseHint isMin).aConstant ≠ 0 →
    canLongValueFitIntoInt ((input.getFetch chaseHint isMin).term env +
      (input.getFetch chaseHint isMin).bConstant) = true

variable {i : HInstruction t}

lemma eval_of_getInt (env : Execution) (h : i.getInt = some value) :
    (i.eval env).toInt = value ∧ canLongValueFitIntoInt value = true := by
  cases i with
  | constant c =>
    rw [getInt] at h
    split at h
    next hfits =>
      cases h
      exact ⟨rfl, hfits⟩
    next => cases h
  | _ => cases h

lemma encloses_getInt (h : i.getInt = some value) :
    Encloses env (ofConstant value) (ofConstant value) (i.eval env) := by
  obtain ⟨heval, hfits⟩ := eval_of_getInt env h
  exact encloses_ofConstant hfits hfits heval.ge heval.le

lemma widened_of_int32 (ht : t = .int32) : i.widened chaseHint = none := by
  induction i with
  | add id left right ihl ihr | sub id left right ihl ihr =>
    rw [widened]
    split
    · rfl
    · split
      · exact ihr ht
      · exact ihl ht
      · rfl
  | typeConversion id input => cases ht
  | _ => rfl

lemma widensExactly_of_int32 (i : HInstruction .int32) : i.WidensExactly chaseHint env := by
  intro input hinput
  rw [widened_of_int32 rfl] at hinput
  cases hinput

/-- The bounds of an int sum that does not overflow are bounds of the long that it is converted to. -/
lemma encloses_signExtend {x : BitVec 32} (h : Encloses env low high x)
    (hlow : low.isKnown = true → low.aConstant ≠ 0 →
      canLongValueFitIntoInt (low.term env + low.bConstant) = true)
    (hhigh : high.isKnown = true → high.aConstant ≠ 0 →
      canLongValueFitIntoInt (high.term env + high.bConstant) = true) :
    Encloses env low high (x.signExtend 64) := by
  intro hl hh
  obtain ⟨hterm, hfits, hfits', v, hlv, hvh, rfl⟩ := h hl hh
  have hsum : ∀ u : Value, canLongValueFitIntoInt u.bConstant = true →
      (u.isKnown = true → u.aConstant ≠ 0 → canLongValueFitIntoInt (u.term env + u.bConstant) = true) →
      u.isKnown = true → canLongValueFitIntoInt (u.term env + u.bConstant) = true := by
    intro u hu hcond hknown
    by_cases hzero : u.aConstant = 0
    · rwa [term_eq_zero hzero, zero_add]
    · exact hcond hknown hzero
  have hl' := canLongValueFitIntoInt_iff.1 (hsum low hfits hlow hl)
  have hh' := canLongValueFitIntoInt_iff.1 (hsum high hfits' hhigh hh)
  refine ⟨hterm, hfits, hfits', v, hlv, hvh, ?_⟩
  rw [signExtend, BitVec.toInt_ofInt_eq_self (by decide)]
  · omega
  · omega

/-- An array length, without a chase hint. -/
lemma encloses_length {x : BitVec 32} (hx : 0 ≤ x.toInt) :
    Encloses env (ofConstant 0) (ofConstant (2 ^ 31 - 1)) x :=
  encloses_ofConstant (by decide) (by decide) hx (by have := BitVec.toInt_lt (x := x); omega)

/-- The bounds of a fetch. By induction on the instruction, as it is chased. -/
lemma encloses_getFetch (i : HInstruction t) (hcreated : i.ArraysCreated env)
    (hwiden : i.WidensExactly chaseHint env) :
    Encloses env (i.getFetch chaseHint true) (i.getFetch chaseHint false) (i.eval env) := by
  induction i with
  | constant value =>
    rw [getFetch, getFetch]
    split
    next hfits => exact encloses_ofConstant hfits hfits le_rfl le_rfl
    next => exact encloses_itself _
  | add id left right ihl ihr | sub id left right ihl ihr =>
    rw [getFetch, getFetch]
    rw [WidensExactly, widened] at hwiden
    split
    next => exact encloses_itself _
    next hne =>
      rw [if_neg hne] at hwiden
      cases hl : left.getInt with
      | some value =>
        rw [hl] at hwiden
        have hright := ihr hcreated.2 hwiden
        first
          | exact (encloses_getInt hl).add hright
          | exact (encloses_getInt hl).sub hright
      | none =>
        rw [hl] at hwiden
        cases hr : right.getInt with
        | some value =>
          rw [hr] at hwiden
          have hleft := ihl hcreated.1 hwiden
          first
            | exact hleft.add (encloses_getInt hr)
            | exact hleft.sub (encloses_getInt hr)
        | none => exact encloses_itself _
  | arrayLength id =>
    rw [getFetch, getFetch]
    split
    next =>
      refine encloses_length ?_
      have hlt := env.length_lt id
      rw [eval, ← BitVec.ofInt_natCast, BitVec.toInt_ofInt_eq_self (by decide)]
      · omega
      · omega
      · omega
    next => exact encloses_itself _
  | newArrayLength id length ih =>
    rw [getFetch, getFetch]
    split
    next => exact encloses_itself _
    next =>
      split
      next => exact encloses_length hcreated.1
      next => exact ih hcreated.2 (widensExactly_of_int32 length)
  | typeConversion id input ih =>
    rw [getFetch, getFetch]
    rw [WidensExactly, widened] at hwiden
    split
    next => exact encloses_itself _
    next hne =>
      rw [if_neg hne] at hwiden
      exact encloses_signExtend (ih hcreated (widensExactly_of_int32 input))
        (hwiden input rfl true) (hwiden input rfl false)
  | other id => exact encloses_itself _

end HInstruction

/-! ## Invariants -/

/-- The instructions that an invariant fetches. -/
def Invariant.fetches {ι : Type} {w : ℕ} : Invariant ι w → List ι
  | .fetch instruction => [instruction]
  | .constant _ => []
  | .neg b => b.fetches
  | .op _ a b => a.fetches ++ b.fetches

/-- What an answer to a request says of a number. -/
def ConstantRequest.Holds : ConstantRequest → ℤ → ℤ → Prop
  | .exact, value, x => x = value
  | .atMost, value, x => x ≤ value
  | .atLeast, value, x => value ≤ x

variable {info : TypedInvariant t}

lemma eval_of_directConstant (env : Execution) (h : info.directConstant = some value) :
    (info.evalIn env).toInt = value := by
  unfold Invariant.directConstant at h
  split at h
  · exact Option.some.inj h
  · exact Option.some.inj h
  · cases h

variable (hrange : Encloses env (range true) (range false) (info.evalIn env))

include hrange in
lemma constantAnswer_sound {request : ConstantRequest}
    (h : constantAnswer request info.directConstant range = some value) :
    request.Holds value (info.evalIn env).toInt := by
  unfold constantAnswer at h
  split at h
  next direct hdirect =>
    cases h
    have heval := eval_of_directConstant env hdirect
    cases request
    · exact heval
    · exact heval.le
    · exact heval.ge
  next =>
    split at h
    next hconst =>
      simp only [and_eq_true, isConstantValue, decide_eq_true_iff] at hconst
      obtain ⟨⟨⟨hlow, hzero⟩, hhigh, -⟩, -⟩ := hconst
      obtain ⟨-, -, hle, hle'⟩ := hrange.mem t.le_width hlow hhigh (.inl hzero)
      cases request with
      | exact =>
        dsimp only at h
        split at h
        next heq =>
          cases h
          exact le_antisymm hle' (heq ▸ hle)
        next => cases h
      | atMost =>
        cases h
        exact hle'
      | atLeast =>
        cases h
        exact hle
    next => cases h

variable {o1 o2 : Option ℤ}

/-- The remainder of two constants. -/
lemma encloses_getRem (h1 : ∀ v, o1 = some v → x.toInt = v) (h2 : ∀ v, o2 = some v → y.toInt = v) :
    Encloses env (getRem o1 o2) (getRem o1 o2) (x.srem y) := by
  unfold getRem
  split
  next v₁ v₂ =>
    split
    next hcond =>
      have heq : (x.srem y).toInt = v₁.tmod v₂ := by rw [BitVec.toInt_srem, h1 v₁ rfl, h2 v₂ rfl]
      exact encloses_ofConstant hcond.2 hcond.2 heq.ge heq.le
    next => exact encloses_unknown
  next => exact encloses_unknown

/-- Numbers of at most 64 bits may be sign extended first. -/
lemma toInt_xor (hw : w ≤ 64) (x y : BitVec w) : (x ^^^ y).toInt = xorLong x.toInt y.toInt := by
  rw [xorLong, ← signExtend, ← signExtend, ← BitVec.signExtend_xor, BitVec.toInt_signExtend_of_le hw]

lemma encloses_getXor (hw : w ≤ 64) (h1 : ∀ v, o1 = some v → x.toInt = v)
    (h2 : ∀ v, o2 = some v → y.toInt = v) : Encloses env (getXor o1 o2) (getXor o1 o2) (x ^^^ y) := by
  unfold getXor
  split
  next v₁ v₂ =>
    split
    next hfits =>
      have heq : (x ^^^ y).toInt = xorLong v₁ v₂ := by rw [toInt_xor hw, h1 v₁ rfl, h2 v₂ rfl]
      exact encloses_ofConstant hfits hfits heq.ge heq.le
    next => exact encloses_unknown
  next => exact encloses_unknown

include hrange in
lemma eval_eq_of_exact (h : constantAnswer .exact info.directConstant range = some value) :
    (info.evalIn env) = ofInt t.width value := by
  rw [← (constantAnswer_sound hrange h : _ = value), ofInt_toInt]

/-- The bounds of an invariant. -/
lemma encloses_getVal (info : TypedInvariant t) (hcreated : ∀ i ∈ info.fetches, i.ArraysCreated env)
    (hwiden : ∀ i ∈ info.fetches, i.WidensExactly chaseHint env) :
    Encloses env (getVal chaseHint info true) (getVal chaseHint info false) (info.evalIn env) := by
  induction info with
  | fetch instruction =>
    exact instruction.encloses_getFetch (hcreated _ List.mem_cons_self) (hwiden _ List.mem_cons_self)
  | constant value =>
    exact (HInstruction.constant value).encloses_getFetch trivial fun input hinput => by cases hinput
  | neg b ih =>
    have hzero : Encloses env (ofConstant 0) (ofConstant 0) (0#t.width) :=
      encloses_ofConstant (by decide) (by decide) (by simp) (by simp)
    have h := hzero.sub (ih hcreated hwiden)
    rwa [BitVec.zero_sub] at h
  | op operation a b iha ihb =>
    have ha := iha (fun i hi => hcreated i (List.mem_append_left _ hi))
      fun i hi => hwiden i (List.mem_append_left _ hi)
    have hb := ihb (fun i hi => hcreated i (List.mem_append_right _ hi))
      fun i hi => hwiden i (List.mem_append_right _ hi)
    cases operation with
    | add => exact ha.add hb
    | sub => exact ha.sub hb
    | mul =>
      change Encloses env (getMul _ _ _ _ true) (getMul _ _ _ _ false) (_ * _)
      unfold getMul
      split
      next value hvalue =>
        rw [BitVec.mul_comm]
        exact encloses_mulRangeAndConstant hb (eval_eq_of_exact ha hvalue)
      next value _ hvalue => exact encloses_mulRangeAndConstant ha (eval_eq_of_exact hb hvalue)
      next => exact encloses_mulRanges t.le_width ha hb
    | div =>
      change Encloses env (getDiv _ _ _ true) (getDiv _ _ _ false) (BitVec.sdiv _ _)
      unfold getDiv
      split
      next value hvalue =>
        exact encloses_divRangeAndConstant t.le_width ha (constantAnswer_sound hb hvalue)
      next => exact encloses_divRanges t.le_width ha hb
    | rem => exact encloses_getRem (fun _ => constantAnswer_sound ha) fun _ => constantAnswer_sound hb
    | xor =>
      exact encloses_getXor (by cases t <;> decide) (fun _ => constantAnswer_sound ha)
        fun _ => constantAnswer_sound hb
    | compare cmp => exact encloses_unknown

/-- Constant answers are right in each execution in which the int sums that are chased through
    conversions to long do not overflow. -/
theorem isConstant_sound (info : TypedInvariant t) (hcreated : ∀ i ∈ info.fetches, i.ArraysCreated env)
    (hwiden : ∀ i ∈ info.fetches, i.WidensExactly chaseHint env) {request : ConstantRequest}
    (h : isConstant chaseHint request info = some value) : request.Holds value (info.evalIn env).toInt :=
  constantAnswer_sound (encloses_getVal info hcreated hwiden) h

/-- The difference of `(long) (x + 5)` and `(long) x`. -/
def wideDifference : TypedInvariant .int64 :=
  .op .sub (.fetch (.typeConversion 2 (.add 1 (.other 0) (.constant 5#32))))
    (.fetch (.typeConversion 3 (.other 0)))

/-- An execution in which each other instruction has the value `x`. -/
def constantExecution (x : ℤ) : Execution := ⟨fun _ _ => BitVec.ofInt _ x, fun _ => 0, fun _ => by decide⟩

theorem isConstant_sound_wideDifference : isConstant none .exact wideDifference = some 5 ∧
    ConstantRequest.exact.Holds 5 (wideDifference.evalIn (constantExecution 7)).toInt := by
  have hanswer : isConstant none .exact wideDifference = some 5 := by decide +kernel
  refine ⟨hanswer, isConstant_sound _ ?_ ?_ hanswer⟩ <;> intro i hi <;>
    simp only [wideDifference, Invariant.fetches, List.singleton_append, List.mem_cons,
      List.not_mem_nil, or_false] at hi <;>
    rcases hi with rfl | rfl
  · exact ⟨trivial, trivial⟩
  · trivial
  all_goals
    intro input hinput isMin _ _
    cases hinput
    cases isMin <;> decide +kernel

/-- If `x + 5` overflows, the difference is not `5`. -/
theorem isConstant_wideDifference_overflow : isConstant none .exact wideDifference = some 5 ∧
    (wideDifference.evalIn (constantExecution 2147483645)).toInt = 5 - 2 ^ 32 := by
  decide +kernel

end Art
