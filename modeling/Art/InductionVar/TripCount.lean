import Art.InductionVar.RangeSound

/-!
# Exactness of trip counts

How often does the condition of a loop hold, and what is the value of the expression that was
recorded for this? The expression is a quotient of signed numbers, whose numerator may have
wrapped around. For a stride of one this does no harm.
-/

namespace Art

open LoopControl

open BitVec (ofInt ofInt_add ofInt_neg ofInt_toInt sdiv_one sub_eq_add_neg)
open Invariant (eval)

variable {ι : Type} {w : ℕ}

/-- The bounds that the range analysis gives for an invariant are right. -/
structure RangeAnalysis.Sound (r : RangeAnalysis ι w) (env : ι → BitVec w) : Prop where
  getVal : ∀ info minVal maxVal, r.getVal info true = some minVal →
    r.getVal info false = some maxVal → minVal ≤ maxVal →
    minVal ≤ (info.eval env).toInt ∧ (info.eval env).toInt ≤ maxVal

namespace RangeAnalysis

variable {r : RangeAnalysis ι w} {env : ι → BitVec w} {info a b : Invariant ι w} {v : ℤ}

/-! ## Invariants -/

/-- A constant answer is right for each request. -/
lemma Sound.isConstant (h : r.Sound env) {request : ConstantRequest}
    (hv : r.isConstant request info = some v) :
    match request with
    | .exact => (info.eval env).toInt = v
    | .atMost => (info.eval env).toInt ≤ v
    | .atLeast => v ≤ (info.eval env).toInt := by
  rw [RangeAnalysis.isConstant.eq_def] at hv
  split at hv
  · cases hv
    cases request
    · rfl
    · exact le_rfl
    · exact le_rfl
  · split at hv
    next minVal maxVal hmin hmax =>
      split at hv
      next hle =>
        obtain ⟨hlow, hhigh⟩ := h.getVal _ _ _ hmin hmax hle
        cases request <;> dsimp only at hv ⊢
        · split at hv
          · cases hv
            omega
          · cases hv
        · cases hv
          exact hhigh
        · cases hv
          exact hlow
      · cases hv
    · cases hv

variable (h : r.Sound env)
include h

lemma Sound.eval_eq (hv : r.isConstant .exact info = some v) : info.eval env = ofInt w v := by
  have hint : (info.eval env).toInt = v := h.isConstant hv
  rw [← hint, ofInt_toInt]

lemma Sound.eval_eq_zero (hv : r.isConstant .exact info = some 0) : info.eval env = 0#w := by
  rw [h.eval_eq hv]
  simp

/-- The value of a sum or a difference. -/
lemma eval_createAddSub (a : Invariant ι w) (isSub : Bool) (b : Invariant ι w) :
    (r.createAddSub a isSub b).eval env =
      if isSub then a.eval env - b.eval env else a.eval env + b.eval env := by
  have hop : ∀ (isSub : Bool) (b : Invariant ι w),
      (Invariant.op (if isSub then .sub else .add) a b).eval env =
        if isSub then a.eval env - b.eval env else a.eval env + b.eval env := fun isSub b => by
    cases isSub <;> rfl
  have hleft : ∀ {isSub : Bool} (b : Invariant ι w),
      (!isSub && r.isConstant .exact a = some 0) = true → b.eval env =
        if isSub then a.eval env - b.eval env else a.eval env + b.eval env := fun b hzero => by
    rw [Bool.and_eq_true, Bool.not_eq_true', decide_eq_true_eq] at hzero
    rw [hzero.1, if_neg (by simp), h.eval_eq_zero hzero.2, BitVec.zero_add]
  have hright : ∀ {isSub : Bool} (b : Invariant ι w), r.isConstant .exact b = some 0 → a.eval env =
        if isSub then a.eval env - b.eval env else a.eval env + b.eval env := fun b hzero => by
    rw [h.eval_eq_zero hzero, BitVec.sub_zero, BitVec.add_zero, ite_self]
  induction b generalizing isSub with
  | neg c ih =>
    rw [createAddSub]
    split
    next hzero => exact hleft _ hzero
    next =>
      split
      next value hvalue =>
        split
        next hzero =>
          subst hzero
          exact hright _ hvalue
        next => exact hop isSub _
      next =>
        rw [ih, eval]
        cases isSub <;> simp [sub_eq_add_neg]
  | _ =>
    rw [createAddSub]
    · split
      next hzero => exact hleft _ hzero
      next =>
        split
        next hzero => exact hright _ hzero
        next => exact hop isSub _
    · simp

/-- The value of a negation. -/
lemma eval_createNeg (b : Invariant ι w) : (r.createNeg b).eval env = -b.eval env := by
  rw [createNeg.eq_def]
  split
  next value hvalue =>
    split
    next hzero =>
      subst hzero
      rw [h.eval_eq_zero hvalue, BitVec.neg_zero]
    next => rfl
  next =>
    split
    next c => rw [eval, BitVec.neg_neg]
    next x y =>
      rw [eval_createAddSub h, if_pos rfl, eval]
      rw [BitVec.sub_eq_add_neg, BitVec.sub_eq_add_neg, BitVec.neg_add, BitVec.sub_eq_add_neg,
        BitVec.neg_neg, BitVec.add_comm]
    next => rfl

omit h

lemma sdiv_neg_one (hw : 0 < w) (x : BitVec w) : x.sdiv (ofInt w (-1)) = -x := by
  have hpos : (0 : ℤ) < 2 ^ (w - 1) := by positivity
  refine BitVec.eq_of_toInt_eq ?_
  rw [BitVec.toInt_sdiv, BitVec.toInt_ofInt_eq_self hw (by omega) (by omega), BitVec.toInt_neg,
    Int.tdiv_neg, Int.tdiv_one]

/-- Simplifications keep the values of invariants. -/
lemma eval_createInvariantOp (hw : 0 < w) (h : r.Sound env) (op : InvariantOp) (a b : Invariant ι w) :
    (r.createInvariantOp op a b).eval env = (Invariant.op op a b).eval env := by
  have hone : ofInt w 1 = 1#w := by simp
  have hneg : ofInt w (-1) = -1#w := by rw [ofInt_neg, hone]
  rw [createInvariantOp.eq_def]
  cases op with
  | add => exact eval_createAddSub h a false b
  | sub => exact eval_createAddSub h a true b
  | mul =>
    dsimp only [eval]
    split
    next hv => rw [h.eval_eq_zero hv, BitVec.zero_mul]
    split
    next hv => rw [h.eval_eq hv, hone, BitVec.one_mul]
    split
    next hv =>
      rw [eval_createNeg h, h.eval_eq hv, hneg]
      simp
    split
    next hv => rw [h.eval_eq_zero hv, BitVec.mul_zero]
    split
    next hv => rw [h.eval_eq hv, hone, BitVec.mul_one]
    split
    next hv =>
      rw [eval_createNeg h, h.eval_eq hv, hneg]
      simp
    rfl
  | div =>
    dsimp only [eval]
    split
    next hv => rw [h.eval_eq hv, hone, sdiv_one]
    split
    next hv => rw [eval_createNeg h, h.eval_eq hv, sdiv_neg_one hw]
    rfl
  | rem => rfl
  | xor =>
    dsimp only [eval]
    split
    next hv => rw [h.eval_eq_zero hv, BitVec.zero_xor]
    split
    next hv => rw [h.eval_eq_zero hv, BitVec.xor_zero]
    rfl
  | compare cmp => rfl

end RangeAnalysis

/-! ## Loops -/

/-- A condition holds in the first `n` iterations, and then does not. -/
def SucceedsExactly (test : ℕ → Bool) (n : ℕ) : Prop := (∀ k < n, test k = true) ∧ test n = false

lemma SucceedsExactly.unique {test : ℕ → Bool} {n m : ℕ} (hn : SucceedsExactly test n)
    (hm : SucceedsExactly test m) : n = m := by
  rcases lt_trichotomy n m with hlt | heq | hlt
  · exact absurd (hm.1 n hlt) (by simp [hn.2])
  · exact heq
  · exact absurd (hn.1 m hlt) (by simp [hm.2])

namespace LoopControl

variable (control : LoopControl ι w) (env : ι → BitVec w)

/-- The value of `i` in an iteration. -/
def value (iteration : ℕ) : BitVec w :=
  control.lower.eval env + BitVec.ofNat w iteration * control.stride.eval env

/-- The condition of the loop in an iteration. -/
def test (iteration : ℕ) : Bool := control.cmp.test (control.value env iteration) (control.upper.eval env)

/-- The last number before or at the upper bound, `U`, `U - 1` or `U + 1`. -/
def inclusiveUpper : ℤ :=
  match control.cmp with
  | .lt => (control.upper.eval env).toInt - 1
  | .gt => (control.upper.eval env).toInt + 1
  | .le | .ge => (control.upper.eval env).toInt

/-- The numerator of the trip count, as an integer. -/
def numerator : ℤ :=
  control.inclusiveUpper env + (control.stride.eval env).toInt - (control.lower.eval env).toInt

variable {control env}

/-- The values are those of the linear sequence, up to wrapping around. -/
lemma value_eq (k : ℕ) : control.value env k = ofInt w
    ((control.lower.eval env).toInt + k * (control.stride.eval env).toInt) := by
  rw [value, ofInt_add, BitVec.ofInt_mul, ofInt_toInt, ofInt_toInt, BitVec.ofInt_natCast]

lemma le_max (x : BitVec w) : x.toInt ≤ maxValueOfIntegralType w := by
  have h := BitVec.toInt_lt (x := x)
  rw [maxValueOfIntegralType]
  omega

lemma min_le (x : BitVec w) : minValueOfIntegralType w ≤ x.toInt := BitVec.le_toInt x

/-- A value that has not wrapped around. -/
lemma toInt_value (hw : 0 < w) {k : ℕ} (hmin : minValueOfIntegralType w ≤
      (control.lower.eval env).toInt + k * (control.stride.eval env).toInt)
    (hmax : (control.lower.eval env).toInt + k * (control.stride.eval env).toInt ≤
      maxValueOfIntegralType w) : (control.value env k).toInt =
      (control.lower.eval env).toInt + k * (control.stride.eval env).toInt := by
  rw [maxValueOfIntegralType] at hmax
  rw [value_eq, BitVec.toInt_ofInt_eq_self hw hmin (by omega)]

/-- The loop goes up. -/
def Up (control : LoopControl ι w) : Prop := control.cmp = .lt ∨ control.cmp = .le

/-- The sign of the stride. -/
def direction (control : LoopControl ι w) : ℤ :=
  match control.cmp with
  | .lt | .le => 1
  | .gt | .ge => -1

lemma direction_eq : control.direction = 1 ∨ control.direction = -1 := by
  rw [direction]
  cases control.cmp <;> simp

lemma test_eq_true_iff (k : ℕ) : control.test env k = true ↔
    0 ≤ control.direction * (control.inclusiveUpper env - (control.value env k).toInt) := by
  rw [test, inclusiveUpper, direction]
  cases control.cmp <;>
    simp only [IfCondition.test, BitVec.slt_iff_toInt_lt, BitVec.sle_iff_toInt_le] <;> omega

/-- A condition on a sequence that grows by `s` in each iteration, from zero on. -/
lemma succeedsExactly_of_linear {test : ℕ → Bool} {d s : ℤ} (hs : 0 < s) (hd : 0 ≤ d)
    (htest : ∀ k : ℕ, 0 ≤ k * s → k * s ≤ d + s → (test k = true ↔ k * s ≤ d)) :
    SucceedsExactly test ((d + s) / s).toNat := by
  have hq : (((d + s) / s).toNat : ℤ) = (d + s) / s :=
    Int.toNat_of_nonneg (Int.ediv_nonneg (by omega) hs.le)
  generalize ((d + s) / s).toNat = n at *
  have hle : n * s ≤ d + s := (Int.le_ediv_iff_mul_le hs).mp hq.le
  have hlt : d + s < (n + 1) * s := (Int.ediv_lt_iff_lt_mul hs).mp (by omega)
  have hnonneg (k : ℕ) : 0 ≤ k * s := Int.mul_nonneg (by omega) hs.le
  rw [add_mul, one_mul] at hlt
  refine ⟨fun k hk => ?_, ?_⟩
  · have hk' : (k + 1) * s ≤ n * s := Int.mul_le_mul_of_nonneg_right (by omega) hs.le
    rw [add_mul, one_mul] at hk'
    rw [htest k (hnonneg k) (by omega)]
    omega
  · rw [← Bool.not_eq_true, htest n (hnonneg n) hle]
    omega

/-- The stride is one or minus one, or the numerator of the trip count is a number of the width. -/
def Representable (control : LoopControl ι w) (env : ι → BitVec w) : Prop :=
  (control.stride.eval env).toInt = 1 ∨ (control.stride.eval env).toInt = -1 ∨
    minValueOfIntegralType w ≤ control.numerator env ∧ control.numerator env ≤ maxValueOfIntegralType w

/-- A loop that does not wrap around. -/
lemma exists_count (hw : 0 < w) (hstride : 0 < control.direction * (control.stride.eval env).toInt)
    (htaken : control.test env 0 = true)
    (hfinite : minValueOfIntegralType w ≤ control.inclusiveUpper env + (control.stride.eval env).toInt ∧
      control.inclusiveUpper env + (control.stride.eval env).toInt ≤ maxValueOfIntegralType w) :
    ∃ n, SucceedsExactly (control.test env) n ∧
      (((ofInt w (control.numerator env)).sdiv (control.stride.eval env)).toNat = n ↔
        control.Representable env) := by
  have hmin := min_le (control.lower.eval env)
  have hmax := le_max (control.lower.eval env)
  have htest : ∀ k, control.test env k = true ↔ _ := test_eq_true_iff
  have hδ := control.direction_eq
  have hzero : control.value env 0 = control.lower.eval env := by simp [value]
  rw [htest, hzero] at htaken
  generalize control.direction = δ at *
  refine ⟨(δ * control.numerator env / (δ * (control.stride.eval env).toInt)).toNat, ?_, ?_⟩
  · -- in its direction, the loop counts up from zero
    rw [numerator, add_sub_right_comm, mul_add]
    refine succeedsExactly_of_linear hstride htaken fun k hk hk' => ?_
    rw [mul_left_comm] at hk hk' ⊢
    rcases hδ with rfl | rfl <;> rw [htest, toInt_value] <;> omega
  have hsq (z : ℤ) : δ * (δ * z) = z := by rcases hδ with rfl | rfl <;> omega
  have hpow := Signed.two_pow_eq hw
  rw [minValueOfIntegralType] at hmin hfinite
  rw [maxValueOfIntegralType] at hmax hfinite
  have hn : δ * (control.stride.eval env).toInt ≤ δ * control.numerator env ∧
      δ * control.numerator env < 2 ^ w := by
    rw [numerator]
    rcases hδ with rfl | rfl <;> omega
  have hiff := Signed.toNat_sdiv_eq_iff hw hδ (hsq _).symm hstride hn.1 hn.2
  rw [hsq] at hiff
  rw [hiff, Representable, minValueOfIntegralType, maxValueOfIntegralType]
  rcases hδ with rfl | rfl <;> omega

end LoopControl

/-! ## The recorded trip count -/

namespace RangeAnalysis

variable {r : RangeAnalysis ι w} {env : ι → BitVec w} {control : LoopControl ι w} {v : ℤ}
  {info : TripCount ι w}

/-- The recorded expression is the quotient of the numerator and the stride. -/
lemma Sound.eval_tripCount (hw : 0 < w) (h : r.Sound env)
    (hv : (control.stride.eval env).toInt = v) (hnormal : (control.Up → 0 < v) ∧ (¬control.Up → v < 0)) :
    (r.visitTripCount control v).tripCount.eval env =
      (ofInt w (control.numerator env)).sdiv (control.stride.eval env) := by
  have hone : ofInt w 1 = 1#w := by simp
  have hnum : ∀ z, ofInt w (z + (control.stride.eval env).toInt - (control.lower.eval env).toInt) =
      ofInt w z + control.stride.eval env - control.lower.eval env := fun z => by
    rw [Int.sub_eq_add_neg, ofInt_add, ofInt_add, ofInt_neg, ofInt_toInt, ofInt_toInt, sub_eq_add_neg]
  have hcancel : ∀ z : ℤ, z + (control.stride.eval env).toInt = (control.upper.eval env).toInt →
      control.upper.eval env - control.lower.eval env =
        ofInt w (z + (control.stride.eval env).toInt - (control.lower.eval env).toInt) := by
    intro z hz
    rw [hz, Int.sub_eq_add_neg, ofInt_add, ofInt_neg, ofInt_toInt, ofInt_toInt, sub_eq_add_neg]
  rw [visitTripCount, eval_createInvariantOp hw h]
  dsimp only [eval]
  rw [eval_createInvariantOp hw h]
  dsimp only [eval]
  congr 1
  rw [LoopControl.numerator, LoopControl.inclusiveUpper]
  cases hcmp : control.cmp with
  | lt =>
    dsimp only
    split
    next =>
      rw [eval_createInvariantOp hw h]
      dsimp only [eval]
      rw [eval_createInvariantOp hw h, hnum, Int.sub_eq_add_neg, ofInt_add, ofInt_neg,
        ofInt_toInt, hone, ← sub_eq_add_neg]
      rfl
    next hunit =>
      refine hcancel _ ?_
      have hpos := hnormal.1 (.inl hcmp)
      rw [Bool.not_eq_true', decide_eq_false_iff_not, not_not] at hunit
      omega
  | le | ge =>
    dsimp only
    rw [if_pos (by decide), eval_createInvariantOp hw h, hnum, ofInt_toInt]
    rfl
  | gt =>
    dsimp only
    split
    next =>
      rw [eval_createInvariantOp hw h]
      dsimp only [eval]
      rw [eval_createInvariantOp hw h, hnum, ofInt_add, ofInt_toInt, hone]
      rfl
    next hunit =>
      refine hcancel _ ?_
      have hneg := hnormal.2 (by simp [LoopControl.Up, hcmp])
      rw [Bool.not_eq_true', decide_eq_false_iff_not, not_not] at hunit
      omega

variable (h : r.Sound env)
include h

lemma Sound.le_of_any {info : Invariant ι w} {z : ℤ}
    (hany : (r.isConstant .atMost info).any (· ≤ z) = true) : (info.eval env).toInt ≤ z := by
  obtain ⟨x, hx, hle⟩ := (Option.any_eq_true _ _).mp hany
  have hx' : (info.eval env).toInt ≤ x := h.isConstant hx
  rw [decide_eq_true_eq] at hle
  exact hx'.trans hle

lemma Sound.ge_of_any {info : Invariant ι w} {z : ℤ}
    (hany : (r.isConstant .atLeast info).any (· ≥ z) = true) : z ≤ (info.eval env).toInt := by
  obtain ⟨x, hx, hle⟩ := (Option.any_eq_true _ _).mp hany
  have hx' : x ≤ (info.eval env).toInt := h.isConstant hx
  rw [decide_eq_true_eq] at hle
  exact hle.trans hx'

/-- A loop that is classified as finite does not wrap around. -/
lemma Sound.finite (hstride : 0 < control.direction * (control.stride.eval env).toInt)
    (hfin : r.isFinite control.upper (control.stride.eval env).toInt control.cmp = true) :
    minValueOfIntegralType w ≤ control.inclusiveUpper env + (control.stride.eval env).toInt ∧
      control.inclusiveUpper env + (control.stride.eval env).toInt ≤ maxValueOfIntegralType w := by
  have hmin := min_le (control.upper.eval env)
  have hmax := le_max (control.upper.eval env)
  rw [direction] at hstride
  rw [inclusiveUpper]
  cases hcmp : control.cmp <;> rw [hcmp] at hstride hfin <;> rw [isFinite] at hfin <;>
    dsimp only at hstride ⊢
  case lt =>
    rcases (Bool.or_eq_true _ _).mp hfin with hone | hany
    · rw [decide_eq_true_eq] at hone
      omega
    · have hle := h.le_of_any hany
      omega
  case gt =>
    rcases (Bool.or_eq_true _ _).mp hfin with hone | hany
    · rw [decide_eq_true_eq] at hone
      omega
    · have hle := h.ge_of_any hany
      omega
  case le =>
    have hle := h.le_of_any hfin
    omega
  case ge =>
    have hle := h.ge_of_any hfin
    omega

/-- A loop that is classified as taken is. -/
lemma Sound.test_of_isTaken (htaken : r.isTaken control.lower control.upper control.cmp = true) :
    control.cmp.test (control.lower.eval env) (control.upper.eval env) = true := by
  cases hcmp : control.cmp <;> rw [hcmp, isTaken] at htaken <;>
    simp only [IfCondition.test, BitVec.slt_iff_toInt_lt, BitVec.sle_iff_toInt_le]
  all_goals
    split at htaken
    next l u hl hu =>
      have hlower := h.isConstant hl
      have hupper := h.isConstant hu
      rw [decide_eq_true_eq] at htaken
      omega
    next => cases htaken

omit h

lemma visitCondition_eq_some (h : r.visitCondition control = some info) :
    ∃ v, r.isConstant .exact control.stride = some v ∧ info = r.visitTripCount control v ∧
      (control.Up → 0 < v) ∧ (¬control.Up → v < 0) := by
  obtain ⟨v, hv, hif⟩ := Option.bind_eq_some_iff.mp h
  have hup : control.Up ↔ control.cmp = .lt ∨ control.cmp = .le := Iff.rfl
  refine ⟨v, hv, ?_⟩
  cases hcmp : control.cmp <;> rw [hcmp] at hif hup <;> dsimp only at hif <;> split at hif
  all_goals cases hif
  all_goals
    simp_all

lemma visitTripCount_isFinite (h : (r.visitTripCount control v).kind = .inLoop ∨
    (r.visitTripCount control v).kind = .inBody) : r.isFinite control.upper v control.cmp = true := by
  rw [visitTripCount] at h
  cases hfin : r.isFinite _ v control.cmp
  · rw [hfin] at h
    cases htk : r.isTaken _ _ control.cmp <;> rw [htk] at h <;> simp at h
  · rfl

lemma test_zero : control.test env 0 = control.cmp.test (control.lower.eval env) (control.upper.eval env) := by
  simp [test, value]

/-- A recorded trip count that is taken, by its kind or by its test. -/
lemma Sound.taken (h : r.Sound env) (htaken : (r.visitTripCount control v).kind = .inLoop ∨
      (r.visitTripCount control v).takenTest.eval env ≠ 0#w) : control.test env 0 = true := by
  rw [test_zero]
  rcases htaken with hkind | htest
  · refine h.test_of_isTaken ?_
    rw [visitTripCount] at hkind
    cases htk : r.isTaken _ _ control.cmp
    · rw [htk] at hkind
      cases hfin : r.isFinite _ v control.cmp <;> rw [hfin] at hkind <;> simp at hkind
    · rfl
  · by_contra hne
    exact htest (if_neg hne)

lemma generate_eq (hfin : info.kind = .inLoop ∨ info.kind = .inBody) : info.generate env =
    some (if info.kind = .inLoop ∨ info.takenTest.eval env ≠ 0#w then info.tripCount.eval env else 0#w) := by
  rcases hfin with hkind | hkind <;> simp [TripCount.generate, hkind]

/-- A loop that is classified as finite ends, and the generated trip count is exact if and only if the
    loop is not taken, its numerator has not wrapped around, or the stride is one or minus one. -/
lemma visitCondition_succeedsExactly_iff (hw : 0 < w) (hs : r.Sound env)
    (h : r.visitCondition control = some info) (hfin : info.kind = .inLoop ∨ info.kind = .inBody) :
    (∃ n, SucceedsExactly (control.test env) n) ∧ ∃ count, info.generate env = some count ∧
      (SucceedsExactly (control.test env) count.toNat ↔
        (info.kind = .inLoop ∨ info.takenTest.eval env ≠ 0#w → control.Representable env)) := by
  obtain ⟨v, hv, rfl, hnormal⟩ := visitCondition_eq_some h
  have hv' : (control.stride.eval env).toInt = v := hs.isConstant hv
  subst hv'
  have hfinite := visitTripCount_isFinite hfin
  rw [generate_eq hfin, hs.eval_tripCount hw rfl hnormal]
  -- the count of a loop that is taken
  have hcount : control.test env 0 = true → ∃ n, SucceedsExactly (control.test env) n ∧
      (((ofInt w (control.numerator env)).sdiv (control.stride.eval env)).toNat = n ↔
        control.Representable env) := by
    intro htest
    have hstride : 0 < control.direction * (control.stride.eval env).toInt := by
      rw [LoopControl.Up] at hnormal
      rw [direction]
      cases hcmp : control.cmp <;> simp [hcmp] at hnormal ⊢ <;> omega
    exact exists_count hw hstride htest (hs.finite hstride hfinite)
  have hzero : ¬control.test env 0 = true → SucceedsExactly (control.test env) 0 := fun htest =>
    ⟨fun k hk => absurd hk (Nat.not_lt_zero k), Bool.not_eq_true _ ▸ htest⟩
  refine ⟨?_, _, rfl, ?_⟩
  · by_cases htest : control.test env 0 = true
    · obtain ⟨n, hn, -⟩ := hcount htest
      exact ⟨n, hn⟩
    · exact ⟨0, hzero htest⟩
  · split
    next htaken =>
      obtain ⟨n, hn, hiff⟩ := hcount (hs.taken htaken)
      rw [imp_iff_right htaken, ← hiff]
      exact ⟨fun hex => hex.unique hn, fun heq => heq ▸ hn⟩
    next htaken =>
      refine iff_of_true (hzero fun htest => htaken (.inr ?_)) fun h => absurd h htaken
      rw [test_zero] at htest
      show (if _ then 1#w else 0#w) ≠ 0#w
      rw [if_pos htest]
      simpa using hw.ne'

end RangeAnalysis

/-- The condition of a loop, whichever side the induction is on. -/
lemma loopControl_test {env : ι → BitVec w} {a b : Induction ι w} {cmp : IfCondition}
    {control : LoopControl ι w} (h : loopControl a b cmp = some control) :
    control.test env = fun k => cmp.test (a.value env k) (b.value env k) := by
  funext k
  cases a <;> cases b <;> cases h
  · cases cmp <;> rfl
  · rfl

/-! ## The range analysis of the loop -/

/-- The invariant with other instructions. -/
def Invariant.map {κ : Type} (f : ι → κ) : Invariant ι w → Invariant κ w
  | fetch i => fetch (f i)
  | constant value => constant value
  | neg b => neg (b.map f)
  | op operation a b => op operation (a.map f) (b.map f)

lemma eval_map {κ : Type} (f : ι → κ) (env : κ → BitVec w) (info : Invariant ι w) :
    (info.map f).eval env = info.eval fun i => env (f i) := by
  induction info with
  | fetch | constant => rfl
  | neg b ih => rw [Invariant.map, eval, ih, eval]
  | op operation a b iha ihb => cases operation <;> simp only [Invariant.map, eval, iha, ihb]

lemma exists_of_mem_fetches_map {κ : Type} {f : ι → κ} {info : Invariant ι w} {k : κ}
    (h : k ∈ (info.map f).fetches) : ∃ i, f i = k := by
  induction info with
  | fetch i => exact ⟨i, (List.mem_singleton.1 h).symm⟩
  | constant => cases h
  | neg b ih => exact ih h
  | op operation a b iha ihb => exact (List.mem_append.1 h).elim iha ihb

variable {type : ControlType} (instr : ι → HInstruction type)

/-- `GetVal` for a loop control over the instructions `ι`. -/
def loopRanges : RangeAnalysis ι type.width := ⟨fun info => (rangeAnalysis type).getVal (info.map instr)⟩

variable {instr} {env : Execution} (hcreated : ∀ i, (instr i).ArraysCreated env)
  (hwiden : ∀ i, (instr i).WidensExactly none env)

include hcreated hwiden

lemma loopRanges_sound : (loopRanges instr).Sound fun i => (instr i).eval env where
  getVal info minVal maxVal hmin hmax hle := by
    rw [← eval_map instr fun i => i.eval env]
    have hrange := encloses_getVal (info.map instr)
      (fun k hk => (exists_of_mem_fetches_map hk).elim fun i hi => hi ▸ hcreated i)
      fun k hk => show k.WidensExactly none env from (exists_of_mem_fetches_map hk).elim fun i hi => hi ▸ hwiden i
    simp only [loopRanges, rangeAnalysis] at hmin hmax
    cases hdirect : (info.map instr).directConstant with
    | some value =>
      rw [hdirect] at hmin hmax
      cases hmin
      cases hmax
      exact ⟨(eval_of_directConstant env hdirect).ge, (eval_of_directConstant env hdirect).le⟩
    | none =>
      simp only [hdirect] at hmin hmax
      split_ifs at hmin hmax with hlow hhigh
      cases hmin
      cases hmax
      simp only [Value.isConstantValue, Bool.and_eq_true, decide_eq_true_iff] at hlow hhigh
      obtain ⟨-, -, hmem⟩ := hrange.mem type.le_width hlow.1 hhigh.1 (.inl hlow.2)
      exact hmem

omit hcreated hwiden

/-- The condition `i < u` in an iteration of a loop with constants, `for (int i = l; i < u; i += s)`. -/
def countingTest (l u s : BitVec 32) (k : ℕ) : Bool :=
  IfCondition.lt.test ((Induction.linear (.constant s) (.constant l)).value (fun i : Empty => i.elim) k)
    ((Induction.invariant (.constant u)).value (fun i : Empty => i.elim) k)

end Art
