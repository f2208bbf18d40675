import Art.Lib.Intervals
import Art.BoundsCheck.Arithmetic

/-!
# Ranges of remainders

A remainder gets the range that its divisor implies, narrowed with the range of its dividend. The
remainder lies between the dividend and zero, so that a lower bound of the dividend is one of the
remainder only if it is not positive, and an upper bound only if it is not negative.
-/

namespace Art.BoundsCheckElimination

open Overflow Option BoundsCheckElimination.HInstruction ValueBound Nat
open BitVec (eq_of_toInt_eq ofInt ofInt_toInt ofNat toInt_srem toNat_ofNat mul_add mul_one ofNat)

/-! ## The visitors -/

/-- A result of 32-bit arithmetic. -/
def wrapInt (z : Int) : Int := (BitVec.ofInt 32 z).toInt

/-- The divisor without the check for zero. -/
def HInstruction.uncheckedDivisor : HInstruction → HInstruction
  | .divZeroCheck _ v => v
  | i => i

/-- `VisitRem`, where `leftRange` is what `LookupValueRange` finds for the dividend. -/
def visitRem (leftRange : Option RangeInfo) (right : HInstruction) : Option ValueRange :=
  match right with
  | .intConstant d =>
    let rightConst := wrapInt d.toInt.natAbs
    if rightConst = 0 then none
    else
      let range : ValueRange := ⟨make none (wrapInt (1 - rightConst)),
        make none (wrapInt (rightConst - 1))⟩
      some (range.narrowInfo leftRange)
  | right =>
    if right.uncheckedDivisor.isArrayLength then
      let range : ValueRange := ⟨min, make (some right.uncheckedDivisor) (-1)⟩
      some (range.narrowInfo leftRange)
    else none

/-- The instructions that leave a remainder of a dividend: `HRem` with a constant or an array
    length, which may have been checked for zero, and what is left of a division by a constant, by
    `2 ^ n + 1` or by `2 ^ n - 1`. -/
inductive RemainderForm
  | remConstant (id : Nat) (d : BitVec 32)
  | remLength (id lengthId : Nat) (array : HInstruction) (checkId : Option Nat)
  | mul (id mulId divId : Nat) (d : BitVec 32)
  | shlAdd (id addId shlId divId : Nat) (n : Nat)
  | shlSub (id subId shlId divId : Nat) (n : Nat)
  deriving DecidableEq, Repr

namespace RemainderForm

/-- The divisor of an `HRem` by an array length. -/
def lengthDivisor (lengthId : Nat) (array : HInstruction) : Option Nat → HInstruction
  | none => .arrayLength lengthId array
  | some checkId => .divZeroCheck checkId (.arrayLength lengthId array)

def divide (divId : Nat) (dividend : HInstruction) (d : BitVec 32) : HInstruction :=
  .binary .div divId dividend (.intConstant d)

/-- The quotient times `2 ^ n`. -/
def shiftQuotient (shlId divId : Nat) (dividend : HInstruction) (n : Nat) (d : BitVec 32) : HInstruction :=
  .binary .shl shlId (divide divId dividend d) (.intConstant (ofNat 32 n))

/-- The divisor of the forms that divide by a constant. -/
def constant : RemainderForm → BitVec 32
  | remConstant _ d => d
  | remLength _ _ _ _ => 0#32
  | mul _ _ _ d => d
  | shlAdd _ _ _ _ n => ofNat 32 (2 ^ n + 1)
  | shlSub _ _ _ _ n => ofNat 32 (2 ^ n - 1)

/-- What is subtracted from the dividend. -/
def product (f : RemainderForm) (dividend : HInstruction) : HInstruction :=
  match f with
  | mul _ mulId divId d => .binary .mul mulId (divide divId dividend d) (.intConstant d)
  | shlAdd _ addId shlId divId n =>
    .add addId (divide divId dividend f.constant) (shiftQuotient shlId divId dividend n f.constant)
  | shlSub _ subId shlId divId n =>
    .sub subId (shiftQuotient shlId divId dividend n f.constant) (divide divId dividend f.constant)
  | _ => .intConstant 0#32

/-- The remainder of `dividend`. -/
def instruction (f : RemainderForm) (dividend : HInstruction) : HInstruction :=
  match f with
  | remConstant id d => .binary .rem id dividend (.intConstant d)
  | remLength id lengthId array checkId =>
    .binary .rem id dividend (lengthDivisor lengthId array checkId)
  | mul id _ _ _ => .sub id dividend (f.product dividend)
  | shlAdd id _ _ _ _ => .sub id dividend (f.product dividend)
  | shlSub id _ _ _ _ => .sub id dividend (f.product dividend)

/-- The value of the divisor. -/
def divisor (env : Env) : RemainderForm → BitVec 32
  | remLength _ lengthId array _ => (arrayLength lengthId array).eval env
  | f => f.constant

/-- The divisor is not zero, a length is not negative, and the powers of two are those that the
    visitor takes. -/
def Valid (env : Env) : RemainderForm → Prop
  | remConstant _ d => d ≠ 0#32
  | remLength _ _ array _ => 0 < (array.eval env).toInt
  | mul _ _ _ d => d ≠ 0#32
  | shlAdd _ _ _ _ n => n < 31
  | shlSub _ _ _ _ n => 0 < n ∧ n < 32

end RemainderForm

/-- The visitors of remainders. -/
def visitRemainder (leftRange rightRange : Option RangeInfo) : HInstruction → Option ValueRange
  | .binary .rem _ _ right => visitRem leftRange right
  | .sub _ left right => (visitSub leftRange rightRange left right).value
  | _ => none

/-! ## The values -/

/-- What is left of a division is the remainder, even where the quotient has wrapped around. -/
lemma sub_sdiv_mul (x d : BitVec 32) : x - x.sdiv d * d = x.srem d := by
  have hrem : x.srem d = ofInt 32 (x.toInt.tmod d.toInt) := by rw [← toInt_srem, ofInt_toInt]
  have htmod : x.toInt.tmod d.toInt = x.toInt - x.toInt.tdiv d.toInt * d.toInt := by
    rw [Int.tmod_def, mul_comm]
  rw [hrem, htmod, Signed.ofInt_sub, BitVec.ofInt_mul, ofInt_toInt, ofInt_toInt, Signed.sdiv_eq_ofInt]

lemma shiftLeft_eq_mul {n : Nat} (hn : n < 32) (x : BitVec 32) :
    x <<< (ofNat 32 n &&& 31#32).toNat = x * ofNat 32 (2 ^ n) := by
  have hand : (ofNat 32 n &&& 31#32).toNat = n := by
    rw [BitVec.toNat_and, toNat_ofNat, toNat_ofNat, mod_eq_of_lt (by omega)]
    exact (and_two_pow_sub_one_eq_mod n 5).trans (mod_eq_of_lt hn)
  rw [hand, BitVec.shiftLeft_eq_mul_twoPow]
  congr 1
  exact BitVec.eq_of_toNat_eq (by rw [BitVec.toNat_twoPow, toNat_ofNat])

namespace RemainderForm

variable {env : Env} {f : RemainderForm}

/-- Every form leaves the remainder. -/
lemma eval_instruction (hf : f.Valid env) (dividend : HInstruction) :
    (f.instruction dividend).eval env = (dividend.eval env).srem (f.divisor env) := by
  cases f with
  | remConstant id d => rfl
  | remLength id lengthId array checkId => cases checkId <;> rfl
  | mul id mulId divId d => exact sub_sdiv_mul _ d
  | shlAdd id addId shlId divId n =>
    have hn : n < 31 := hf
    rw [← sub_sdiv_mul]
    simp only [instruction, product, shiftQuotient, divide, eval, constant, divisor,
      BinaryOp.eval]
    rw [shiftLeft_eq_mul (by omega), add_comm, BitVec.ofNat_add, mul_add, mul_one]
  | shlSub id subId shlId divId n =>
    obtain ⟨hpos, hn⟩ := hf
    rw [← sub_sdiv_mul]
    simp only [instruction, product, shiftQuotient, divide, eval, constant, divisor,
      BinaryOp.eval]
    have hpow : ofNat 32 (2 ^ n) = ofNat 32 (2 ^ n - 1) + 1#32 := by
      rw [← BitVec.ofNat_add, Nat.sub_add_cancel Nat.one_le_two_pow]
    rw [shiftLeft_eq_mul hn, hpow, mul_add, mul_one, BitVec.add_sub_cancel]

/-- The range that the divisor implies. -/
def divisorRange : RemainderForm → ValueRange
  | remLength _ lengthId array _ =>
    ⟨min, make (some (.arrayLength lengthId array)) (-1)⟩
  | f => remainderRange f.constant.toInt

lemma toInt_ofNat_of_lt {n : Nat} (hn : n < 2 ^ 31) : (ofNat 32 n).toInt = n := by
  have hmin := kMinInt_eq
  have hmax := kMaxInt_eq
  rw [← BitVec.ofInt_natCast]
  exact toInt_ofInt_of_bounds (by omega) (by omega)

/-- The remainders of a sum and a difference are recognised. -/
lemma optimizedRemDivisor_product (hf : f.Valid env) (hsub : ∀ id d, f ≠ remConstant id d)
    (hlength : ∀ id l a c, f ≠ remLength id l a c) (dividend : HInstruction) :
    optimizedRemDivisor dividend (f.product dividend) = some f.constant.toInt := by
  cases f with
  | remConstant id d => exact absurd rfl (hsub id d)
  | remLength id l a c => exact absurd rfl (hlength id l a c)
  | mul id mulId divId d => simp [optimizedRemDivisor, product, remainderProduct, divide,
      constantDivision, constant]
  | shlAdd id addId shlId divId n =>
    have hn : n < 31 := hf
    have hconstant : ∀ n < 31, (1#64 <<< n + 1#64).toInt = (ofNat 32 (2 ^ n + 1)).toInt := by decide
    have hn' : (ofNat 32 n).toNat = n := by
      rw [toNat_ofNat]
      omega
    simp [optimizedRemDivisor, product, remainderProduct, divide, shiftQuotient, constant, hconstant n hn, hn',
      hn.ne, constantDivision]
  | shlSub id subId shlId divId n =>
    have hconstant : ∀ n < 32, (1#64 <<< n - 1#64).toInt = (ofNat 32 (2 ^ n - 1)).toInt := by decide
    have hn' : (ofNat 32 n).toNat = n := by
      rw [toNat_ofNat]
      exact mod_eq_of_lt (hf.2.trans (by decide))
    simp [optimizedRemDivisor, product, remainderProduct, divide, shiftQuotient, constant, hconstant n hf.2, hn',
      constantDivision]

/-- The absolute value of a constant divisor may wrap around, and so do the bounds. -/
lemma visitRem_constant (leftRange : Option RangeInfo) {d : BitVec 32} (hd : d ≠ 0#32) :
    visitRem leftRange (.intConstant d) = some ((remainderRange d.toInt).narrowInfo leftRange) := by
  have hbounds := toInt_bounds d
  have hmin := kMinInt_eq
  have hmax := kMaxInt_eq
  have hzero : d.toInt ≠ 0 := fun h => hd (eq_of_toInt_eq h)
  rw [visitRem, remainderRange]
  by_cases hlast : d.toInt = kMinInt
  · rw [hlast]
    rfl
  · have hwrap (z : Int) (h1 : kMinInt ≤ z) (h2 : z ≤ kMaxInt) : wrapInt z = z :=
      toInt_ofInt_of_bounds h1 h2
    rw [if_neg hlast]
    rw [hwrap _ (by omega) (by omega), if_neg (by omega), hwrap _ (by omega) (by omega),
      hwrap _ (by omega) (by omega)]

/-- Every form gets the range of its divisor, narrowed with that of the dividend. -/
lemma visitRemainder_instruction (hf : f.Valid env) (leftRange rightRange : Option RangeInfo)
    (dividend : HInstruction) : visitRemainder leftRange rightRange (f.instruction dividend) =
      some (f.divisorRange.narrowInfo leftRange) := by
  have hsub (g : RemainderForm) (id : Nat) (hg : g.Valid env) (h1 : ∀ id d, g ≠ remConstant id d)
      (h2 : ∀ id l a c, g ≠ remLength id l a c) :
      visitRemainder leftRange rightRange (.sub id dividend (g.product dividend)) =
        some ((remainderRange g.constant.toInt).narrowInfo leftRange) := by
    rw [visitRemainder, visitSub, tryToAssignRangeIfOptimizedRem,
      optimizedRemDivisor_product hg h1 h2, map_some, Traced.value_pure]
  cases f with
  | remConstant id d => exact visitRem_constant leftRange hf
  | remLength id lengthId array checkId => cases checkId <;> rfl
  | mul id mulId divId d
  | shlAdd id addId shlId divId n
  | shlSub id subId shlId divId n => exact hsub _ id hf (by simp) (by simp)

end RemainderForm

/-! ## Which bounds of the dividend are taken over -/

namespace ValueBound

variable {env : Env} {b b' : ValueBound} {x : Int}

/-- A constant lower bound is narrowed with a constant only. -/
lemma value_narrowLowerBound_le_iff (hb : b.isConstant = true) (hx : b.value env ≤ x) :
    (narrowLowerBound b b').value env ≤ x ↔ (b'.isConstant = true → b'.value env ≤ x) := by
  have hbnone : b.instruction = none := by simpa [isConstant] using hb
  rw [narrowLowerBound]
  cases hb' : b'.instruction with
  | none =>
    have hconst : b'.isConstant = true := by simp [isConstant, hb']
    simp only [greaterThanOrEqualTo, hbnone, hb', equal, Bool.true_and, decide_eq_true_iff]
    rw [value_of_isConstant hb] at hx
    split_ifs with h1 h2
    · simp only [value_of_isConstant hb, value_of_isConstant hconst, hconst, true_implies]
      omega
    · simp [hconst]
    · omega
  | some i =>
    have hconst : b'.isConstant = false := by simp [isConstant, hb']
    simp [greaterThanOrEqualTo, hbnone, hb', equal, hb, hconst, hx]

/-- A constant upper bound is narrowed with any other. -/
lemma le_value_narrowUpperBound_iff_of_isConstant (hb : b.isConstant = true)
    (hx : x ≤ b.value env) : x ≤ (narrowUpperBound b b').value env ↔ x ≤ b'.value env := by
  have hbnone : b.instruction = none := by simpa [isConstant] using hb
  rw [narrowUpperBound]
  cases hb' : b'.instruction with
  | none =>
    have hconst : b'.isConstant = true := by simp [isConstant, hb']
    simp only [lessThanOrEqualTo, hbnone, hb', equal, Bool.true_and, decide_eq_true_iff]
    rw [value_of_isConstant hb] at hx
    split_ifs with h1 h2
    · rw [value_of_isConstant hb, value_of_isConstant hconst]
      omega
    · rfl
    · exact absurd (le_of_not_ge h1) h2
    · exact absurd (le_of_not_ge h1) h2
  | some i => simp [lessThanOrEqualTo, hbnone, hb', equal, isRelatedToArrayLength]

/-- An array length as an upper bound is narrowed with the same length only. -/
lemma le_value_narrowUpperBound_iff_of_isRelated (hb : b.isRelatedToArrayLength = true)
    (hx : x ≤ b.value env) : x ≤ (narrowUpperBound b b').value env ↔
      (equal b.instruction b'.instruction = true → x ≤ b'.value env) := by
  rw [narrowUpperBound]
  by_cases hequal : equal b.instruction b'.instruction = true
  · have hsymm : equal b'.instruction b.instruction = true := by rwa [equal_comm]
    simp only [hequal, true_implies]
    split_ifs with h1 h2
    · have hle : b.value env ≤ b'.value env := value_le_of_lessThanOrEqualTo h1
      exact iff_of_true hx (hx.trans hle)
    · rfl
    · -- Two constants with the same instruction can be compared.
      simp only [lessThanOrEqualTo, hequal, hsymm, Bool.true_and, decide_eq_true_iff] at h1 h2
      omega
  · have hne : equal b.instruction b'.instruction = false := by simpa using hequal
    have hne' : equal b'.instruction b.instruction = false := by rwa [equal_comm]
    simp [lessThanOrEqualTo, hne, hne', hb, hx]

end ValueBound

namespace RemainderForm

/-- The upper bound of the dividend is taken over if it can be compared with that of the divisor,
    or if the divisor is a constant. -/
def takesUpper (f : RemainderForm) (range : ValueRange) : Bool :=
  match f with
  | remLength _ lengthId array _ =>
    equal (some (.arrayLength lengthId array)) range.upper.instruction
  | _ => true

variable {env : Env} {f : RemainderForm}

/-- The divisor of a valid form is not zero. -/
lemma Valid.divisor_ne (hf : f.Valid env) : (f.divisor env).toInt ≠ 0 := by
  have hne (d : BitVec 32) (hd : d ≠ 0#32) : d.toInt ≠ 0 := fun h => hd (eq_of_toInt_eq h)
  cases f with
  | remConstant id d => exact hne d hf
  | mul id mulId divId d => exact hne d hf
  | remLength id lengthId array checkId => exact ne_of_gt hf
  | shlAdd id addId shlId divId n =>
    have hn : n < 31 := hf
    have hle : 2 ^ n ≤ 2 ^ 30 := Nat.pow_le_pow_right (by decide) (by omega)
    rw [divisor, constant, toInt_ofNat_of_lt (by omega)]
    · exact_mod_cast succ_ne_zero (2 ^ n)
    · simp
  | shlSub id subId shlId divId n =>
    obtain ⟨hpos, hn⟩ := hf
    have hle : 2 ^ n ≤ 2 ^ 31 := Nat.pow_le_pow_right (by decide) (by omega)
    have htwo : 2 ^ 1 ≤ 2 ^ n := Nat.pow_le_pow_right (by decide) hpos
    rw [divisor, constant, toInt_ofNat_of_lt (by omega)]
    · omega
    · simp

/-- The remainders are in the range that the divisor implies. -/
lemma contains_divisorRange (hf : f.Valid env) (x : BitVec 32) :
    f.divisorRange.Contains env (x.srem (f.divisor env)) := by
  have hlt := Interval.tmod_abs_lt x.toInt hf.divisor_ne
  have hconstant : (remainderRange (f.divisor env).toInt).Contains env (x.srem (f.divisor env)) := by
    have hbounds := toInt_bounds (x.srem (f.divisor env))
    rw [toInt_srem] at hbounds
    rw [remainderRange, ValueRange.Contains, toInt_srem]
    split_ifs with hmin
    · rw [hmin] at hlt hbounds ⊢
      have habs : |kMinInt| = 2147483648 := by decide
      have hval := kMinInt_eq
      simp only [value_make, map_none, getD_none]
      omega
    · simp only [value_make, map_none, getD_none]
      rw [Int.abs_eq_natAbs] at hlt
      omega
  cases f with
  | remLength id lengthId array checkId =>
    have hpos : 0 < ((remLength id lengthId array checkId).divisor env).toInt := hf
    rw [abs_of_pos hpos] at hlt
    rw [ValueRange.Contains, toInt_srem]
    have hbounds := (toInt_bounds (x.srem ((remLength id lengthId array checkId).divisor env))).1
    rw [toInt_srem] at hbounds
    exact ⟨hbounds, Int.le_sub_one_of_lt hlt.2⟩
  | _ => exact hconstant

lemma isConstant_lower_divisorRange (f : RemainderForm) : f.divisorRange.lower.isConstant = true := by
  cases f with
  | remLength _ _ _ _ => rfl
  | _ =>
    rw [divisorRange, remainderRange]
    · split_ifs <;> rfl
    · simp

lemma contains_narrow_iff (hf : f.Valid env) (range : ValueRange) (x : BitVec 32) :
    (f.divisorRange.narrow range).Contains env (x.srem (f.divisor env)) ↔ (range.lower.isConstant = true →
        range.lower.value env ≤ x.toInt.tmod (f.divisor env).toInt) ∧
      (f.takesUpper range = true → x.toInt.tmod (f.divisor env).toInt ≤ range.upper.value env) := by
  have hrange := f.contains_divisorRange hf x
  rw [ValueRange.Contains, toInt_srem] at hrange ⊢
  refine and_congr (value_narrowLowerBound_le_iff f.isConstant_lower_divisorRange hrange.1) ?_
  cases f with
  | remLength id lengthId array checkId =>
    exact le_value_narrowUpperBound_iff_of_isRelated rfl hrange.2
  | _ =>
    have hconst (d : Int) : (remainderRange d).upper.isConstant = true := by
      rw [remainderRange]
      split_ifs <;> rfl
    simp only [takesUpper, true_implies]
    exact le_value_narrowUpperBound_iff_of_isConstant (hconst _) hrange.2

/-- The dividend's range has no number; or its lower bound, if it is a constant, is not positive or
    all of it is below the divisor, and its upper bound, if it is taken over, is not negative or
    all of it is above the negated divisor. -/
def Ok (env : Env) (f : RemainderForm) : Option RangeInfo → Prop
  | some (.plain range) =>
    let lo := max (range.lower.value env) kMinInt
    let hi := min (range.upper.value env) kMaxInt
    let d := |(f.divisor env).toInt|
    hi < lo ∨ ((range.lower.isConstant = true → lo ≤ 0 ∨ hi < d) ∧
      (f.takesUpper range = true → 0 ≤ hi ∨ -d < lo))
  | _ => True

end RemainderForm

/-- The number is in the range, if a plain one is known. -/
def InRange (env : Env) (info : Option RangeInfo) (x : BitVec 32) : Prop :=
  ∀ range, info = some (.plain range) → range.Contains env x

variable {L U : Int}

/-- The numbers of a range are the integers between its bounds that are `int`s. -/
lemma forall_toInt_iff {P : Int → Prop} : (∀ x : BitVec 32, L ≤ x.toInt ∧ x.toInt ≤ U → P x.toInt) ↔
      ∀ z, max L kMinInt ≤ z → z ≤ min U kMaxInt → P z := by
  constructor
  · intro h z hlo hhi
    have hz := h (ofInt 32 z)
    rw [toInt_ofInt_of_bounds (by omega) (by omega)] at hz
    exact hz (by omega)
  · intro h x hx
    have hbounds := toInt_bounds x
    exact h x.toInt (by omega) (by omega)

/-- The remainders of an interval of `int`s with respect to one of its bounds. -/
lemma forall_bounds_tmod_iff {d : Int} (hd : d ≠ 0) {lower upper : Prop} :
    (∀ z, max L kMinInt ≤ z → z ≤ min U kMaxInt → (lower → L ≤ z.tmod d) ∧ (upper → z.tmod d ≤ U)) ↔
      min U kMaxInt < max L kMinInt ∨ ((lower → max L kMinInt ≤ 0 ∨ min U kMaxInt < |d|) ∧
          (upper → 0 ≤ min U kMaxInt ∨ -|d| < max L kMinInt)) := by
  -- A remainder is an `int`, so the bounds may be cut off at the ends.
  have hcut (z : Int) (h1 : max L kMinInt ≤ z) (h2 : z ≤ min U kMaxInt) :
      (L ≤ z.tmod d ↔ max L kMinInt ≤ z.tmod d) ∧ (z.tmod d ≤ U ↔ z.tmod d ≤ min U kMaxInt) := by
    have hmem := Interval.tmod_mem z d
    have hmin := kMinInt_eq
    have hmax := kMaxInt_eq
    omega
  have hlower := Interval.forall_le_tmod_iff (max L kMinInt) (min U kMaxInt) hd
  have hupper := Interval.forall_tmod_le_iff (max L kMinInt) (min U kMaxInt) hd
  constructor
  · intro h
    by_cases hempty : min U kMaxInt < max L kMinInt
    · exact .inl hempty
    refine .inr ⟨fun hl => ?_, fun hu => ?_⟩
    · have hall := hlower.1 fun z hz hz' => (hcut z hz hz').1.1 ((h z hz hz').1 hl)
      exact hall.resolve_left hempty
    · have hall := hupper.1 fun z hz hz' => (hcut z hz hz').2.1 ((h z hz hz').2 hu)
      exact hall.resolve_left hempty
  · intro h z hz hz'
    rw [(hcut z hz hz').1, (hcut z hz hz').2]
    exact ⟨fun hl => hlower.2 (h.imp_right fun h => h.1 hl) z hz hz',
      fun hu => hupper.2 (h.imp_right fun h => h.2 hu) z hz hz'⟩

/-- The range of a remainder is right for every dividend in its range exactly if the range of the
    dividend meets the condition. -/
theorem forall_contains_iff {env : Env} {f : RemainderForm} (hf : f.Valid env)
    (leftRange rightRange : Option RangeInfo) (dividend : HInstruction) : (∀ x, InRange env leftRange x →
      ∀ r ∈ visitRemainder leftRange rightRange (f.instruction dividend),
        r.Contains env ((f.instruction (.intConstant x)).eval env)) ↔ f.Ok env leftRange := by
  simp only [f.visitRemainder_instruction hf, mem_def, Option.some.injEq, forall_eq',
    f.eval_instruction hf, HInstruction.eval]
  rcases leftRange with _ | range | m
  · exact iff_of_true (fun x _ => f.contains_divisorRange hf x) trivial
  · have hrange (x : BitVec 32) : InRange env (some (.plain range)) x ↔ range.Contains env x := by
      simp [InRange]
    simp only [hrange, ValueRange.narrowInfo, f.contains_narrow_iff hf, RemainderForm.Ok]
    exact (forall_toInt_iff (P := fun z => (range.lower.isConstant = true →
      range.lower.value env ≤ z.tmod _) ∧ (f.takesUpper range = true →
        z.tmod _ ≤ range.upper.value env))).trans
      (forall_bounds_tmod_iff hf.divisor_ne)
  · exact iff_of_true (fun x _ => f.contains_divisorRange hf x) trivial

/-! ## The last digit -/

/-- The remainder by ten. -/
def lastDigit : RemainderForm := .remConstant 1 10#32

/-- The dividend's range from a constant on. -/
def fromOn (lower : Int) : RangeInfo := .plain ⟨⟨none, lower⟩, max⟩

/-- An execution; the ranges of the last digits depend on nothing in it. -/
def anyEnv : Env := ⟨fun _ => 0#32, fun _ => 0#32, 0#32⟩

lemma inRange_fromOn {lower : Int} {x : BitVec 32} (h : lower ≤ x.toInt) :
    InRange anyEnv (some (fromOn lower)) x := by
  intro range hrange
  obtain rfl := RangeInfo.plain.inj (some.inj hrange)
  have hx := (toInt_bounds x).2
  simp only [ValueRange.Contains, ValueBound.value, ValueBound.max, map_none, getD_none, zero_add]
  exact ⟨h, hx⟩

/-- The last digit of a number from zero on is from zero to nine. -/
theorem contains_lastDigit : ∃ r : ValueRange,
      visitRemainder (some (fromOn 0)) none (lastDigit.instruction (.value 0 false)) = some r ∧
      r.Contains anyEnv ((lastDigit.instruction (.intConstant 57#32)).eval anyEnv) :=
  ⟨⟨⟨none, 0⟩, ⟨none, 9⟩⟩, by decide,
    (forall_contains_iff (show lastDigit.Valid anyEnv from (by decide : (10#32 : BitVec 32) ≠ 0#32))
      (some (fromOn 0)) none (.value 0 false)).2
      (.inr ⟨fun _ => .inl (by decide), fun _ => .inl (by decide)⟩) 57#32
      (inRange_fromOn (by decide)) _ (by decide)⟩

/-- The last digit of a number from five on is said to be from five to nine. It is zero for ten,
    and five less is a negative index, said to be from zero to four. -/
theorem lastDigit_fromFive : ∃ r : ValueRange,
      visitRemainder (some (fromOn 5)) none (lastDigit.instruction (.value 0 false)) = some r ∧
      InRange anyEnv (some (fromOn 5)) 10#32 ∧
      ¬ r.Contains anyEnv ((lastDigit.instruction (.intConstant 10#32)).eval anyEnv) ∧
      (r.add (-5)).value = some ⟨⟨none, 0⟩, ⟨none, 4⟩⟩ ∧
      ((lastDigit.instruction (.intConstant 10#32)).eval anyEnv - 5#32).toInt = -5 := by
  refine ⟨⟨⟨none, 5⟩, none, 9⟩, by decide, inRange_fromOn (by decide), ?_, by decide, by decide⟩
  rintro ⟨hlower, -⟩
  revert hlower
  decide

end Art.BoundsCheckElimination
