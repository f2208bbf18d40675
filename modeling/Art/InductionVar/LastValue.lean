import Mathlib.Data.BitVec
import Mathlib.Data.Int.NatPrime
import Art.Lib.Signed
import Art.InductionVar.Range

/-!
# Last values of inductions

The code of `compiler/optimizing/induction_var_range.cc` that replaces the value of a loop phi after
a known number of iterations by a closed form, for sums over a linear induction and for repeated
products and quotients. The closed form is computed in 64-bit arithmetic.
-/

namespace Art

open Int Nat Signed

open BitVec (ofInt ofInt_add ofInt_mul ofInt_natCast ofNat intMin ofInt)

variable {t : ControlType}

/-- The trip count of a loop, which has a type of its own. -/
abbrev LoopTripCount := (t : ControlType) × TypedInvariant t

/-! ## Sums over a linear induction -/

/-- An `InductionInfo` of the class `kPolynomial`: the sum of the linear induction
    `stride * i + start` over the iterations, from an initial value on. -/
structure Polynomial (t : ControlType) where
  stride : TypedInvariant t
  start : TypedInvariant t
  initial : TypedInvariant t

/-- `a * ((m * (m - 1)) / 2) + b * m`, in 64-bit arithmetic. -/
def polynomialSum (a b m : BitVec 64) : BitVec 64 := a * (m * (m - 1)).sdiv 2 + b * m

/-- `GenerateLastValuePolynomial`: the expression that is emitted. -/
def generateLastValuePolynomial (chaseHint : Option AnyInstruction) (info : Polynomial t)
    (trip : LoopTripCount) : Option (TypedInvariant t) :=
  match isConstant chaseHint .exact info.stride, isConstant chaseHint .exact info.start,
    isConstant chaseHint .exact trip.2 with
  | some a, some b, some m =>
    if 1 ≤ m then
      let sum := polynomialSum (ofInt 64 a) (ofInt 64 b) (ofInt 64 m)
      some (.op .add (.constant (sum.setWidth t.width)) info.initial)
    else none
  | _, _, _ => none

/-- The phi after `m` iterations, the `i`th of which adds `a * i + b`. -/
def polynomialValue {w : ℕ} (a b c : BitVec w) : ℕ → BitVec w
  | 0 => c
  | m + 1 => polynomialValue a b c m + (a * BitVec.ofNat w m + b)

variable {w : ℕ}

/-- The closed form, over the integers. -/
lemma polynomialValue_eq (a b : ℤ) (c : BitVec w) (m : ℕ) : polynomialValue (ofInt w a) (ofInt w b) c m =
      ofInt w (a * ((m * (m - 1) : ℤ) / 2) + b * m) + c := by
  induction m with
  | zero => simp [polynomialValue]
  | succ m ih =>
    -- The sum up to `m` grows by `m`.
    have htri : ((m + 1 : ℕ) * ((m + 1 : ℕ) - 1) : ℤ) / 2 = (m * (m - 1) : ℤ) / 2 + m := by
      have hsplit : ((m + 1 : ℕ) * ((m + 1 : ℕ) - 1) : ℤ) = m * (m - 1) + m * 2 := by
        push_cast
        ring
      rw [hsplit, add_mul_ediv_right _ _ (by decide)]
    rw [polynomialValue, ih, htri, ← ofInt_natCast, ← ofInt_mul, ← ofInt_add, add_right_comm, ← ofInt_add]
    congr 2
    push_cast
    ring

/-- The sum is that of the integers, up to the multiple of `2 ^ 64` that the product has lost. -/
lemma polynomialSum_eq (a b m : ℤ) : polynomialSum (ofInt 64 a) (ofInt 64 b) (ofInt 64 m) =
      ofInt 64 (a * (m * (m - 1) / 2 - (m * (m - 1)).bdiv (2 ^ 64) * 2 ^ 63) + b * m) := by
  have heven : 2 ∣ m * (m - 1) := (even_mul_pred_self m).two_dvd
  have hsplit := bdiv_add_bmod (m * (m - 1)) (2 ^ 64)
  have hproduct : ofInt 64 m * (ofInt 64 m - 1) = ofInt 64 (m * (m - 1)) := by
    rw [ofInt_mul, ofInt_sub]
    rfl
  have hhalf : ((m * (m - 1)).bmod (2 ^ 64)).tdiv 2 =
      m * (m - 1) / 2 - (m * (m - 1)).bdiv (2 ^ 64) * 2 ^ 63 := by
    -- What wraps around is even, and so is the rest.
    generalize (m * (m - 1)).bmod (2 ^ 64) = rest at *
    obtain ⟨k, rfl⟩ : 2 ∣ rest := by omega
    rw [mul_tdiv_cancel_left _ (by decide)]
    omega
  rw [polynomialSum, hproduct, sdiv_eq_ofInt, BitVec.toInt_ofInt]
  rw [show ((2 : BitVec 64)).toInt = 2 from rfl, hhalf, ← ofInt_mul, ← ofInt_mul, ← ofInt_add]

/-- The low bits of the sum are those of the phi exactly if what is lost is a multiple of `2 ^ w`. -/
lemma setWidth_polynomialSum_iff (hw : w ≤ 64) (a b : ℤ) {m : ℤ} (hm : 0 ≤ m) (c : BitVec w) :
    (polynomialSum (ofInt 64 a) (ofInt 64 b) (ofInt 64 m)).setWidth w + c =
        polynomialValue (ofInt w a) (ofInt w b) c m.toNat ↔
      (2 : ℤ) ^ w ∣ a * (m * (m - 1)).bdiv (2 ^ 64) * 2 ^ 63 := by
  rw [polynomialSum_eq, Signed.setWidth_ofInt hw, polynomialValue_eq, Int.toNat_of_nonneg hm,
    add_left_inj, Signed.ofInt_eq_ofInt_iff, ← Int.dvd_neg]
  ring_nf

lemma width_le (t : ControlType) : t.width ≤ 64 := by
  cases t <;> decide

/-- The expression for the last value of a sum has the value of the phi after the `m` iterations
    exactly if the phi is an int, or the stride is even, or the product `m * (m - 1)` has lost an
    even multiple of `2 ^ 64` (none, up to `m = 3037000500`). -/
theorem evalIn_generateLastValuePolynomial_iff {chaseHint : Option AnyInstruction}
    {info : Polynomial t} {trip : LoopTripCount} {a b m : ℤ}
    (ha : isConstant chaseHint .exact info.stride = some a)
    (hb : isConstant chaseHint .exact info.start = some b)
    (hm : isConstant chaseHint .exact trip.2 = some m) (hpos : 1 ≤ m) (env : Execution) :
    ∃ e, generateLastValuePolynomial chaseHint info trip = some e ∧
      (e.evalIn env = polynomialValue (ofInt t.width a) (ofInt t.width b)
          (info.initial.evalIn env) m.toNat ↔ t = .int32 ∨ 2 ∣ a ∨ 2 ∣ (m * (m - 1)).bdiv (2 ^ 64)) := by
  refine ⟨_, by rw [generateLastValuePolynomial, ha, hb, hm]; exact if_pos hpos, ?_⟩
  refine (setWidth_polynomialSum_iff (width_le t) a b (by omega) _).trans ?_
  cases t with
  | int32 => exact iff_of_true (Dvd.dvd.mul_left (by decide) _) (.inl rfl)
  | int64 =>
    have hfactor (z : ℤ) : (2 : ℤ) ^ 64 ∣ z * 2 ^ 63 ↔ 2 ∣ z := by omega
    rw [or_iff_right (by simp), ← even_iff_two_dvd, ← even_iff_two_dvd, ← Int.even_mul, even_iff_two_dvd]
    exact hfactor _

/-- The sum of the first `m` numbers. -/
def sumOfNumbers : Polynomial .int64 := ⟨.constant 1, .constant 0, .constant 0⟩

/-- A trip count that is a constant. -/
def constantTrip (m : BitVec 64) : LoopTripCount := ⟨.int64, .constant m⟩

/-- An execution in which every value is zero. -/
def zeroExecution : Execution := ⟨fun _ _ => 0, fun _ => 0, by simp⟩

/-- The sum of the first hundred numbers. -/
theorem evalIn_sumOfNumbers : ∃ e, generateLastValuePolynomial none sumOfNumbers (constantTrip 100) = some e ∧
      e.evalIn zeroExecution = polynomialValue (ofInt 64 1) (ofInt 64 0) 0 100 := by
  obtain ⟨e, he, hiff⟩ := evalIn_generateLastValuePolynomial_iff
    (show isConstant none .exact _ = some 1 from rfl)
    (show isConstant none .exact sumOfNumbers.start = some 0 from rfl)
    (show isConstant none .exact (constantTrip 100).2 = some 100 from rfl) (by decide) _
  exact ⟨e, he, hiff.2 (.inr (.inr (by decide)))⟩

/-- The sum of the first four billion numbers is off by `2 ^ 63`. -/
theorem sumOfNumbers_wrapsAround :
    ∃ e, generateLastValuePolynomial none sumOfNumbers (constantTrip 4000000000) = some e ∧
      e.evalIn zeroExecution ≠ polynomialValue (ofInt 64 1) (ofInt 64 0) 0 4000000000 := by
  refine ⟨_, rfl, fun h => ?_⟩
  have hdvd := (setWidth_polynomialSum_iff (le_refl 64) 1 0 (show 0 ≤ (4000000000 : ℤ) by decide) 0).1 h
  revert hdvd
  decide

/-! ## Powers -/

def safeMul (a b : BitVec 64) (overflow : Bool) : BitVec 64 × Bool :=
  (a * b, overflow || decide (0 < a.toInt ∧ 0 < b.toInt ∧ maxValueOfIntegralType 64 / b.toInt < a.toInt))

/-- The factor that the lowest bit of the exponent adds to the power. -/
def multiplyIfOdd (e : ℕ) (b pow : BitVec 64) (overflow : Bool) : BitVec 64 × Bool :=
  if e % 2 = 1 then safeMul pow b overflow else (pow, overflow)

/-- The next square, unless the exponent has no bits left. -/
def squareUnlessLast (e : ℕ) (b : BitVec 64) (overflow : Bool) : BitVec 64 × Bool :=
  if e / 2 = 0 then (b, overflow) else safeMul b b overflow

/-- The loop of `IntPow`, with a bound of the number of its iterations. -/
def intPowLoop : ℕ → BitVec 64 → ℕ → BitVec 64 → Bool → BitVec 64 × Bool
  | 0, _, _, pow, overflow => (pow, overflow)
  | fuel + 1, b, e, pow, overflow =>
    if e = 0 then (pow, overflow)
    else
      let product := multiplyIfOdd e b pow overflow
      let square := squareUnlessLast e b product.2
      intPowLoop fuel square.1 (e / 2) product.1 square.2

/-- `IntPow`: the power, and whether it has wrapped around. An exponent has 63 bits. -/
def intPow (b : BitVec 64) (e : ℕ) : BitVec 64 × Bool := intPowLoop 63 b e 1 false

lemma pow_half_mul {M : Type*} [Monoid M] (b : M) (e : ℕ) : (b * b) ^ (e / 2) * b ^ (e % 2) = b ^ e := by
  rw [← sq, ← pow_mul, ← pow_add, div_add_mod]

lemma fst_multiplyIfOdd (e : ℕ) (b pow : BitVec 64) (overflow : Bool) :
    (multiplyIfOdd e b pow overflow).1 = pow * b ^ (e % 2) := by
  rcases mod_two_eq_zero_or_one e with h | h <;> simp [multiplyIfOdd, h, safeMul]

lemma fst_squareUnlessLast_pow (e : ℕ) (b : BitVec 64) (overflow : Bool) :
    (squareUnlessLast e b overflow).1 ^ (e / 2) = (b * b) ^ (e / 2) := by
  by_cases hlast : e / 2 = 0
  · rw [hlast, pow_zero, pow_zero]
  · rw [squareUnlessLast, if_neg hlast, safeMul]

variable {fuel e : ℕ}

/-- The loop multiplies the power of what is left of the exponent. -/
lemma fst_intPowLoop (b : BitVec 64) (pow : BitVec 64) (overflow : Bool) (he : e < 2 ^ fuel) :
    (intPowLoop fuel b e pow overflow).1 = pow * b ^ e := by
  induction fuel generalizing b e pow overflow with
  | zero =>
    obtain rfl : e = 0 := by omega
    rw [intPowLoop, pow_zero, mul_one]
  | succ fuel ih =>
    rw [intPowLoop]
    by_cases hzero : e = 0
    · rw [if_pos hzero, hzero, pow_zero, mul_one]
    · have hhalf : e / 2 < 2 ^ fuel := by omega
      rw [if_neg hzero, ih _ _ _ hhalf, fst_multiplyIfOdd, fst_squareUnlessLast_pow, mul_assoc,
        mul_comm (b ^ (e % 2)), pow_half_mul]

lemma snd_squareUnlessLast_of_overflow (e : ℕ) (b : BitVec 64) : (squareUnlessLast e b true).2 = true := by
  rw [squareUnlessLast]
  split_ifs <;> rfl

/-- An overflow is not forgotten. -/
lemma snd_intPowLoop_of_overflow (fuel : ℕ) (b : BitVec 64) (e : ℕ) (pow : BitVec 64) :
    (intPowLoop fuel b e pow true).2 = true := by
  induction fuel generalizing b e pow with
  | zero => rfl
  | succ fuel ih =>
    have hproduct : (multiplyIfOdd e b pow true).2 = true := by
      rw [multiplyIfOdd]
      split_ifs <;> rfl
    rw [intPowLoop]
    by_cases hzero : e = 0
    · rw [if_pos hzero]
    · rw [if_neg hzero]
      dsimp only
      rw [hproduct, snd_squareUnlessLast_of_overflow, ih]

lemma toInt_ofNat_of_lt_two_pow {n : ℕ} (hn : n < 2 ^ 63) : (ofNat 64 n).toInt = n := by
  rw [← ofInt_natCast]
  exact BitVec.toInt_ofInt_eq_self (by decide) (by omega) (by omega)

variable {b : ℕ}

/-- Of positive numbers the product is exact, or the overflow is reported. -/
lemma safeMul_ofNat {a : ℕ} (ha : 0 < a) (ha' : a < 2 ^ 63) (hb : 0 < b) (hb' : b < 2 ^ 63) :
    safeMul (ofNat 64 a) (ofNat 64 b) false = (ofNat 64 (a * b), decide (2 ^ 63 ≤ a * b)) := by
  have hover : (maxValueOfIntegralType 64 / (b : ℤ) < a) ↔ 2 ^ 63 ≤ a * b := by
    rw [Int.ediv_lt_iff_lt_mul (by omega), maxValueOfIntegralType]
    constructor
    · intro h
      omega
    · intro h
      have h' : (2 ^ 63 - 1 : ℤ) < ((a * b : ℕ) : ℤ) := by omega
      exact h'
  rw [safeMul, toInt_ofNat_of_lt_two_pow ha', toInt_ofNat_of_lt_two_pow hb', BitVec.ofNat_mul, Bool.false_or]
  congr 1
  rw [decide_eq_decide, ← hover]
  omega

variable {pow : ℕ}

lemma multiplyIfOdd_ofNat (e : ℕ) (hb : 0 < b) (hb' : b < 2 ^ 63) (hp : 0 < pow) (hp' : pow < 2 ^ 63) :
    multiplyIfOdd e (ofNat 64 b) (ofNat 64 pow) false =
      (ofNat 64 (pow * b ^ (e % 2)), decide (2 ^ 63 ≤ pow * b ^ (e % 2))) := by
  rcases mod_two_eq_zero_or_one e with h | h
  · have hsmall : decide (2 ^ 63 ≤ pow) = false := decide_eq_false (by omega)
    rw [multiplyIfOdd, if_neg (by omega), h, pow_zero, mul_one, hsmall]
  · rw [multiplyIfOdd, if_pos h, safeMul_ofNat hp hp' hb hb', h, pow_one]

/-- The loop reports an overflow exactly if the power is too large. -/
lemma snd_intPowLoop (hb : 0 < b) (hb' : b < 2 ^ 63) (hp : 0 < pow) (hp' : pow < 2 ^ 63)
    (he : e < 2 ^ fuel) :
    (intPowLoop fuel (ofNat 64 b) e (ofNat 64 pow) false).2 = decide (2 ^ 63 ≤ pow * b ^ e) := by
  have hsmall : decide (2 ^ 63 ≤ pow) = false := decide_eq_false (by omega)
  induction fuel generalizing b e pow with
  | zero =>
    obtain rfl : e = 0 := by omega
    rw [intPowLoop, pow_zero, mul_one, hsmall]
  | succ fuel ih =>
    rw [intPowLoop]
    by_cases hzero : e = 0
    · rw [if_pos hzero, hzero, pow_zero, mul_one, hsmall]
    have hhalf : e / 2 < 2 ^ fuel := by omega
    have hpow : pow * b ^ e = pow * b ^ (e % 2) * (b * b) ^ (e / 2) := by
      rw [mul_assoc, mul_comm (b ^ (e % 2)), pow_half_mul]
    have hpos : 0 < pow * b ^ (e % 2) := Nat.mul_pos hp (Nat.pow_pos hb)
    have hpos' : 0 < (b * b) ^ (e / 2) := Nat.pow_pos (Nat.mul_pos hb hb)
    rw [if_neg hzero, multiplyIfOdd_ofNat e hb hb' hp hp', hpow]
    generalize pow * b ^ (e % 2) = product at *
    dsimp only
    by_cases hover : 2 ^ 63 ≤ product
    · -- The product is a factor of the result.
      rw [decide_eq_true hover, snd_squareUnlessLast_of_overflow, snd_intPowLoop_of_overflow,
        eq_comm, decide_eq_true_iff]
      exact hover.trans (Nat.le_mul_of_pos_right product hpos')
    · have hexact : decide (2 ^ 63 ≤ product) = false := decide_eq_false hover
      rw [hexact, squareUnlessLast]
      by_cases hlast : e / 2 = 0
      · rw [if_pos hlast, ih hb hb' hpos (by omega) hhalf hexact, hlast, pow_zero, pow_zero]
      · rw [if_neg hlast, safeMul_ofNat hb hb' hb hb']
        by_cases hover' : 2 ^ 63 ≤ b * b
        · -- So is the square, as the exponent has a bit left.
          rw [decide_eq_true hover', snd_intPowLoop_of_overflow, eq_comm, decide_eq_true_iff]
          calc 2 ^ 63 ≤ b * b := hover'
            _ ≤ (b * b) ^ (e / 2) := le_self_pow hlast _
            _ ≤ product * (b * b) ^ (e / 2) := Nat.le_mul_of_pos_left _ hpos
        · rw [decide_eq_false hover', ih (mul_pos hb hb) (by omega) hpos (by omega) hhalf hexact]

/-- The power is right up to wrapping around, which is reported. -/
lemma intPow_ofNat (hb : 0 < b) (hb' : b < 2 ^ 63) (he : e < 2 ^ 63) :
    intPow (ofNat 64 b) e = (ofNat 64 (b ^ e), decide (2 ^ 63 ≤ b ^ e)) := by
  have hpow (n : ℕ) : ofNat 64 b ^ n = ofNat 64 (b ^ n) := by
    induction n with
    | zero => rfl
    | succ n ih => rw [pow_succ, pow_succ, ih, BitVec.ofNat_mul]
  have hfst := fst_intPowLoop (ofNat 64 b) 1 false he
  have hsnd := snd_intPowLoop hb hb' (show 0 < 1 by decide) (by decide) he
  rw [one_mul, hpow] at hfst
  rw [one_mul] at hsnd
  exact Prod.ext hfst hsnd

/-! ## Repeated products and quotients -/

/-- The operations of an induction of the class `kGeometric`. -/
inductive GeometricOp
  | mul
  | div
  deriving DecidableEq

/-- An iteration with the factor `f`. -/
def GeometricOp.apply {w : ℕ} : GeometricOp → BitVec w → BitVec w → BitVec w
  | mul, k, f => k * f
  | div, k, f => k.sdiv f

/-- The operation of the code that is emitted. -/
def GeometricOp.toInvariantOp : GeometricOp → InvariantOp
  | mul => .mul
  | div => .div

/-- An `InductionInfo` of the class `kGeometric`: `initial * f ^ i + offset`, where the factor `f` is
    fetched. -/
structure Geometric (t : ControlType) where
  operation : GeometricOp
  initial : TypedInvariant t
  offset : TypedInvariant t
  fetch : HInstruction t

/-- `SolveOp`, for a product or a quotient of the phi and what is fetched. -/
def solveGeometric (operation : GeometricOp) (initial : TypedInvariant t) (fetch : HInstruction t) :
    Geometric t :=
  ⟨operation, initial, .constant 0, fetch⟩

/-- `IsInt64AndGet`. -/
def HInstruction.int64Value : HInstruction t → Option ℤ
  | constant value => some value.toInt
  | _ => none

/-- The power as a constant of the type: a product may be truncated, a quotient by a power that does
    not fit is taken to be zero. -/
def geometricPower (t : ControlType) (operation : GeometricOp) (f : ℤ) (m : ℕ) : BitVec t.width :=
  let fpow := intPow (ofInt 64 f) m
  match operation with
  | .div =>
    if fpow.2 || (decide (t ≠ .int64) && !canLongValueFitIntoInt fpow.1.toInt) then 0
    else fpow.1.setWidth t.width
  | .mul => fpow.1.setWidth t.width

/-- `GenerateLastValueGeometric`: the expression that is emitted. -/
def generateLastValueGeometric (chaseHint : Option AnyInstruction) (info : Geometric t)
    (trip : LoopTripCount) : Option (TypedInvariant t) :=
  match info.fetch.int64Value, isConstant chaseHint .exact trip.2 with
  | some f, some m =>
    if 1 ≤ f ∧ 1 ≤ m then
      let fpow := geometricPower t info.operation f m.toNat
      if fpow = 0 then some (.constant 0)
      else
        some (.op .add (.op info.operation.toInvariantOp info.initial (.constant fpow)) info.offset)
    else none
  | _, _ => none

/-- The phi after `m` iterations. -/
def geometricValue {w : ℕ} (operation : GeometricOp) (a f : BitVec w) : ℕ → BitVec w
  | 0 => a
  | m + 1 => operation.apply (geometricValue operation a f m) f

lemma ofInt_pow (f : ℤ) (m : ℕ) : ofInt w (f ^ m) = ofInt w f ^ m := by
  induction m with
  | zero => rw [pow_zero, pow_zero]; rfl
  | succ m ih => rw [pow_succ, pow_succ, ofInt_mul, ih]

/-- Repeated products are one product. -/
lemma geometricValue_mul (a f : BitVec w) (m : ℕ) : geometricValue .mul a f m = a * f ^ m := by
  induction m with
  | zero => rw [geometricValue, pow_zero, mul_one]
  | succ m ih => rw [geometricValue, GeometricOp.apply, ih, pow_succ, mul_assoc]

/-- Repeated quotients are one quotient, over the integers. -/
lemma toInt_geometricValue_div (hw : 0 < w) (a : BitVec w) {f : BitVec w} (hf : 0 < f.toInt)
    (m : ℕ) : (geometricValue .div a f m).toInt = a.toInt.tdiv (f.toInt ^ m) := by
  induction m with
  | zero => rw [geometricValue, pow_zero, Int.tdiv_one]
  | succ m ih =>
    rw [geometricValue, GeometricOp.apply, toInt_sdiv_of_pos hw _ hf, ih,
      tdiv_tdiv _ (by positivity), ← pow_succ]

/-- A number divided by something larger is zero, but for the least number. -/
lemma tdiv_eq_zero_iff {a H p : ℤ} (ha : -H ≤ a) (ha' : a < H) (hp : H ≤ p) (hH : 0 < H) :
    a.tdiv p = 0 ↔ ¬ (a = -H ∧ p = H) := by
  constructor
  · rintro h ⟨rfl, rfl⟩
    rw [Int.neg_tdiv, Int.tdiv_self (by omega)] at h
    omega
  · intro h
    rcases le_total 0 a with hpos | hneg
    · exact tdiv_eq_zero_of_lt hpos (by omega)
    · have hlt : -a < p := by omega
      have hzero := tdiv_eq_zero_of_lt (by omega) hlt
      rwa [Int.neg_tdiv, neg_eq_zero] at hzero

lemma width_pos (t : ControlType) : 0 < t.width := by
  cases t <;> decide

/-- The least number of a type. -/
def ControlType.minValue (t : ControlType) : ℤ := minValueOfIntegralType t.width

section

variable {f : ℤ} {m : ℕ}

lemma intPow_ofInt (hf : 0 < f) (hf' : f < 2 ^ 63) (hm : m < 2 ^ 63) :
    intPow (ofInt 64 f) m = (ofInt 64 (f ^ m), decide (2 ^ 63 ≤ f ^ m)) := by
  obtain ⟨n, rfl⟩ := eq_ofNat_of_zero_le hf.le
  rw [ofInt_natCast, intPow_ofNat (by omega) (by omega) hm, ← natCast_pow]
  congr 1
  rw [decide_eq_decide]
  omega

/-- The power that a quotient is taken by is exact where it fits the type. -/
lemma geometricPower_div (hf : 0 < f) (hf' : f < 2 ^ 63) (hm : m < 2 ^ 63) : geometricPower t .div f m =
      if f ^ m < 2 ^ (t.width - 1) then ofInt t.width (f ^ m) else 0 := by
  have hpos : 0 < f ^ m := by positivity
  have hfits : ((decide (2 ^ 63 ≤ f ^ m) || (decide (t ≠ .int64) &&
      !canLongValueFitIntoInt (ofInt 64 (f ^ m)).toInt)) = true) ↔ ¬ f ^ m < 2 ^ (t.width - 1) := by
    by_cases hover : 2 ^ 63 ≤ f ^ m
    · simp only [hover, decide_true, Bool.true_or, true_iff]
      cases t with
      | int32 => exact not_lt.2 ((show (2 : ℤ) ^ 31 ≤ 2 ^ 63 by decide).trans hover)
      | int64 => exact not_lt.2 hover
    · have htoInt : (ofInt 64 (f ^ m)).toInt = f ^ m :=
        BitVec.toInt_ofInt_eq_self (by decide) (by omega) (by omega)
      rw [htoInt, decide_eq_false hover, Bool.false_or]
      cases t with
      | int32 =>
        simp only [ControlType.width, canLongValueFitIntoInt, ne_eq, reduceCtorEq, not_false_eq_true,
          decide_true, Bool.true_and, Bool.not_eq_true', Bool.and_eq_false_iff, decide_eq_false_iff_not]
        omega
      | int64 =>
        simp only [ControlType.width, ne_eq, not_true_eq_false, decide_false, Bool.false_and,
          Bool.false_eq_true, false_iff, not_not]
        omega
  rw [geometricPower, intPow_ofInt hf hf' hm]
  by_cases hlt : f ^ m < 2 ^ (t.width - 1)
  · rw [if_pos hlt, if_neg (by rw [hfits]; exact not_not.2 hlt)]
    exact Signed.setWidth_ofInt (width_le t) _
  · rw [if_neg hlt, if_pos (hfits.2 hlt)]

end

lemma exists_of_int64Value {fetch : HInstruction t} {f : ℤ} (h : fetch.int64Value = some f) :
    ∃ value, fetch = .constant value ∧ value.toInt = f := by
  cases fetch with
  | constant value => exact ⟨value, rfl, Option.some.inj h⟩
  | _ => cases h

lemma toInt_lt_two_pow (value : BitVec t.width) : value.toInt < 2 ^ 63 := by
  have h := @BitVec.toInt_lt t.width value
  cases t with
  | int32 => exact h.trans (by decide)
  | int64 => exact h

/-- The expression for the last value of a repeated product has the value of the phi after the `m`
    iterations. For a repeated quotient it has, but for the least number and a power that is just
    too large: the quotient is minus one, and zero is emitted. -/
theorem evalIn_generateLastValueGeometric_iff {chaseHint : Option AnyInstruction}
    {operation : GeometricOp} {initial : TypedInvariant t} {fetch : HInstruction t}
    {trip : LoopTripCount} {f m : ℤ} (hf : fetch.int64Value = some f) (hpos : 1 ≤ f)
    (hm : isConstant chaseHint .exact trip.2 = some m) (hm1 : 1 ≤ m) (hm63 : m < 2 ^ 63)
    (env : Execution) :
    ∃ e, generateLastValueGeometric chaseHint (solveGeometric operation initial fetch) trip = some e ∧
      (e.evalIn env = geometricValue operation (initial.evalIn env) (fetch.eval env) m.toNat ↔
        operation = .mul ∨
          ¬ ((initial.evalIn env).toInt = t.minValue ∧ f ^ m.toNat = 2 ^ (t.width - 1))) := by
  obtain ⟨value, rfl, rfl⟩ := exists_of_int64Value hf
  have hf63 := toInt_lt_two_pow value
  have hfpos : 0 < value.toInt := by omega
  have hm' : m.toNat < 2 ^ 63 := by omega
  have hpow : 0 < value.toInt ^ m.toNat := by positivity
  rw [generateLastValueGeometric, solveGeometric, hf, hm]
  dsimp only
  rw [if_pos ⟨hpos, hm1⟩]
  cases operation with
  | mul =>
    rw [geometricPower, intPow_ofInt hfpos hf63 hm']
    rw [Signed.setWidth_ofInt (width_le t), ofInt_pow, BitVec.ofInt_toInt, geometricValue_mul]
    simp only [true_or, iff_true]
    by_cases hzero : value ^ m.toNat = 0
    · exact ⟨_, if_pos hzero, by
        rw [show (HInstruction.constant value).eval env = value from rfl, hzero, mul_zero]; rfl⟩
    · refine ⟨_, if_neg hzero, ?_⟩
      exact add_zero _
  | div =>
    simp only [reduceCtorEq, false_or]
    rw [geometricPower_div hfpos hf63 hm']
    have hvalue := toInt_geometricValue_div (width_pos t) (initial.evalIn env) hfpos m.toNat
    by_cases hlt : value.toInt ^ m.toNat < 2 ^ (t.width - 1)
    · -- The power fits: one quotient by it is the repeated quotient.
      have hfpow :=
        BitVec.toInt_ofInt_eq_self (width_pos t) ((neg_nonpos.2 (by positivity)).trans hpow.le) hlt
      have hne : ofInt t.width (value.toInt ^ m.toNat) ≠ 0 := by
        intro hzero
        rw [hzero, BitVec.ofNat_eq_ofNat, BitVec.toInt_zero] at hfpow
        exact hpow.ne hfpow
      rw [if_pos hlt]
      refine ⟨_, if_neg hne, iff_of_true ?_ fun h => hlt.ne h.2⟩
      refine (add_zero ((initial.evalIn env).sdiv (ofInt t.width _))).trans
        (BitVec.eq_of_toInt_eq ?_)
      rw [Signed.toInt_sdiv_of_pos (width_pos t) _ (hfpow.symm ▸ hpow), hfpow]
      exact hvalue.symm
    · -- The power does not fit: zero is emitted.
      rw [if_neg hlt]
      refine ⟨_, if_pos rfl, ?_⟩
      rw [← BitVec.toInt_inj]
      refine Iff.trans ?_ (tdiv_eq_zero_iff (BitVec.le_toInt _) BitVec.toInt_lt (not_lt.1 hlt)
        (by positivity))
      rw [← hvalue, eq_comm, show (Invariant.constant (0 : BitVec t.width)).evalIn env = 0 from rfl,
        BitVec.ofNat_eq_ofNat, BitVec.toInt_zero]
      rfl

/-- A number that is halved again and again. -/
def repeatedHalves (a : BitVec 32) : Geometric .int32 := solveGeometric .div (.constant a) (.constant 2)

/-- A hundred that is halved three times. -/
theorem evalIn_halvedHundred :
    ∃ e, generateLastValueGeometric none (repeatedHalves 100) (constantTrip 3) = some e ∧
      e.evalIn zeroExecution = geometricValue .div (100 : BitVec 32) 2 3 := by
  obtain ⟨e, he, hiff⟩ := evalIn_generateLastValueGeometric_iff
    (show (HInstruction.constant (2 : BitVec ControlType.int32.width)).int64Value = some 2 from rfl)
    (by decide) (show isConstant none .exact (constantTrip 3).2 = some 3 from rfl) (by decide)
    (by decide) _
  exact ⟨e, he, hiff.2 (.inr (by decide))⟩

/-- The least number that is halved 31 times is minus one, and zero is emitted for it. -/
theorem halvedMinimum_emitsZero :
    ∃ e, generateLastValueGeometric none (repeatedHalves (intMin 32)) (constantTrip 31) = some e ∧
      e.evalIn zeroExecution = 0 ∧ geometricValue .div (intMin 32) 2 31 = -1 := by
  refine ⟨.constant 0, rfl, rfl, BitVec.eq_of_toInt_eq ?_⟩
  rw [toInt_geometricValue_div (by decide) _ (by decide)]
  decide

end Art
