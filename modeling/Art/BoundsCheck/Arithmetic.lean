import Art.Lib.Overflow
import Art.BoundsCheck.Deoptimize

/-!
# Ranges of sums, differences and parts of array lengths

The ranges that the analysis gives to `x + c`, to `x - c`, to `array.length + c - v` and to parts
of `array.length + c`. The constants of the bounds are computed in 32-bit arithmetic, behind
checks that are meant to keep them from overflowing.

* `assignsSoundly_visit_iff`, when that is so
-/

namespace Art.BoundsCheckElimination

open Overflow Traced ValueBound Option
open ValueBound (addOrSubLoop make wouldAddOverflowOrUnderflow)

/-! ## Bounds in 32-bit arithmetic -/

namespace ValueBound

/-- `WouldAddOverflowOrUnderflow`, in 32-bit arithmetic. -/
def wouldAddTraced (left right : Int) : Traced Bool :=
  if right = 0 then pure false
  else if right > 0 then do
    let bound ← ofInt 32 (kMaxInt - right)
    pure (decide (bound < left))
  else do
    let bound ← ofInt 32 (kMinInt - right)
    pure (decide (left < bound))

/-- The constructor, in 32-bit arithmetic. -/
def makeTraced (instruction : Option HInstruction) (constant : Int) : Traced ValueBound :=
  match instruction with
  | some (.intConstant c) => do
    if ← wouldAddTraced c.toInt constant then pure ⟨instruction, constant⟩
    else do
      let sum ← ofInt 32 (c.toInt + constant)
      pure ⟨none, sum⟩
  | _ => pure ⟨instruction, constant⟩

/-- `Add`, in 32-bit arithmetic. -/
def addTraced (b : ValueBound) (c : Int) : Traced (Option ValueBound) :=
  if c = 0 then pure (some b)
  else if c > 0 then do
    let bound ← ofInt 32 (kMaxInt - c)
    if b.constant > bound then pure none
    else do
      let newConstant ← ofInt 32 (b.constant + c)
      if b.isConstant || (b.isRelatedToArrayLength && decide (newConstant ≤ 0)) then do
        let sum ← makeTraced b.instruction newConstant
        pure (some sum)
      else pure none
  else do
    let bound ← ofInt 32 (kMinInt - c)
    if b.constant < bound then pure none
    else do
      let newConstant ← ofInt 32 (b.constant + c)
      if b.isConstant || b.isRelatedToArrayLength then do
        let sum ← makeTraced b.instruction newConstant
        pure (some sum)
      else pure none

/-- The loop of `IsAddOrSubAConstant`, in 32-bit arithmetic. -/
def addOrSubLoopTraced (rightSoFar : Int) : HInstruction → Traced (HInstruction × Int)
  | .add id left (.intConstant v) => do
    if ← wouldAddTraced rightSoFar v.toInt then pure (.add id left (.intConstant v), rightSoFar)
    else do
      let sum ← ofInt 32 (rightSoFar + v.toInt)
      addOrSubLoopTraced sum left
  | .sub id left (.intConstant v) => do
    let c ← ofInt 32 (-v.toInt)
    if ← wouldAddTraced rightSoFar c then pure (.sub id left (.intConstant v), rightSoFar)
    else do
      let sum ← ofInt 32 (rightSoFar + c)
      addOrSubLoopTraced sum left
  | i => pure (i, rightSoFar)

/-- `IsAddOrSubAConstant`, in 32-bit arithmetic; where it fails the instruction is left as it is,
    with nothing added. -/
def splitConstant (instruction : HInstruction) : Traced (HInstruction × Int) :=
  addOrSubLoopTraced 0 instruction

end ValueBound

/-! ## The ranges -/

/-- The range of an instruction as a plain one: for a monotonic range, every number. -/
def RangeInfo.toRange : RangeInfo → ValueRange
  | plain r => r
  | monotonic _ => ⟨ValueBound.min, ValueBound.max⟩

/-- `ValueRange::Add`. Only an underflow of the lower bound and an overflow of the upper bound are
    failures: otherwise a bound that cannot be shifted is replaced by the last number. -/
def ValueRange.add (r : ValueRange) (c : Int) : Traced (Option ValueRange) := do
  let lower ← r.lower.addTraced c
  if lower.isNone && decide (c < 0) then pure none
  else do
    let upper ← r.upper.addTraced c
    if upper.isNone && decide (0 < c) then pure none
    else pure (some ⟨lower.getD ValueBound.max, upper.getD ValueBound.min⟩)

variable (leftRange : Option RangeInfo)

/-- `VisitAdd`, where `leftRange` is what `LookupValueRange` finds for the left input. -/
def visitAdd (right : HInstruction) : Traced (Option ValueRange) :=
  match right, leftRange with
  | .intConstant v, some info => info.toRange.add v.toInt
  | _, _ => pure none

/-- The range of `array.length + c0 - v` for `v` in `[c1, array.length + c2]`. -/
def triangularRange (arrayLength : HInstruction) (c0 c1 c2 : Int) :
    Traced (Option ValueRange) := do
  let negC2 ← ofInt 32 (-c2)
  if ← ValueBound.wouldAddTraced c0 negC2 then pure none
  else do
    let negC1 ← ofInt 32 (-c1)
    if ← ValueBound.wouldAddTraced c0 negC1 then pure none
    else do
      let difference ← ofInt 32 (c0 - c1)
      if difference ≤ 0 then do
        let lower ← ofInt 32 (c0 - c2)
        let upper ← ofInt 32 (c0 - c1)
        pure (some ⟨ValueBound.make none lower, ValueBound.make (some arrayLength) upper⟩)
      else pure none

/-- The range goes from a constant up to the array length and a constant. -/
def ValueRange.isTriangular (range : ValueRange) (arrayLength : HInstruction) : Bool :=
  arrayLength.isArrayLength && range.lower.isConstant && range.upper.isRelatedToArrayLength &&
    ValueBound.equal (some arrayLength) range.upper.instruction

/-- The end of `VisitSub`: a difference of an array length and a value in a range up to that length. -/
def subtractFromLength (left : HInstruction) (rightRange : Option RangeInfo) :
    Traced (Option ValueRange) := do
  let (arrayLength, rightConst) ← ValueBound.splitConstant left
  match rightRange with
  | none => pure none
  | some info =>
    let range := info.toRange
    if range.isTriangular arrayLength then
      triangularRange arrayLength rightConst range.lower.constant range.upper.constant
    else pure none

/-- `ValueRange::Narrow`, which leaves a range as it is when there is nothing to narrow it with,
    or only a monotonic range. -/
def ValueRange.narrowInfo (range : ValueRange) : Option RangeInfo → ValueRange
  | some (.plain other) => range.narrow other
  | _ => range

/-- The dividend and the divisor of a division by a constant. -/
def HInstruction.constantDivision : HInstruction → Option (HInstruction × Int)
  | .binary .div _ dividend (.intConstant d) => some (dividend, d.toInt)
  | _ => none

/-- The division and the constant that `TryToAssignRangeIfOptimizedRemWithConstantDivisor` finds in
    the right input of a difference: a quotient times a constant, or a quotient times a neighbour
    of a power of two as a shift and a sum or a difference. (The power is one of 64 bits; a shift by
    more than that is undefined and does not occur, as shifts are simplified before.) -/
def remainderProduct : HInstruction → Option (HInstruction × Int)
  | .binary .mul _ quotient (.intConstant c) => some (quotient, c.toInt)
  | .add _ quotient' (.binary .shl _ quotient (.intConstant n)) =>
    if quotient' = quotient ∧ n.toNat ≠ 31 then some (quotient, (1#64 <<< n.toNat + 1#64).toInt) else none
  | .sub _ (.binary .shl _ quotient (.intConstant n)) quotient' =>
    if quotient' = quotient then some (quotient, (1#64 <<< n.toNat - 1#64).toInt) else none
  | _ => none

/-- The divisor, where `left - right` is what is left of a division by a constant. -/
def optimizedRemDivisor (left right : HInstruction) : Option Int := do
  let (quotient, c) ← remainderProduct right
  let (dividend, d) ← quotient.constantDivision
  if d = c ∧ dividend = left then some d else none

/-- The range of the remainders by a constant. -/
def remainderRange (d : Int) : ValueRange :=
  if d = kMinInt then ⟨ValueBound.make none (kMinInt + 1), ValueBound.make none kMaxInt⟩
  else ⟨ValueBound.make none (1 - d.natAbs), ValueBound.make none (d.natAbs - 1)⟩

def tryToAssignRangeIfOptimizedRem (left right : HInstruction) : Option ValueRange :=
  (optimizedRemDivisor left right).map fun d => (remainderRange d).narrowInfo leftRange

variable (leftRange rightRange : Option RangeInfo)

/-- `VisitSub` once the difference is known to be no remainder. -/
def visitDifference (left right : HInstruction) : Traced (Option ValueRange) :=
  match right with
  | .intConstant v =>
    match leftRange with
    | none => pure none
    | some info => do
      let c ← ofInt 32 (-v.toInt)
      match ← info.toRange.add c with
      | some range => pure (some range)
      | none => subtractFromLength left rightRange
  | _ => subtractFromLength left rightRange

/-- `VisitSub`, where the ranges are those that `LookupValueRange` finds for the inputs. -/
def visitSub (left right : HInstruction) : Traced (Option ValueRange) :=
  match tryToAssignRangeIfOptimizedRem leftRange left right with
  | some range => pure (some range)
  | none => visitDifference leftRange rightRange left right

/-- The least constant on the right that makes the result a part of the left input. -/
def BinaryOp.partialFrom : BinaryOp → Int
  | div => 2
  | _ => 1

/-- `FindAndHandlePartialArrayLength`, for a division or a shift to the right. -/
def findAndHandlePartialArrayLength (op : BinaryOp) (left right : HInstruction) :
    Traced (Option ValueRange) :=
  match right with
  | .intConstant v =>
    if v.toInt < op.partialFrom then pure none
    else do
      let (arrayLength, c) ← ValueBound.splitConstant left
      if arrayLength.isArrayLength && decide (c ≤ 1) then
        if op = .ushr && decide (c < 0) then pure none
        else pure (some ⟨ValueBound.min, ValueBound.make (some arrayLength) 0⟩)
      else pure none
  | _ => pure none

/-- The inputs of a binary operation. -/
def HInstruction.leftInput : HInstruction → HInstruction
  | .add _ left _ => left
  | .sub _ left _ => left
  | .binary _ _ left _ => left
  | i => i

@[inherit_doc HInstruction.leftInput]
def HInstruction.rightInput : HInstruction → HInstruction
  | .add _ _ right => right
  | .sub _ _ right => right
  | .binary _ _ _ right => right
  | i => i

/-- The visitor of sums, differences, quotients and shifts to the right, given the ranges of the
    inputs. -/
def visitArithmetic : HInstruction → Traced (Option ValueRange)
  | .add _ _ right => visitAdd leftRange right
  | .sub _ left right => visitSub leftRange rightRange left right
  | .binary .div _ left right => findAndHandlePartialArrayLength .div left right
  | .binary .shr _ left right => findAndHandlePartialArrayLength .shr left right
  | .binary .ushr _ left right => findAndHandlePartialArrayLength .ushr left right
  | _ => pure none

/-! ## Which operations overflow -/

/-- The numbers of an `int`. -/
def IsInt (z : Int) : Prop := kMinInt ≤ z ∧ z ≤ kMaxInt

lemma isInt_toInt (x : BitVec 32) : IsInt x.toInt := toInt_bounds x

variable {z : Int}

lemma ofInt_of_isInt (h : IsInt z) : ofInt 32 z = pure z := by
  obtain ⟨h1, h2⟩ := h
  norm_num [kMinInt, kMaxInt] at h1 h2
  exact ofInt_of_mem (by decide) (by omega) (by omega)

lemma overflow_ofInt_iff : (ofInt 32 z).overflow = false ↔ IsInt z := by
  rw [overflow_ofInt, IsInt]
  norm_num [kMinInt, kMaxInt]
  omega

namespace ValueBound

/-- The differences in the check are those of a number and the last number on its side. -/
lemma wouldAddTraced_eq {left right : Int} (hr : IsInt right) :
    wouldAddTraced left right = pure (wouldAddOverflowOrUnderflow left right) := by
  obtain ⟨h1, h2⟩ := hr
  have hmin := kMinInt_eq
  have hmax := kMaxInt_eq
  rw [wouldAddTraced, wouldAddOverflowOrUnderflow]
  by_cases hzero : right = 0
  · rw [if_pos hzero, if_pos hzero]
  rw [if_neg hzero, if_neg hzero]
  by_cases hpos : right > 0
  · rw [if_pos hpos, ofInt_of_isInt ⟨by omega, by omega⟩, pure_bind]
    congr 1
    by_cases hle : left ≤ kMaxInt - right
    · rw [if_pos ⟨hpos, hle⟩, decide_eq_false_iff_not]
      omega
    · rw [if_neg (by omega), if_neg (by omega), decide_eq_true_iff]
      omega
  · rw [if_neg hpos, ofInt_of_isInt ⟨by omega, by omega⟩, pure_bind]
    congr 1
    rw [if_neg (by omega)]
    by_cases hge : left ≥ kMinInt - right
    · rw [if_pos ⟨by omega, hge⟩, decide_eq_false_iff_not]
      omega
    · rw [if_neg (by omega), decide_eq_true_iff]
      omega

variable {c : Int}

lemma makeTraced_eq (i : Option HInstruction) (hc : IsInt c) : makeTraced i c = pure (make i c) := by
  fun_cases make i c with
  | case1 v hover => simp only [makeTraced, wouldAddTraced_eq hc, pure_bind, hover, if_true]
  | case2 v hover =>
    have hsum := bounds_of_not_wouldAdd (by simpa using hover) (toInt_bounds v)
    simp only [makeTraced, wouldAddTraced_eq hc, pure_bind, hover, ofInt_of_isInt hsum]
    rfl
  | case3 i hi =>
    rw [makeTraced]
    exact hi

/-- Adding to a bound does not overflow. -/
lemma addTraced_eq {b : ValueBound} (hb : IsInt b.constant) (hc : IsInt c) :
    b.addTraced c = pure (b.add c) := by
  obtain ⟨hb1, hb2⟩ := hb
  obtain ⟨hc1, hc2⟩ := hc
  have hmin := kMinInt_eq
  have hmax := kMaxInt_eq
  rw [addTraced, add]
  by_cases hzero : c = 0
  · rw [if_pos hzero, if_pos hzero]
  rw [if_neg hzero, if_neg hzero]
  by_cases hpos : c > 0
  · rw [if_pos hpos, if_pos hpos, ofInt_of_isInt ⟨by omega, by omega⟩, pure_bind]
    by_cases hover : b.constant > kMaxInt - c
    · rw [if_pos hover, if_pos hover]
    · have hsum : IsInt (b.constant + c) := ⟨by omega, by omega⟩
      rw [ofInt_of_isInt hsum, pure_bind, makeTraced_eq _ hsum, pure_bind]
      split_ifs <;> rfl
  · rw [if_neg hpos, if_neg hpos, ofInt_of_isInt ⟨by omega, by omega⟩, pure_bind]
    by_cases hunder : b.constant < kMinInt - c
    · rw [if_pos hunder, if_pos hunder]
    · have hsum : IsInt (b.constant + c) := ⟨by omega, by omega⟩
      rw [ofInt_of_isInt hsum, pure_bind, makeTraced_eq _ hsum, pure_bind]
      split_ifs <;> rfl

/-- The loop of `IsAddOrSubAConstant` comes to a subtraction of the least number, which it negates. -/
def negatesMin (rightSoFar : Int) : HInstruction → Bool
  | .add _ left (.intConstant v) =>
    if wouldAddOverflowOrUnderflow rightSoFar v.toInt then false
    else negatesMin (rightSoFar + v.toInt) left
  | .sub _ left (.intConstant v) =>
    decide (v.toInt = kMinInt) || if wouldAddOverflowOrUnderflow rightSoFar (-v).toInt then false
      else negatesMin (rightSoFar + (-v).toInt) left
  | _ => false

lemma ofInt_neg_toInt (v : BitVec 32) :
    ofInt 32 (-v.toInt) = ⟨(-v).toInt, decide (v.toInt = kMinInt)⟩ := by
  have hvalue : (ofInt 32 (-v.toInt)).value = (-v).toInt := by
    rw [ofInt, BitVec.ofInt_neg, BitVec.ofInt_toInt]
  have hoverflow : (ofInt 32 (-v.toInt)).overflow = decide (v.toInt = kMinInt) := by
    have hv := toInt_bounds v
    have hmin := kMinInt_eq
    have hmax := kMaxInt_eq
    by_cases h : v.toInt = kMinInt
    · rw [decide_eq_true h, ← Bool.not_eq_false, overflow_ofInt_iff, IsInt]
      omega
    · rw [decide_eq_false h, overflow_ofInt_iff, IsInt]
      omega
  rw [← hvalue, ← hoverflow]

lemma addOrSubLoopTraced_eq {i : HInstruction} (hc : IsInt c) :
    addOrSubLoopTraced c i = ⟨addOrSubLoop c i, negatesMin c i⟩ := by
  fun_induction addOrSubLoop c i with
  | case1 c n left v h =>
    rw [addOrSubLoopTraced, negatesMin, wouldAddTraced_eq (isInt_toInt v), pure_bind, if_pos h, if_pos h]
    rfl
  | case2 c n left v h ih =>
    have hsum := bounds_of_not_wouldAdd (by simpa using h) hc
    rw [addOrSubLoopTraced, negatesMin, wouldAddTraced_eq (isInt_toInt v), pure_bind, if_neg h,
      if_neg h, ofInt_of_isInt hsum, pure_bind, ih hsum]
  | case3 c n left v h =>
    rw [addOrSubLoopTraced, negatesMin, ofInt_neg_toInt, mk_bind,
      wouldAddTraced_eq (isInt_toInt _), pure_bind, if_pos h, if_pos h]
    rfl
  | case4 c n left v h ih =>
    have hsum := bounds_of_not_wouldAdd (by simpa using h) hc
    rw [addOrSubLoopTraced, negatesMin, ofInt_neg_toInt, mk_bind,
      wouldAddTraced_eq (isInt_toInt _), pure_bind, if_neg h, if_neg h, ofInt_of_isInt hsum,
      pure_bind, ih hsum]
  | case5 c i h1 h2 =>
    rw [addOrSubLoopTraced, negatesMin]
    · rfl
    all_goals first | exact h1 | exact h2

lemma splitConstant_eq (i : HInstruction) : splitConstant i = ⟨addOrSubLoop 0 i, negatesMin 0 i⟩ :=
  addOrSubLoopTraced_eq ⟨by decide, by decide⟩

end ValueBound

/-! ## Shifted ranges -/

/-- A range that is known of a number: it contains it, its constants are `int`s, and lengths are
    not negative. -/
structure ValueRange.Established (env : Env) (r : ValueRange) (x : BitVec 32) : Prop where
  contains : r.Contains env x
  lower_isInt : IsInt r.lower.constant
  upper_isInt : IsInt r.upper.constant
  lower_length : r.lower.isRelatedToArrayLength = true → ∀ i ∈ r.lower.instruction, 0 ≤ (i.eval env).toInt
  upper_length : r.upper.isRelatedToArrayLength = true → ∀ i ∈ r.upper.instruction, 0 ≤ (i.eval env).toInt

/-- The computation does not overflow, and the range it yields contains the number. -/
structure AssignsSoundly (env : Env) (result : Traced (Option ValueRange)) (x : BitVec 32) :
    Prop where
  noOverflow : result.overflow = false
  contains : ∀ r, result.value = some r → r.Contains env x

variable {env : Env}

/-- An operation before a computation must not overflow either. -/
lemma assignsSoundly_or_iff {o : Bool} {result : Traced (Option ValueRange)} {x : BitVec 32} :
    AssignsSoundly env ⟨result.value, o || result.overflow⟩ x ↔ o = false ∧ AssignsSoundly env result x := by
  constructor
  · rintro ⟨hover, hcontains⟩
    rw [Bool.or_eq_false_iff] at hover
    exact ⟨hover.1, hover.2, hcontains⟩
  · rintro ⟨ho, hover, hcontains⟩
    exact ⟨Bool.or_eq_false_iff.2 ⟨ho, hover⟩, hcontains⟩

lemma assignsSoundly_none (env : Env) (x : BitVec 32) : AssignsSoundly env (pure none) x := ⟨rfl, by simp⟩

namespace ValueBound

variable {env : Env} {b b' : ValueBound} {c : Int}

/-- A bound that was shifted up is not above the last number. -/
lemma value_le_of_add (h : b.add c = some b') (hc : 0 < c) : b'.value env ≤ kMaxInt := by
  rw [value_add h]
  rw [add, if_neg (by omega), if_pos hc] at h
  split_ifs at h with hover hkind
  rw [Bool.or_eq_true, Bool.and_eq_true, decide_eq_true_iff] at hkind
  rcases hkind with hconst | ⟨-, hle⟩
  · rw [value_of_isConstant hconst]
    omega
  · -- A length and a constant that is not positive.
    rw [value]
    cases b.instruction with
    | none => simpa using (by omega : b.constant + c ≤ kMaxInt)
    | some i =>
      have hi := (toInt_bounds (i.eval env)).2
      simp only [map_some, getD_some]
      omega

/-- A bound that was shifted down is not below the first number. -/
lemma le_value_of_add (h : b.add c = some b') (hc : c < 0)
    (hlength : b.isRelatedToArrayLength = true → ∀ i ∈ b.instruction, 0 ≤ (i.eval env).toInt) :
    kMinInt ≤ b'.value env := by
  rw [value_add h]
  rw [add, if_neg (by omega), if_neg (by omega)] at h
  split_ifs at h with hunder hkind
  rw [Bool.or_eq_true] at hkind
  rcases hkind with hconst | hrelated
  · rw [value_of_isConstant hconst]
    omega
  · rw [value]
    cases hi : b.instruction with
    | none => simpa using (by omega : kMinInt ≤ b.constant + c)
    | some i =>
      have hnonneg := hlength hrelated i hi
      simp only [map_some, getD_some]
      omega

end ValueBound

/-- The bound on the side where the shift may leave the range can be shifted, or the number is
    shifted to the very end. -/
def ShiftOk (r : ValueRange) (c : Int) (x : BitVec 32) : Prop :=
  (0 < c → (r.lower.add c).isSome ∨ x.toInt + c = kMaxInt) ∧
    (c < 0 → (r.upper.add c).isSome ∨ x.toInt + c = kMinInt)

namespace ValueRange.Established

variable {env : Env} {r r' : ValueRange} {x : BitVec 32} {c : Int} (h : r.Established env x)

include h in
lemma add_eq (hc : IsInt c) : r.add c = pure ( if (r.lower.add c).isNone && decide (c < 0) then none
      else if (r.upper.add c).isNone && decide (0 < c) then none
      else some ⟨(r.lower.add c).getD ValueBound.max, (r.upper.add c).getD ValueBound.min⟩) := by
  rw [ValueRange.add, addTraced_eq h.lower_isInt hc, pure_bind, addTraced_eq h.upper_isInt hc, pure_bind]
  split_ifs <;> rfl

include h in
/-- A number whose range could be shifted does not wrap around. -/
lemma toInt_add (hc : IsInt c) (hr' : (r.add c).value = some r') :
    (x + BitVec.ofInt 32 c).toInt = x.toInt + c := by
  obtain ⟨hlow, hhigh⟩ := h.contains
  have hx := toInt_bounds x
  rw [h.add_eq hc, value_pure] at hr'
  rw [ofInt_toInt_add]
  split_ifs at hr' with hlower hupper
  simp only [Bool.and_eq_true, isNone_iff_eq_none, decide_eq_true_iff, not_and] at hlower hupper
  rcases lt_trichotomy c 0 with hneg | rfl | hpos
  · obtain ⟨b, hb⟩ := ne_none_iff_exists'.1 fun hnone => hlower hnone hneg
    have hmin := le_value_of_add hb hneg h.lower_length
    rw [value_add hb] at hmin
    exact toInt_ofInt_of_bounds (by omega) (by omega)
  · rw [add_zero, BitVec.ofInt_toInt]
  · obtain ⟨b, hb⟩ := ne_none_iff_exists'.1 fun hnone => hupper hnone hpos
    have hmax : b.value env ≤ kMaxInt := value_le_of_add hb hpos
    rw [value_add hb] at hmax
    exact toInt_ofInt_of_bounds (by omega) (by omega)

include h in
/-- The shifted range contains the shifted number unless the lower bound was lost to an overflow or
    the upper bound to an underflow. -/
lemma contains_add_iff (hc : IsInt c) (hr' : (r.add c).value = some r') :
    r'.Contains env (x + BitVec.ofInt 32 c) ↔ ShiftOk r c x := by
  have htoInt := h.toInt_add hc hr'
  have hbounds := toInt_bounds (x + BitVec.ofInt 32 c)
  obtain ⟨hlow, hhigh⟩ := h.contains
  rw [h.add_eq hc, value_pure] at hr'
  split_ifs at hr' with hlower hupper
  simp only [Bool.and_eq_true, isNone_iff_eq_none, decide_eq_true_iff, not_and] at hlower hupper
  obtain rfl := some.inj hr'
  rw [Contains, htoInt, ShiftOk]
  refine and_congr ?_ ?_
  · cases hb : r.lower.add c with
    | none =>
      have hpos : 0 < c := by
        rcases lt_trichotomy c 0 with hneg | rfl | hpos
        · exact absurd hneg (hlower hb)
        · simp [ValueBound.add] at hb
        · exact hpos
      simp only [getD_none, ValueBound.max, ValueBound.value, map_none, hpos,
        isSome_none, Bool.false_eq_true, false_or, forall_const]
      omega
    | some b =>
      simp only [getD_some, value_add hb, isSome_some, true_or, implies_true, iff_true]
      omega
  · cases hb : r.upper.add c with
    | none =>
      have hneg : c < 0 := by
        rcases lt_trichotomy c 0 with hneg | rfl | hpos
        · exact hneg
        · simp [ValueBound.add] at hb
        · exact absurd hpos (hupper hb)
      simp only [getD_none, ValueBound.min, ValueBound.value, map_none, hneg,
        isSome_none, Bool.false_eq_true, false_or, forall_const]
      omega
    | some b =>
      simp only [getD_some, value_add hb, isSome_some, true_or, implies_true, iff_true]
      omega

include h in
/-- A shift of the range is right under the condition, and never overflows. -/
lemma assignsSoundly_add_iff (hc : IsInt c) : AssignsSoundly env (r.add c) (x + BitVec.ofInt 32 c) ↔
      ((r.add c).value.isSome → ShiftOk r c x) := by
  constructor
  · intro hsound hsome
    obtain ⟨r', hr'⟩ := isSome_iff_exists.1 hsome
    exact (h.contains_add_iff hc hr').1 (hsound.contains r' hr')
  · intro hok
    refine ⟨by rw [h.add_eq hc]; rfl, fun r' hr' => ?_⟩
    exact (h.contains_add_iff hc hr').2 (hok (by rw [hr']; rfl))

end ValueRange.Established

/-! ## Differences with an array length -/

/-- The constants that are negated are not the least number. -/
def NegationOk (c0 c1 c2 : Int) : Prop :=
  c2 ≠ kMinInt ∧ (ValueBound.wouldAddOverflowOrUnderflow c0 (-c2) = true ∨ c1 ≠ kMinInt)

variable {c : Int}

lemma isInt_neg (hc : IsInt c) : IsInt (-c) ↔ c ≠ kMinInt := by
  obtain ⟨h1, h2⟩ := hc
  have hmin := kMinInt_eq
  have hmax := kMaxInt_eq
  rw [IsInt]
  omega

variable {c0 c1 c2 : Int}

/-- Negating the least number is the first overflow; without it there is none. -/
lemma triangularRange_noOverflow_iff (arrayLength : HInstruction) (h0 : IsInt c0) (h1 : IsInt c1)
    (h2 : IsInt c2) : (triangularRange arrayLength c0 c1 c2).overflow = false ↔ NegationOk c0 c1 c2 := by
  rw [NegationOk, ← isInt_neg h1, ← isInt_neg h2, triangularRange, overflow_bind,
    Bool.or_eq_false_iff, overflow_ofInt_iff]
  refine and_congr_right fun hneg2 => ?_
  rw [ofInt_of_isInt hneg2, value_pure, wouldAddTraced_eq hneg2, pure_bind]
  by_cases hover2 : wouldAddOverflowOrUnderflow c0 (-c2) = true
  · rw [if_pos hover2]
    exact iff_of_true rfl (.inl hover2)
  rw [if_neg hover2, overflow_bind, Bool.or_eq_false_iff, overflow_ofInt_iff]
  rw [or_iff_right hover2]
  refine and_iff_left_of_imp fun hneg1 => ?_
  rw [ofInt_of_isInt hneg1, value_pure, wouldAddTraced_eq hneg1, pure_bind]
  by_cases hover1 : wouldAddOverflowOrUnderflow c0 (-c1) = true
  · rw [if_pos hover1]
    rfl
  -- Both differences passed the checks.
  have hdiff1 : IsInt (c0 - c1) := bounds_of_not_wouldAdd (by simpa using hover1) h0
  have hdiff2 : IsInt (c0 - c2) := bounds_of_not_wouldAdd (by simpa using hover2) h0
  rw [ofInt_of_isInt hdiff1, pure_bind, ofInt_of_isInt hdiff2, pure_bind, pure_bind]
  split_ifs <;> rfl

variable {arrayLength : HInstruction}

/-- The range found without an overflow. -/
lemma triangularRange_spec {r : ValueRange} (h0 : IsInt c0) (h1 : IsInt c1) (h2 : IsInt c2)
    (hok : NegationOk c0 c1 c2) (hr : (triangularRange arrayLength c0 c1 c2).value = some r) :
    r = ⟨make none (c0 - c2), make (some arrayLength) (c0 - c1)⟩ ∧ c0 ≤ c1 ∧ IsInt (c0 - c2) := by
  have hneg2 := (isInt_neg h2).2 hok.1
  rw [triangularRange, ofInt_of_isInt hneg2, pure_bind, wouldAddTraced_eq hneg2, pure_bind] at hr
  by_cases hover2 : wouldAddOverflowOrUnderflow c0 (-c2) = true
  · rw [if_pos hover2, value_pure] at hr
    cases hr
  have hneg1 := (isInt_neg h1).2 (hok.2.resolve_left hover2)
  rw [if_neg hover2, ofInt_of_isInt hneg1, pure_bind, wouldAddTraced_eq hneg1, pure_bind] at hr
  by_cases hover1 : wouldAddOverflowOrUnderflow c0 (-c1) = true
  · rw [if_pos hover1, value_pure] at hr
    cases hr
  have hdiff1 : IsInt (c0 - c1) := bounds_of_not_wouldAdd (by simpa using hover1) h0
  have hdiff2 : IsInt (c0 - c2) := bounds_of_not_wouldAdd (by simpa using hover2) h0
  rw [ofInt_of_isInt hdiff1, pure_bind, ofInt_of_isInt hdiff2, pure_bind, pure_bind] at hr
  split_ifs at hr with hle
  · exact ⟨(some.inj hr).symm, by omega, hdiff2⟩

variable {v : BitVec 32}

/-- The range of a difference with an array length contains it, whether or not `length + c0` has
    wrapped around. -/
lemma contains_triangular (hle : c0 ≤ c1) (hint : IsInt (c0 - c2)) (hv1 : c1 ≤ v.toInt)
    (hv2 : v.toInt ≤ (arrayLength.eval env).toInt + c2) :
    ValueRange.Contains env ⟨make none (c0 - c2), make (some arrayLength) (c0 - c1)⟩
      (arrayLength.eval env + BitVec.ofInt 32 c0 - v) := by
  have hlength := toInt_bounds (arrayLength.eval env)
  obtain ⟨hint1, hint2⟩ := hint
  have hsum : arrayLength.eval env + BitVec.ofInt 32 c0 - v =
      BitVec.ofInt 32 ((arrayLength.eval env).toInt + c0 - v.toInt) := by
    rw [Signed.ofInt_sub, BitVec.ofInt_add, BitVec.ofInt_toInt, BitVec.ofInt_toInt]
  rw [ValueRange.Contains, value_make, value_make, hsum, toInt_ofInt_of_bounds (by omega) (by omega)]
  simp only [map_none, getD_none, map_some, getD_some]
  omega

/-- What the end of `VisitSub` negates is not the least number. -/
def TriangleOk (left : HInstruction) (rightRange : Option RangeInfo) : Prop :=
  ValueBound.negatesMin 0 left = false ∧ ∀ info ∈ rightRange,
    info.toRange.isTriangular (ValueBound.addOrSubLoop 0 left).1 = true →
    NegationOk (ValueBound.addOrSubLoop 0 left).2 info.toRange.lower.constant
      info.toRange.upper.constant

variable {left : HInstruction}

lemma assignsSoundly_subtractFromLength_iff {rightRange : Option RangeInfo}
    (hright : ∀ info ∈ rightRange, info.toRange.Established env v) :
    AssignsSoundly env (subtractFromLength left rightRange) (left.eval env - v) ↔
      TriangleOk left rightRange := by
  obtain ⟨heval, hbounds, -, -⟩ := addOrSubLoop_spec env (i := left) (c := 0) (by decide)
  rw [show BitVec.ofInt 32 0 = 0#32 from rfl, BitVec.add_zero] at heval
  rw [subtractFromLength, splitConstant_eq, mk_bind, TriangleOk, heval, assignsSoundly_or_iff]
  refine and_congr_right fun _ => ?_
  generalize addOrSubLoop 0 left = chain at *
  cases rightRange with
  | none => exact iff_of_true (assignsSoundly_none env _) (by simp)
  | some info =>
    have hrange := hright info rfl
    simp only [mem_def, some.injEq, forall_eq']
    cases htri : info.toRange.isTriangular chain.1 with
    | false =>
      simp only [Bool.false_eq_true, if_false, false_implies]
      exact iff_of_true (assignsSoundly_none env _) trivial
    | true =>
      simp only [if_true, true_implies]
      rw [← triangularRange_noOverflow_iff chain.1 hbounds hrange.lower_isInt hrange.upper_isInt]
      constructor
      · exact fun h => h.noOverflow
      · intro hover
        refine ⟨hover, fun r hr => ?_⟩
        have hok := (triangularRange_noOverflow_iff chain.1 hbounds hrange.lower_isInt
          hrange.upper_isInt).1 hover
        obtain ⟨rfl, hle, hint⟩ := triangularRange_spec hbounds hrange.lower_isInt hrange.upper_isInt hok hr
        simp only [ValueRange.isTriangular, Bool.and_eq_true] at htri
        obtain ⟨⟨⟨-, hconst⟩, hrelated⟩, hequal⟩ := htri
        obtain ⟨hlow, hhigh⟩ := hrange.contains
        rw [value_of_isConstant hconst] at hlow
        -- The range is up to the length of the same array.
        obtain ⟨j, hj⟩ : ∃ j, info.toRange.upper.instruction = some j := by
          exact isSome_iff_exists.1 (isSome_of_any hrelated)
        rw [hj] at hequal
        rw [ValueBound.value, hj, map_some, getD_some, ← value_eq_of_equal hequal] at hhigh
        exact contains_triangular hle hint hlow hhigh

/-! ## Parts of an array length -/

/-- The operations and constants that take a part of a number: a division by two or more, or a
    shift to the right by a distance below the width. -/
def BinaryOp.TakesPart : BinaryOp → BitVec 32 → Prop
  | div, v => 2 ≤ v.toInt
  | shr, v => 1 ≤ v.toInt ∧ v.toInt ≤ 31
  | ushr, v => 1 ≤ v.toInt ∧ v.toInt ≤ 31
  | _, _ => False

lemma toNat_and_of_le (h : 1 ≤ v.toInt ∧ v.toInt ≤ 31) : 1 ≤ (v &&& 31#32).toNat := by
  have hv : v.toNat = v.toInt := by
    rw [BitVec.toInt_eq_toNat_cond] at h ⊢
    split_ifs at h ⊢ <;> omega
  have hmod : (v &&& 31#32).toNat = v.toNat % 2 ^ 5 := by
    exact Nat.and_two_pow_sub_one_eq_mod v.toNat 5
  omega

variable {n : Int}

lemma two_mul_ediv_le {k : Int} (hn : 0 ≤ n) (hk : 2 ≤ k) : 2 * (n / k) ≤ n := by
  have hq : 0 ≤ n / k := Int.ediv_nonneg hn (by omega)
  calc 2 * (n / k) ≤ k * (n / k) := Int.mul_le_mul_of_nonneg_right hk hq
    _ ≤ n := Int.mul_ediv_self_le (by omega)

variable {op : BinaryOp}

/-- A part of `length + c`, for `c` at most one, is at most the length, even where the sum has
    wrapped around. -/
lemma part_le_length {length : BitVec 32} (hop : op.TakesPart v) (hlength : 0 ≤ length.toInt)
    (hc : kMinInt ≤ c ∧ c ≤ 1) (hushr : op = .ushr → 0 ≤ c) :
    (op.eval (length + BitVec.ofInt 32 c) v).toInt ≤ length.toInt := by
  have hmin := kMinInt_eq
  have hmax := (toInt_bounds length).2
  rw [show kMaxInt = 2147483647 by decide] at hmax
  have hle : (length + BitVec.ofInt 32 c).toInt ≤ length.toInt + c := by
    rw [ofInt_toInt_add]
    exact toInt_ofInt_le (by omega)
  have hsum := ofInt_toInt_add length c
  generalize length + BitVec.ofInt 32 c = y at *
  have hy := toInt_bounds y
  cases op with
  | div =>
    have hv : 2 ≤ v.toInt := hop
    -- The quotient is at most half of the number, or it is not positive.
    have hq : 2 * y.toInt.tdiv v.toInt ≤ length.toInt + 1 ∧ kMinInt ≤ y.toInt.tdiv v.toInt := by
      rcases le_total 0 y.toInt with hpos | hneg
      · rw [Int.tdiv_eq_ediv_of_nonneg hpos]
        have hpart := two_mul_ediv_le hpos hv
        have hnonneg : 0 ≤ y.toInt / v.toInt := Int.ediv_nonneg hpos (by omega)
        omega
      · have hquot : y.toInt.tdiv v.toInt = -(-y.toInt / v.toInt) := by
          rw [← Int.tdiv_eq_ediv_of_nonneg (by omega), Int.neg_tdiv, neg_neg]
        have hpart := two_mul_ediv_le (show 0 ≤ -y.toInt by omega) hv
        have hnonneg : 0 ≤ -y.toInt / v.toInt := Int.ediv_nonneg (by omega) (by omega)
        omega
    rw [BinaryOp.eval, BitVec.toInt_sdiv, Int.bmod_eq_of_le (by norm_num; omega) (by norm_num; omega)]
    omega
  | shr =>
    have hdistance := toNat_and_of_le hop
    rw [BinaryOp.eval, BitVec.toInt_sshiftRight, Int.shiftRight_eq_div_pow]
    have hpow : (2 : Int) ≤ ((2 ^ (v &&& 31#32).toNat : Nat) : Int) := by
      exact_mod_cast Nat.le_pow hdistance
    rcases le_total 0 y.toInt with hpos | hneg
    · have hpart := two_mul_ediv_le hpos hpow
      omega
    · have hquot := Int.ediv_le_ediv (by omega : (0 : Int) < ((2 ^ (v &&& 31#32).toNat : Nat) : Int)) hneg
      rw [Int.zero_ediv] at hquot
      omega
  | ushr =>
    have hdistance := toNat_and_of_le hop
    have hc0 := hushr rfl
    -- Here the sum does not lose a bit: it is below `2 ^ 32`.
    have hnat : (y.toNat : Int) = length.toInt + c := by
      rw [hsum]
      exact Signed.toNat_ofInt_of_mem (by omega) (by norm_num; omega)
    rw [BinaryOp.eval, BitVec.toInt_ushiftRight, if_neg (by omega), Nat.shiftRight_eq_div_pow]
    have hpow : (2 : Int) ≤ ((2 ^ (v &&& 31#32).toNat : Nat) : Int) := by
      exact_mod_cast Nat.le_pow hdistance
    have hpart := two_mul_ediv_le (show 0 ≤ (y.toNat : Int) by omega) hpow
    rw [Int.natCast_ediv]
    omega
  | _ => exact hop.elim

lemma assignsSoundly_partial_iff (hop : op.TakesPart v) (hdefined : left.Defined env) :
    AssignsSoundly env (findAndHandlePartialArrayLength op left (.intConstant v))
      (op.eval (left.eval env) v) ↔ ValueBound.negatesMin 0 left = false := by
  obtain ⟨heval, hbounds, -, hdef⟩ := addOrSubLoop_spec env (i := left) (c := 0) (by decide)
  rw [show BitVec.ofInt 32 0 = 0#32 from rfl, BitVec.add_zero] at heval
  have hfrom : ¬ v.toInt < op.partialFrom := by
    cases op with
    | div => exact not_lt.2 hop
    | shr => exact not_lt.2 hop.1
    | ushr => exact not_lt.2 hop.1
    | _ => exact hop.elim
  rw [findAndHandlePartialArrayLength, if_neg hfrom, splitConstant_eq, mk_bind, heval, assignsSoundly_or_iff]
  refine and_iff_left ?_
  have hdef := hdef hdefined
  generalize addOrSubLoop 0 left = chain at *
  obtain ⟨arrayLength, c⟩ := chain
  dsimp only at *
  split_ifs with hkind hushr
  · exact assignsSoundly_none env _
  · refine ⟨rfl, fun r hr => ?_⟩
    obtain rfl := some.inj hr
    rw [Bool.and_eq_true, decide_eq_true_iff] at hkind
    have hlength : 0 ≤ (arrayLength.eval env).toInt := by
      cases arrayLength with
      | arrayLength id a => exact hdef.2
      | _ => simp [HInstruction.isArrayLength] at hkind
    have hushr : op = .ushr → 0 ≤ c := by
      intro hop
      simpa [hop] using hushr
    rw [ValueRange.Contains, value_make]
    refine ⟨(toInt_bounds _).1, ?_⟩
    simpa using part_le_length hop hlength ⟨hbounds.1, hkind.2⟩ hushr
  · exact assignsSoundly_none env _

/-! ## All of them -/

/-- Sums, differences that are no remainders, and parts. -/
def HInstruction.IsArithmetic : HInstruction → Prop
  | .add _ _ _ => True
  | .sub _ left right => optimizedRemDivisor left right = none
  | .binary op _ _ (.intConstant v) => op.TakesPart v
  | _ => False

/-- A range that is shifted keeps its bounds, and nothing that is negated is the least number. -/
def ArithmeticOk (env : Env) (leftRange rightRange : Option RangeInfo) : HInstruction → Prop
  | .add _ left (.intConstant v) => ∀ info ∈ leftRange,
    (info.toRange.add v.toInt).value.isSome → ShiftOk info.toRange v.toInt (left.eval env)
  | .add _ _ _ => True
  | .sub _ left (.intConstant v) => ∀ info ∈ leftRange, v.toInt ≠ kMinInt ∧
    if (info.toRange.add (-v).toInt).value.isSome then
      ShiftOk info.toRange (-v).toInt (left.eval env)
    else TriangleOk left rightRange
  | .sub _ left _ => TriangleOk left rightRange
  | .binary _ _ left _ => ValueBound.negatesMin 0 left = false
  | _ => True

section

variable {env : Env} {leftRange rightRange : Option RangeInfo} {left : HInstruction} {v : BitVec 32}
  (hleft : ∀ info ∈ leftRange, info.toRange.Established env (left.eval env))

include hleft in
/-- The least number on the right is negated before anything else is done. -/
lemma assignsSoundly_visitDifference_iff (hright : ∀ info ∈ rightRange, info.toRange.Established env v) :
    AssignsSoundly env (visitDifference leftRange rightRange left (.intConstant v)) (left.eval env - v) ↔
      ∀ info ∈ leftRange, v.toInt ≠ kMinInt ∧ if (info.toRange.add (-v).toInt).value.isSome then
          ShiftOk info.toRange (-v).toInt (left.eval env)
        else TriangleOk left rightRange := by
  cases leftRange with
  | none => exact iff_of_true (assignsSoundly_none env _) (by simp)
  | some info =>
    have hinfo := hleft info rfl
    have hadd := hinfo.assignsSoundly_add_iff (isInt_toInt (-v))
    have hpure := eq_pure (congrArg overflow (hinfo.add_eq (isInt_toInt (-v))))
    rw [BitVec.ofInt_toInt, ← BitVec.sub_eq_add_neg] at hadd
    simp only [mem_def, some.injEq, forall_eq']
    rw [visitDifference, ofInt_neg_toInt, mk_bind, assignsSoundly_or_iff, decide_eq_false_iff_not]
    refine and_congr_right fun _ => ?_
    cases hsome : (info.toRange.add (-v).toInt).value with
    | some r =>
      rw [hsome] at hadd hpure
      rw [hpure] at hadd ⊢
      simpa using hadd
    | none =>
      rw [hsome] at hpure
      rw [hpure]
      simpa using assignsSoundly_subtractFromLength_iff hright

/-- The range of a sum, a difference or a part contains its value and is computed without an overflow
    exactly if a shifted range keeps its bounds and nothing that is negated is the least number. -/
theorem assignsSoundly_visitArithmetic_iff {i : HInstruction} (hi : i.IsArithmetic) (hdefined : i.Defined env)
    (hleft : ∀ info ∈ leftRange, info.toRange.Established env (i.leftInput.eval env))
    (hright : ∀ info ∈ rightRange, info.toRange.Established env (i.rightInput.eval env)) :
    AssignsSoundly env (visitArithmetic leftRange rightRange i) (i.eval env) ↔
      ArithmeticOk env leftRange rightRange i := by
  cases i with
  | add id left right =>
    cases right with
    | intConstant v =>
      cases leftRange with
      | none => exact iff_of_true (assignsSoundly_none env _) nofun
      | some info =>
        have hiff := (hleft info rfl).assignsSoundly_add_iff (isInt_toInt v)
        simpa [visitArithmetic, visitAdd, ArithmeticOk, HInstruction.leftInput, HInstruction.eval] using hiff
    | _ => exact iff_of_true (assignsSoundly_none env _) trivial
  | sub id left right =>
    have hnone : tryToAssignRangeIfOptimizedRem leftRange left right = none := by
      rw [tryToAssignRangeIfOptimizedRem, hi, map_none]
    rw [visitArithmetic, visitSub, hnone]
    cases right with
    | intConstant v => exact assignsSoundly_visitDifference_iff hleft hright
    | _ => exact assignsSoundly_subtractFromLength_iff hright
  | binary op id left right =>
    cases right with
    | intConstant v =>
      have hpart := assignsSoundly_partial_iff hi hdefined.1
      cases op with
      | div | shr | ushr => exact hpart
      | _ => exact hi.elim
    | _ => exact hi.elim
  | _ => exact hi.elim

end

/-! ## The distance from the end of an array -/

/-- The length of an array. -/
def lengthOfArray : HInstruction := .arrayLength 0 (.value 1 false)

/-- `array.length - v`. -/
def distanceFromEnd : HInstruction := .sub 3 lengthOfArray (.value 2 false)

/-- An array of ten elements, and a value of `v`. -/
def tenElements (v : BitVec 32) : Env where
  inside _ := 0#32
  outside id := if id = 1 then 10#32 else v
  phi := 0#32

/-- The range of `v` from a constant up to the last index. -/
def upToLast (lower : Int) : ValueRange := ⟨⟨none, lower⟩, ⟨some lengthOfArray, -1⟩⟩

lemma established_upToLast {lower : Int} (hlower : IsInt lower) (hv : lower ≤ v.toInt ∧ v.toInt ≤ 9) :
    ∀ info ∈ some (RangeInfo.plain (upToLast lower)),
      info.toRange.Established (tenElements v) (distanceFromEnd.rightInput.eval (tenElements v)) := by
  intro info hinfo
  obtain rfl := some.inj hinfo
  have hvalue : distanceFromEnd.rightInput.eval (tenElements v) = v := rfl
  rw [hvalue]
  have hlength : (lengthOfArray.eval (tenElements v)).toInt = 10 := rfl
  refine ⟨⟨?_, hv.2⟩, hlower, show IsInt (-1) from ⟨by decide, by decide⟩, fun h => ?_, ?_⟩
  · simpa [upToLast, RangeInfo.toRange, ValueBound.value] using hv.1
  · cases h
  · intro _ i hi
    obtain rfl := some.inj hi
    rw [hlength]
    decide

lemma defined_distanceFromEnd (v : BitVec 32) : distanceFromEnd.Defined (tenElements v) :=
  ⟨⟨trivial, show (0 : Int) ≤ 10 by decide⟩, trivial⟩

/-- For `v` between zero and the last index the range is right. -/
theorem assignsSoundly_distanceFromEnd : AssignsSoundly (tenElements 4#32)
      (visitArithmetic none (some (.plain (upToLast 0))) distanceFromEnd)
      (distanceFromEnd.eval (tenElements 4#32)) ∧
    (visitArithmetic none (some (.plain (upToLast 0))) distanceFromEnd).value.isSome = true := by
  have hok : ArithmeticOk (tenElements 4#32) none (some (.plain (upToLast 0))) distanceFromEnd := by
    refine ⟨rfl, fun info hinfo _ => ?_⟩
    obtain rfl := some.inj hinfo
    exact ⟨by decide, .inr (by decide)⟩
  exact ⟨(assignsSoundly_visitArithmetic_iff (show distanceFromEnd.IsArithmetic from rfl)
    (defined_distanceFromEnd _) (by simp)
    (established_upToLast ⟨by decide, by decide⟩ (by decide))).2 hok, by decide⟩

/-- Where only `v < array.length` is known, the range of `array.length - v` is said to fit into the
    array: for `v = -5` it does not contain the value, which is an index behind the end. -/
theorem distanceFromEnd_behindEnd : ∃ range : ValueRange,
      (visitArithmetic none (some (.plain (upToLast kMinInt))) distanceFromEnd).value = some range ∧
      (∀ info ∈ some (RangeInfo.plain (upToLast kMinInt)), info.toRange.Established
        (tenElements (-5#32)) (distanceFromEnd.rightInput.eval (tenElements (-5#32)))) ∧
      range.fitsIn ⟨ValueBound.make none 0, ValueBound.make (some lengthOfArray) (-1)⟩ = true ∧
      ¬ range.Contains (tenElements (-5#32)) (distanceFromEnd.eval (tenElements (-5#32))) ∧
      (lengthOfArray.eval (tenElements (-5#32))).toInt <
        (distanceFromEnd.eval (tenElements (-5#32))).toInt := by
  refine ⟨⟨⟨none, 1⟩, some lengthOfArray, kMinInt⟩, by decide,
    established_upToLast ⟨by decide, by decide⟩ (by decide), by decide, ?_, by decide⟩
  rintro ⟨-, hupper⟩
  revert hupper
  decide

end Art.BoundsCheckElimination
