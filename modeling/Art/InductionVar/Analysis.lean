import Mathlib.Algebra.Order.Ring.Int

/-!
# Trip counts of loops

The loop control part of `compiler/optimizing/induction_var_analysis.cc`: for a loop that goes on
while `i < U` (or another comparison), where `i` has the values `L`, `L + S`, `L + 2S`, … and `L`,
`U` and `S` do not change, an expression for the number of iterations is built from those of
`L`, `U` and `S`. `induction_var_range.cc` emits it as code.

Expressions have values of the width of the loop control, and their arithmetic wraps around.
-/

namespace Art

/-- `DataType::Type`, as far as loop controls have it. -/
inductive ControlType
  | int32
  | int64

/-- The number of bits. -/
def ControlType.width : ControlType → ℕ
  | int32 => 32
  | int64 => 64

/-- `DataType::MinValueOfIntegralType(type)`, for the width of the type. -/
def minValueOfIntegralType (w : ℕ) : ℤ := -2 ^ (w - 1)

def maxValueOfIntegralType (w : ℕ) : ℤ := 2 ^ (w - 1) - 1

/-- The `IfCondition`s between numbers. -/
inductive IfCondition
  | lt
  | le
  | gt
  | ge

/-- The comparison of signed numbers. -/
def IfCondition.test {w : ℕ} : IfCondition → BitVec w → BitVec w → Bool
  | lt, x, y => x.slt y
  | le, x, y => x.sle y
  | gt, x, y => y.slt x
  | ge, x, y => y.sle x

/-- The condition with its operands exchanged. -/
def IfCondition.swap : IfCondition → IfCondition
  | lt => gt
  | le => ge
  | gt => lt
  | ge => le

/-! ## Invariants -/

/-- The operations of two operands of an `InductionOp`. -/
inductive InvariantOp
  | add
  | sub
  | mul
  | div
  | rem
  | xor
  | compare (cmp : IfCondition)

/-- An `InductionInfo` of the class `kInvariant` and of a width, over instructions `ι`. A constant is
    an instruction, too. -/
inductive Invariant (ι : Type) (w : ℕ)
  | fetch (instruction : ι)
  | constant (value : BitVec w)
  | neg (opB : Invariant ι w)
  | op (operation : InvariantOp) (opA opB : Invariant ι w)

variable {ι : Type} {w : ℕ}

/-- The value of the code that `GenerateCode` emits for an invariant. -/
def Invariant.eval (env : ι → BitVec w) : Invariant ι w → BitVec w
  | fetch instruction => env instruction
  | constant value => value
  | neg b => -b.eval env
  | op .add a b => a.eval env + b.eval env
  | op .sub a b => a.eval env - b.eval env
  | op .mul a b => a.eval env * b.eval env
  | op .div a b => (a.eval env).sdiv (b.eval env)
  | op .rem a b => (a.eval env).srem (b.eval env)
  | op .xor a b => a.eval env ^^^ b.eval env
  | op (.compare cmp) a b => if cmp.test (a.eval env) (b.eval env) then 1#w else 0#w

/-- `InductionVarRange`, as far as the loop control uses it: `GetVal(context, loop, info, nullptr,
    is_min)`, if the value is a constant. -/
structure RangeAnalysis (ι : Type) (w : ℕ) where
  getVal : Invariant ι w → Bool → Option ℤ

inductive ConstantRequest
  | exact
  | atMost
  | atLeast

namespace RangeAnalysis

variable (r : RangeAnalysis ι w)

def isConstant (request : ConstantRequest) : Invariant ι w → Option ℤ
  | .constant value => some value.toInt
  | info =>
    match r.getVal info true, r.getVal info false with
    | some minVal, some maxVal =>
      if minVal ≤ maxVal then
        match request with
        | .exact => if minVal = maxVal then some maxVal else none
        | .atMost => some maxVal
        | .atLeast => some minVal
      else none
    | _, _ => none

/-- `CreateSimplifiedInvariant` for a sum or a difference. -/
def createAddSub (a : Invariant ι w) : Bool → Invariant ι w → Invariant ι w
  | isSub, .neg c =>
    if !isSub && r.isConstant .exact a = some 0 then .neg c
    else
      match r.isConstant .exact (.neg c) with
      | some value => if value = 0 then a else .op (if isSub then .sub else .add) a (.neg c)
      | none => createAddSub a (!isSub) c
  | isSub, b =>
    if !isSub && r.isConstant .exact a = some 0 then b
    else if r.isConstant .exact b = some 0 then a
    else .op (if isSub then .sub else .add) a b

/-- `CreateSimplifiedInvariant` for a negation. -/
def createNeg (b : Invariant ι w) : Invariant ι w :=
  match r.isConstant .exact b with
  | some value => if value = 0 then b else .neg b
  | none =>
    match b with
    | .neg c => c
    | .op .sub x y => r.createAddSub y true x
    | b => .neg b

/-- `CreateSimplifiedInvariant` for two operands. -/
def createInvariantOp (op : InvariantOp) (a b : Invariant ι w) : Invariant ι w :=
  let exactA := r.isConstant .exact a
  let exactB := r.isConstant .exact b
  match op with
  | .add => r.createAddSub a false b
  | .sub => r.createAddSub a true b
  | .mul =>
    if exactA = some 0 then a
    else if exactA = some 1 then b
    else if exactA = some (-1) then r.createNeg b
    else if exactB = some 0 then b
    else if exactB = some 1 then a
    else if exactB = some (-1) then r.createNeg a
    else .op .mul a b
  | .div =>
    if exactB = some 1 then a
    else if exactB = some (-1) then r.createNeg a
    else .op .div a b
  | .xor =>
    if exactA = some 0 then b
    else if exactB = some 0 then a
    else .op .xor a b
  | op => .op op a b

/-! ## The loop control -/

def isTaken (lower upper : Invariant ι w) : IfCondition → Bool
  | .lt => match r.isConstant .atMost lower, r.isConstant .atLeast upper with
    | some lowerValue, some upperValue => lowerValue < upperValue
    | _, _ => false
  | .le => match r.isConstant .atMost lower, r.isConstant .atLeast upper with
    | some lowerValue, some upperValue => lowerValue ≤ upperValue
    | _, _ => false
  | .gt => match r.isConstant .atLeast lower, r.isConstant .atMost upper with
    | some lowerValue, some upperValue => lowerValue > upperValue
    | _, _ => false
  | .ge => match r.isConstant .atLeast lower, r.isConstant .atMost upper with
    | some lowerValue, some upperValue => lowerValue ≥ upperValue
    | _, _ => false

def isFinite (upper : Invariant ι w) (strideValue : ℤ) : IfCondition → Bool
  | .lt => strideValue = 1 ||
      (r.isConstant .atMost upper).any (· ≤ maxValueOfIntegralType w - strideValue + 1)
  | .le => (r.isConstant .atMost upper).any (· ≤ maxValueOfIntegralType w - strideValue)
  | .gt => strideValue = -1 ||
      (r.isConstant .atLeast upper).any (· ≥ minValueOfIntegralType w - strideValue - 1)
  | .ge => (r.isConstant .atLeast upper).any (· ≥ minValueOfIntegralType w - strideValue)

end RangeAnalysis

/-- The `InductionOp`s of trip counts. -/
inductive TripCountKind
  | inLoop
  | inBody
  | inLoopUnsafe
  | inBodyUnsafe
  deriving DecidableEq

/-- What `CreateTripCount` records for the loop control. -/
structure TripCount (ι : Type) (w : ℕ) where
  kind : TripCountKind
  tripCount : Invariant ι w
  takenTest : Invariant ι w

/-- A loop control `i cmp U`, with the values `L`, `L + S`, `L + 2S`, … of `i`. -/
structure LoopControl (ι : Type) (w : ℕ) where
  lower : Invariant ι w
  upper : Invariant ι w
  stride : Invariant ι w
  cmp : IfCondition

namespace RangeAnalysis

variable (r : RangeAnalysis ι w) (control : LoopControl ι w)

def visitTripCount (strideValue : ℤ) : TripCount ι w :=
  let isTaken := r.isTaken control.lower control.upper control.cmp
  let isFinite := r.isFinite control.upper strideValue control.cmp
  let cancels := match control.cmp with
    | .lt | .gt => strideValue.natAbs = 1
    | .le | .ge => false
  let tripCount :=
    if !cancels then
      let inclusive := match control.cmp with
        | .lt => r.createInvariantOp .sub control.upper (.constant 1#w)
        | .gt => r.createInvariantOp .add control.upper (.constant 1#w)
        | .le | .ge => control.upper
      r.createInvariantOp .add inclusive control.stride
    else control.upper
  let tripCount := r.createInvariantOp .sub tripCount control.lower
  { kind :=
      if isTaken && isFinite then .inLoop
      else if isFinite then .inBody
      else if isTaken then .inLoopUnsafe
      else .inBodyUnsafe
    tripCount := r.createInvariantOp .div tripCount control.stride
    takenTest := r.createInvariantOp (.compare control.cmp) control.lower control.upper }

/-- `VisitCondition` for an induction on the left side. Nothing is recorded if the stride is not known
    or has the wrong sign. -/
def visitCondition : Option (TripCount ι w) := do
  let strideValue ← r.isConstant .exact control.stride
  let normal : Bool := match control.cmp with
    | .lt | .le => 0 < strideValue
    | .gt | .ge => strideValue < 0
  if normal then return r.visitTripCount control strideValue else none

end RangeAnalysis

/-- An `InductionInfo` of an operand of the condition: an invariant, or a linear induction. -/
inductive Induction (ι : Type) (w : ℕ)
  | invariant (info : Invariant ι w)
  | linear (stride lower : Invariant ι w)

/-- The value of the operand in an iteration. -/
def Induction.value (env : ι → BitVec w) (iteration : ℕ) : Induction ι w → BitVec w
  | invariant info => info.eval env
  | linear stride lower => lower.eval env + BitVec.ofNat w iteration * stride.eval env

/-- The loop control of a condition, with the induction on the left side, as `VisitCondition` makes
    it. -/
def loopControl (a b : Induction ι w) (cmp : IfCondition) : Option (LoopControl ι w) :=
  match a, b with
  | .invariant upper, .linear stride lower => some ⟨lower, upper, stride, cmp.swap⟩
  | .linear stride lower, .invariant upper => some ⟨lower, upper, stride, cmp⟩
  | _, _ => none

def RangeAnalysis.visit (r : RangeAnalysis ι w) (a b : Induction ι w)
    (cmp : IfCondition) : Option (TripCount ι w) := do
  let control ← loopControl a b cmp
  r.visitCondition control

/-- `GenerateTripCount(loop, graph, block)`: the value of the code, if it is emitted. -/
def TripCount.generate (info : TripCount ι w) (env : ι → BitVec w) : Option (BitVec w) :=
  match info.kind with
  | .inLoop => some (info.tripCount.eval env)
  | .inBody => some (if info.takenTest.eval env = 0#w then 0#w else info.tripCount.eval env)
  | .inLoopUnsafe | .inBodyUnsafe => none

end Art
