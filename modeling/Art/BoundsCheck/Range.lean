import Mathlib.Algebra.Order.Ring.Int

/-!
# Value ranges of bounds check elimination

The dominator-based analysis that removes bounds checks: bounds of the form
`instruction + constant`, ranges of such bounds, and the ranges of loop phis that
grow or shrink by a constant, which a comparison in the loop header narrows.

Constants of bounds are integers: the analysis never lets one leave the range of
an `int`.
-/

namespace Art.BoundsCheckElimination

/-- The binary operations on an `int` besides addition and subtraction. -/
inductive BinaryOp
  | mul
  | div
  | rem
  | shl
  | shr
  | ushr
  | and
  deriving DecidableEq, Repr

/-- The result of an operation: quotients are truncated, and a shift takes the
    low five bits of its distance. -/
def BinaryOp.eval : BinaryOp → BitVec 32 → BitVec 32 → BitVec 32
  | mul, x, y => x * y
  | div, x, y => x.sdiv y
  | rem, x, y => x.srem y
  | shl, x, y => x <<< (y &&& 31#32).toNat
  | shr, x, y => x.sshiftRight (y &&& 31#32).toNat
  | ushr, x, y => x >>> (y &&& 31#32).toNat
  | and, x, y => x &&& y

/-- The instructions that the analysis tells apart. Every instruction but a constant has its own `id`; a
    `value` is any other one, inside the loop or before it. -/
inductive HInstruction
  | intConstant (value : BitVec 32)
  /-- The loop phi. -/
  | phi
  | add (id : Nat) (left right : HInstruction)
  | sub (id : Nat) (left right : HInstruction)
  | binary (op : BinaryOp) (id : Nat) (left right : HInstruction)
  | divZeroCheck (id : Nat) (value : HInstruction)
  | arrayLength (id : Nat) (array : HInstruction)
  | newArray (id : Nat) (length : HInstruction)
  | nullCheck (id : Nat) (array : HInstruction)
  | value (id : Nat) (inLoop : Bool)
  deriving DecidableEq, Repr

/-- The values at a visit of the loop header. -/
structure Env where
  /-- What the instructions of the loop yield at this visit. -/
  inside : Nat → BitVec 32
  /-- What the instructions before the loop yielded. -/
  outside : Nat → BitVec 32
  phi : BitVec 32

namespace HInstruction

/-- The value of an instruction; that of an array is its length. -/
def eval (env : Env) : HInstruction → BitVec 32
  | intConstant c => c
  | phi => env.phi
  | add _ l r => l.eval env + r.eval env
  | sub _ l r => l.eval env - r.eval env
  | binary op _ l r => op.eval (l.eval env) (r.eval env)
  | divZeroCheck _ v => v.eval env
  | arrayLength _ a => a.eval env
  | newArray _ n => n.eval env
  | nullCheck _ a => a.eval env
  | value id true => env.inside id
  | value id false => env.outside id

/-- The instruction has been executed: the arrays whose lengths it takes exist,
    and no divisor is zero. -/
def Defined (env : Env) : HInstruction → Prop
  | add _ l r => l.Defined env ∧ r.Defined env
  | sub _ l r => l.Defined env ∧ r.Defined env
  | binary op _ l r => l.Defined env ∧ r.Defined env ∧ (op = .div ∨ op = .rem → r.eval env ≠ 0#32)
  | divZeroCheck _ v => v.Defined env ∧ v.eval env ≠ 0#32
  | arrayLength _ a => a.Defined env ∧ 0 ≤ (a.eval env).toInt
  | newArray _ n => n.Defined env ∧ 0 ≤ (n.eval env).toInt
  | nullCheck _ a => a.Defined env
  | _ => True

/-- The instruction comes from before the loop. -/
def isInvariant : HInstruction → Bool
  | intConstant _ => true
  | phi => false
  | add _ l r => l.isInvariant && r.isInvariant
  | sub _ l r => l.isInvariant && r.isInvariant
  | binary _ _ l r => l.isInvariant && r.isInvariant
  | divZeroCheck _ v => v.isInvariant
  | arrayLength _ a => a.isInvariant
  | newArray _ n => n.isInvariant
  | nullCheck _ a => a.isInvariant
  | value _ inLoop => !inLoop

def isArrayLength : HInstruction → Bool
  | arrayLength _ _ => true
  | _ => false

def isNewArray : HInstruction → Bool
  | newArray _ _ => true
  | _ => false

def huntForDeclaration : HInstruction → HInstruction
  | arrayLength _ a => a.huntForDeclaration
  | newArray _ n => n.huntForDeclaration
  | nullCheck _ a => a.huntForDeclaration
  | i => i

end HInstruction

def kMaxInt : Int := 2 ^ 31 - 1

def kMinInt : Int := -2 ^ 31

lemma kMaxInt_eq : kMaxInt = 2147483647 := rfl

lemma kMinInt_eq : kMinInt = -2147483648 := rfl

/-! ## Bounds -/

/-- A bound `instruction + constant`. -/
structure ValueBound where
  instruction : Option HInstruction
  constant : Int
  deriving DecidableEq, Repr

namespace ValueBound

def wouldAddOverflowOrUnderflow (left right : Int) : Bool :=
  if right = 0 then false
  else if right > 0 ∧ left ≤ kMaxInt - right then false
  else if right < 0 ∧ left ≥ kMinInt - right then false
  else true

/-- The constructor, which folds a constant instruction. -/
def make (instruction : Option HInstruction) (constant : Int) : ValueBound :=
  match instruction with
  | some (.intConstant c) =>
    if wouldAddOverflowOrUnderflow c.toInt constant then ⟨instruction, constant⟩
    else ⟨none, c.toInt + constant⟩
  | _ => ⟨instruction, constant⟩

def min : ValueBound := ⟨none, kMinInt⟩

def max : ValueBound := ⟨none, kMaxInt⟩

/-- The loop of `IsAddOrSubAConstant`: the instruction left over once the
    constants added to it are summed up. -/
def addOrSubLoop (rightSoFar : Int) : HInstruction → HInstruction × Int
  | .add id left (.intConstant v) =>
    if wouldAddOverflowOrUnderflow rightSoFar v.toInt then
      (.add id left (.intConstant v), rightSoFar)
    else addOrSubLoop (rightSoFar + v.toInt) left
  | .sub id left (.intConstant v) =>
    if wouldAddOverflowOrUnderflow rightSoFar (-v).toInt then
      (.sub id left (.intConstant v), rightSoFar)
    else addOrSubLoop (rightSoFar + (-v).toInt) left
  | i => (i, rightSoFar)

variable (instruction : HInstruction)

/-- `IsAddOrSubAConstant`: none when nothing could be taken off. -/
def isAddOrSubAConstant : Option (HInstruction × Int) :=
  let result := addOrSubLoop 0 instruction
  if result.1 = instruction then none else some result

/-- `DetectValueBoundFromValue`: none when no useful bound is found. -/
def detectValueBoundFromValue : Option ValueBound :=
  match instruction with
  | .intConstant c => some (make none c.toInt)
  | .arrayLength id a => some (make (some (.arrayLength id a)) 0)
  | i =>
    match isAddOrSubAConstant i with
    | some (left, right) => if left.isArrayLength then some (make (some left) right) else none
    | none => none

variable (b : ValueBound)

def isRelatedToArrayLength : Bool := b.instruction.any fun i => i.isArrayLength || i.isNewArray

def isConstant : Bool := b.instruction.isNone

/-- `Equal`, on the instructions of two bounds. -/
def equal : Option HInstruction → Option HInstruction → Bool
  | none, none => true
  | some i, some j => i = j || i.huntForDeclaration = j.huntForDeclaration
  | _, _ => false

def greaterThanOrEqualTo (b bound : ValueBound) : Bool :=
  equal b.instruction bound.instruction && decide (b.constant ≥ bound.constant)

def lessThanOrEqualTo (b bound : ValueBound) : Bool :=
  equal b.instruction bound.instruction && decide (b.constant ≤ bound.constant)

variable (bound1 bound2 : ValueBound)

def narrowLowerBound : ValueBound :=
  if bound1.greaterThanOrEqualTo bound2 then bound1
  else if bound2.greaterThanOrEqualTo bound1 then bound2
  else if bound1.isConstant then bound1 else bound2

def narrowUpperBound : ValueBound :=
  if bound1.lessThanOrEqualTo bound2 then bound1
  else if bound2.lessThanOrEqualTo bound1 then bound2
  else if bound1.isRelatedToArrayLength then bound1 else bound2

/-- `Add`: none when the result may overflow or underflow. -/
def add (c : Int) : Option ValueBound :=
  if c = 0 then some b
  else if c > 0 then
    if b.constant > kMaxInt - c then none
    else if b.isConstant || (b.isRelatedToArrayLength && decide (b.constant + c ≤ 0)) then
      some (make b.instruction (b.constant + c))
    else none
  else
    if b.constant < kMinInt - c then none
    else if b.isConstant || b.isRelatedToArrayLength then
      some (make b.instruction (b.constant + c))
    else none

end ValueBound

/-! ## Ranges -/

structure ValueRange where
  lower : ValueBound
  upper : ValueBound
  deriving DecidableEq, Repr

def ValueRange.fitsIn (range otherRange : ValueRange) : Bool :=
  range.lower.greaterThanOrEqualTo otherRange.lower && range.upper.lessThanOrEqualTo otherRange.upper

/-- The intersection of two ranges, where their bounds can be compared. -/
def ValueRange.narrow (this range : ValueRange) : ValueRange where
  lower := ValueBound.narrowLowerBound this.lower range.lower
  upper := ValueBound.narrowUpperBound this.upper range.upper

/-- The range of a loop phi that grows or shrinks by a constant. -/
structure MonotonicValueRange where
  initial : HInstruction
  increment : Int
  /-- What is known of the initial value. -/
  bound : ValueBound
  deriving DecidableEq, Repr

/-- What the analysis may know of an instruction. -/
inductive RangeInfo
  | plain (range : ValueRange)
  | monotonic (range : MonotonicValueRange)
  deriving DecidableEq, Repr

namespace MonotonicValueRange

/-- The greatest value of the upper bound of a range. -/
def maxUpper (upperBound : ValueBound) : Int :=
  if upperBound.isConstant then upperBound.constant
  else if upperBound.isRelatedToArrayLength ∧ upperBound.constant ≤ 0 then
    kMaxInt + upperBound.constant
  else kMaxInt

variable (m : MonotonicValueRange)

/-- The last number of `initial`, `initial + increment`, ... that is at most `upper`. -/
def lastNumInSequence (upper : Int) : Int :=
  match m.initial with
  | .intConstant c =>
    if upper ≤ c.toInt then upper
    else c.toInt + (upper - c.toInt).tdiv m.increment * m.increment
  | _ => upper

/-- `Narrow`: a plain range where no overflow or underflow is expected. -/
def narrow (range : ValueRange) : RangeInfo :=
  if m.increment > 0 then
    let lower := ValueBound.narrowLowerBound m.bound range.lower
    if !lower.isConstant || lower.constant = kMinInt then .monotonic m
    else if m.lastNumInSequence (maxUpper range.upper) ≤ kMaxInt - m.increment then
      .plain ⟨lower, range.upper⟩
    else .monotonic m
  else
    let upper := ValueBound.narrowUpperBound m.bound range.upper
    if (!upper.isConstant || upper.constant = kMaxInt) && !upper.isRelatedToArrayLength then
      .monotonic m
    else if range.lower.isConstant && decide (range.lower.constant ≥ kMinInt - m.increment) then
      .plain ⟨range.lower, upper⟩
    else .monotonic m

end MonotonicValueRange

def RangeInfo.narrow (this : RangeInfo) (range : ValueRange) : RangeInfo :=
  match this with
  | plain r => plain (r.narrow range)
  | monotonic m => m.narrow range

/-! ## The loop header -/

inductive IfCondition
  | eq
  | ne
  | lt
  | le
  | gt
  | ge
  | b
  | be
  | a
  | ae
  deriving DecidableEq, Repr

/-- The outcome of a condition. -/
def IfCondition.test : IfCondition → BitVec 32 → BitVec 32 → Bool
  | eq, x, y => x = y
  | ne, x, y => x ≠ y
  | lt, x, y => x.slt y
  | le, x, y => x.sle y
  | gt, x, y => y.slt x
  | ge, x, y => y.sle x
  | b, x, y => x.ult y
  | be, x, y => x.ule y
  | a, x, y => y.ult x
  | ae, x, y => y.ule x

/-- `HasSameInputAtBackEdges`: the input from the back edges if it is one. -/
def sameInputAtBackEdges : List HInstruction → Option HInstruction
  | [] => none
  | input :: inputs => if inputs.all (· = input) then some input else none

variable (initial : HInstruction)

/-- The part of `VisitPhi` that bounds the initial value, where `initialRange` is
    the range of it found by `LookupValueRange`. -/
def initialBound (increment : Int) (initialRange : Option ValueRange) : ValueBound :=
  match ValueBound.detectValueBoundFromValue initial with
  | some bound => bound
  | none =>
    match initialRange with
    | some range => if increment > 0 then range.lower else range.upper
    | none => if increment > 0 then ValueBound.min else ValueBound.max

/-- `VisitPhi`, for a phi of type `int`: the range it gets. -/
def visitPhi (backInputs : List HInstruction) (initialRange : Option ValueRange) : Option RangeInfo :=
  match sameInputAtBackEdges backInputs with
  | none => none
  | some instruction =>
    match ValueBound.isAddOrSubAConstant instruction with
    | none => none
    | some (left, increment) =>
      if left = .phi then
        if increment = 0 then
          some (.plain ⟨ValueBound.make (some initial) 0, ValueBound.make (some initial) 0⟩)
        else
          some (.monotonic ⟨initial, increment, initialBound initial increment initialRange⟩)
      else none

/-- The ranges a comparison establishes on its two edges, before they are combined with what is known. -/
structure EdgeRanges where
  onTrue : Option ValueRange
  onFalse : Option ValueRange
  deriving DecidableEq, Repr

namespace ValueBound

variable (b : ValueBound)

/-- The range up to a bound, with a compensation as ranges are inclusive. -/
def upTo (compensation : Int) : Option ValueRange := (b.add compensation).map fun upper => ⟨min, upper⟩

/-- The range from a bound on. -/
def downTo (compensation : Int) : Option ValueRange := (b.add compensation).map fun lower => ⟨lower, max⟩

def isUsefulUpper : Bool := b ≠ max

/-- An array length as a lower bound isn't considered useful. -/
def isUsefulLower : Bool := b ≠ min ∧ b.isRelatedToArrayLength = false

variable (compensation compensation' : Int)

/-- The ranges for `<` and `<=`. A failed compensation for the first edge ends the function. -/
def belowRanges : EdgeRanges :=
  if b.isUsefulUpper && (b.upTo compensation).isNone then ⟨none, none⟩
  else
    ⟨if b.isUsefulUpper then b.upTo compensation else none,
      if b.isUsefulLower then b.downTo compensation' else none⟩

/-- The ranges for `>` and `>=`. -/
def aboveRanges : EdgeRanges :=
  if b.isUsefulLower && (b.downTo compensation).isNone then ⟨none, none⟩
  else
    ⟨if b.isUsefulLower then b.downTo compensation else none,
      if b.isUsefulUpper then b.upTo compensation' else none⟩

/-- The range of what equals an array length and a constant. -/
def exactRange : Option ValueRange := if b.isRelatedToArrayLength then some ⟨b, b⟩ else none

end ValueBound

/-- The new ranges of `HandleIf` for `left cond right`, where `bound` is the
    bound detected for `right` and `left` is no array length. -/
def comparisonRanges (cond : IfCondition) (bound : ValueBound) : EdgeRanges :=
  match cond with
  | .lt => bound.belowRanges (-1) 0
  | .le => bound.belowRanges 0 1
  | .gt => bound.aboveRanges 1 0
  | .ge => bound.aboveRanges 0 (-1)
  | .eq => ⟨bound.exactRange, none⟩
  | .ne => ⟨none, bound.exactRange⟩
  | _ => ⟨none, none⟩

/-- `HandleIf` with `ApplyRangeFromComparison`, for a comparison of the phi in the header of its loop:
    the range of the phi on an edge, none when no range is assigned there. Comparisons with a value for
    which no bound is detected, which take over the range of that value, are left out. -/
def handleIf (existing : RangeInfo) (cond : IfCondition) (right : HInstruction) (edge : Bool) :
    Option RangeInfo :=
  match ValueBound.detectValueBoundFromValue right with
  | none => none
  | some bound =>
    let ranges := comparisonRanges cond bound
    (if edge then ranges.onTrue else ranges.onFalse).map existing.narrow

end Art.BoundsCheckElimination
