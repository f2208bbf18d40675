import Art.InductionVar.Analysis

/-!
# Ranges of invariants

The analysis of invariants in `compiler/optimizing/induction_var_range.cc`: the least and the greatest value
of an invariant are symbolic values `a * instruction + b`, with checked 32-bit constants. A value that is
fetched is chased into sums with constants, conversions from int to long and array lengths.

* `isConstant`: the constant answer to a request.

There is no trip count here, and no enclosing loop is chased.
-/

namespace Art

/-! ## Instructions -/

deriving instance DecidableEq for ControlType

/-- The instructions that the analysis looks at. Two instructions are the same if they have the same
    identity and inputs; a constant is there once for each type. -/
inductive HInstruction : ControlType → Type
  /-- `HIntConstant` or `HLongConstant`. -/
  | constant {t : ControlType} (value : BitVec t.width) : HInstruction t
  | add {t : ControlType} (id : ℕ) (left right : HInstruction t) : HInstruction t
  | sub {t : ControlType} (id : ℕ) (left right : HInstruction t) : HInstruction t
  /-- `HArrayLength`, for an array that is not known. -/
  | arrayLength (id : ℕ) : HInstruction .int32
  /-- `HArrayLength`, for an array that an `HNewArray` of the given length creates. -/
  | newArrayLength (id : ℕ) (length : HInstruction .int32) : HInstruction .int32
  /-- `HTypeConversion` from int to long. -/
  | typeConversion (id : ℕ) (input : HInstruction .int32) : HInstruction .int64
  /-- Any other instruction. -/
  | other {t : ControlType} (id : ℕ) : HInstruction t
  deriving DecidableEq

/-- An instruction of any type. -/
abbrev AnyInstruction := (t : ControlType) × HInstruction t

/-- The values of the other instructions and the lengths of the arrays in an execution. -/
structure Execution where
  value : (t : ControlType) → ℕ → BitVec t.width
  length : ℕ → ℕ
  length_lt : ∀ id, length id < 2 ^ 31

namespace HInstruction

/-- The value of an instruction; sums and differences wrap around. -/
def eval (env : Execution) : {t : ControlType} → HInstruction t → BitVec t.width
  | _, constant value => value
  | _, add _ left right => left.eval env + right.eval env
  | _, sub _ left right => left.eval env - right.eval env
  | _, arrayLength id => BitVec.ofNat 32 (env.length id)
  | _, newArrayLength _ length => length.eval env
  | _, typeConversion _ input => (input.eval env).signExtend 64
  | t, other id => env.value t id

/-- The arrays that the instruction uses exist: none has been created with a negative length. -/
def ArraysCreated (env : Execution) : {t : ControlType} → HInstruction t → Prop
  | _, add _ left right => left.ArraysCreated env ∧ right.ArraysCreated env
  | _, sub _ left right => left.ArraysCreated env ∧ right.ArraysCreated env
  | _, newArrayLength _ length => 0 ≤ (length.eval env).toInt ∧ length.ArraysCreated env
  | _, typeConversion _ input => input.ArraysCreated env
  | _, _ => True

end HInstruction

/-! ## Symbolic values -/

def canLongValueFitIntoInt (c : ℤ) : Bool := decide (-2 ^ 31 ≤ c) && decide (c ≤ 2 ^ 31 - 1)

/-- `InductionVarRange::Value`: `aConstant * instruction + bConstant`, if it is known. -/
structure Value where
  instruction : Option AnyInstruction
  aConstant : ℤ
  bConstant : ℤ
  isKnown : Bool
  deriving DecidableEq

namespace Value

/-- `Value()`. -/
def unknown : Value := ⟨none, 0, 0, false⟩

/-- `Value(i, a, b)`. -/
def linear (i : Option AnyInstruction) (a b : ℤ) : Value := ⟨if a ≠ 0 then i else none, a, b, true⟩

/-- `Value(b)`. -/
def ofConstant (b : ℤ) : Value := linear none 0 b

def isConstantValue (v : Value) : Bool := v.isKnown && decide (v.aConstant = 0)

variable (v₁ v₂ : Value)

def addValue : Value :=
  if v₁.isKnown && v₂.isKnown && canLongValueFitIntoInt (v₁.bConstant + v₂.bConstant) then
    let b := v₁.bConstant + v₂.bConstant
    if v₁.aConstant = 0 then linear v₂.instruction v₂.aConstant b
    else if v₂.aConstant = 0 then linear v₁.instruction v₁.aConstant b
    else if v₁.instruction = v₂.instruction ∧ canLongValueFitIntoInt (v₁.aConstant + v₂.aConstant) = true then
      linear v₁.instruction (v₁.aConstant + v₂.aConstant) b
    else unknown
  else unknown

def subValue : Value :=
  if v₁.isKnown && v₂.isKnown && canLongValueFitIntoInt (v₁.bConstant - v₂.bConstant) then
    let b := v₁.bConstant - v₂.bConstant
    if v₁.aConstant = 0 ∧ canLongValueFitIntoInt (0 - v₂.aConstant) = true then
      linear v₂.instruction (-v₂.aConstant) b
    else if v₂.aConstant = 0 then linear v₁.instruction v₁.aConstant b
    else if v₁.instruction = v₂.instruction ∧ canLongValueFitIntoInt (v₁.aConstant - v₂.aConstant) = true then
      linear v₁.instruction (v₁.aConstant - v₂.aConstant) b
    else unknown
  else unknown

def mulValue : Value :=
  if v₁.isKnown && v₂.isKnown then
    if v₁.aConstant = 0 then
      if canLongValueFitIntoInt (v₁.bConstant * v₂.aConstant) &&
          canLongValueFitIntoInt (v₁.bConstant * v₂.bConstant) then
        linear v₂.instruction (v₁.bConstant * v₂.aConstant) (v₁.bConstant * v₂.bConstant)
      else unknown
    else if v₂.aConstant = 0 then
      if canLongValueFitIntoInt (v₁.aConstant * v₂.bConstant) &&
          canLongValueFitIntoInt (v₁.bConstant * v₂.bConstant) then
        linear v₁.instruction (v₁.aConstant * v₂.bConstant) (v₁.bConstant * v₂.bConstant)
      else unknown
    else unknown
  else unknown

def divValue : Value :=
  if v₁.isKnown && v₂.isKnown && decide (v₁.aConstant = 0) && decide (v₂.aConstant = 0) then
    if decide (v₂.bConstant ≠ 0) && canLongValueFitIntoInt (v₁.bConstant.tdiv v₂.bConstant) then
      ofConstant (v₁.bConstant.tdiv v₂.bConstant)
    else unknown
  else unknown

end Value

open Value

/-! ## Fetches -/

namespace HInstruction

/-- `IsInt64AndGet(instruction, &value) && CanLongValueFitIntoInt(value)`. -/
def getInt {t : ControlType} : HInstruction t → Option ℤ
  | constant value => if canLongValueFitIntoInt value.toInt then some value.toInt else none
  | _ => none

/-- A fetch that is represented by itself. -/
def itself {t : ControlType} (i : HInstruction t) : Value := linear (some ⟨t, i⟩) 1 0

/-- `GetFetch(context, loop, instruction, nullptr, is_min)`, with a chase hint. -/
def getFetch (chaseHint : Option AnyInstruction) : {t : ControlType} → HInstruction t → Bool → Value
  | _, constant value, _ =>
    if canLongValueFitIntoInt value.toInt then ofConstant value.toInt else (constant value).itself
  | t, add id left right, isMin =>
    if some ⟨t, add id left right⟩ = chaseHint then (add id left right).itself
    else
      match left.getInt, right.getInt with
      | some value, _ => addValue (ofConstant value) (right.getFetch chaseHint isMin)
      | none, some value => addValue (left.getFetch chaseHint isMin) (ofConstant value)
      | none, none => (add id left right).itself
  | t, sub id left right, isMin =>
    if some ⟨t, sub id left right⟩ = chaseHint then (sub id left right).itself
    else
      match left.getInt, right.getInt with
      | some value, _ => subValue (ofConstant value) (right.getFetch chaseHint !isMin)
      | none, some value => subValue (left.getFetch chaseHint isMin) (ofConstant value)
      | none, none => (sub id left right).itself
  | _, arrayLength id, isMin =>
    if chaseHint.isNone then ofConstant (if isMin then 0 else 2 ^ 31 - 1)
    else (arrayLength id).itself
  | _, newArrayLength id length, isMin =>
    if some ⟨.int32, newArrayLength id length⟩ = chaseHint then (newArrayLength id length).itself
    else if chaseHint.isNone then ofConstant (if isMin then 0 else 2 ^ 31 - 1)
    else length.getFetch chaseHint isMin
  | _, typeConversion id input, isMin =>
    if some ⟨.int64, typeConversion id input⟩ = chaseHint then (typeConversion id input).itself
    else input.getFetch chaseHint isMin
  | t, other id, _ => itself (other id : HInstruction t)

end HInstruction

/-! ## Invariants -/

/-- An invariant over the instructions of its type. -/
abbrev TypedInvariant (t : ControlType) := Invariant (HInstruction t) t.width

/-- The value of an invariant in an execution. -/
abbrev Invariant.evalIn {t : ControlType} (env : Execution) (info : TypedInvariant t) : BitVec t.width :=
  info.eval fun i => i.eval env

/-- The direct constant of a fetch. -/
def Invariant.directConstant {t : ControlType} : TypedInvariant t → Option ℤ
  | .constant value => some value.toInt
  | .fetch (.constant value) => some value.toInt
  | _ => none

/-- `IsConstant`, from the direct constant of an invariant and its least and greatest value. -/
def constantAnswer (request : ConstantRequest) (direct : Option ℤ) (range : Bool → Value) : Option ℤ :=
  match direct with
  | some value => some value
  | none =>
    if (range true).isConstantValue && (range false).isConstantValue &&
        decide ((range true).bConstant ≤ (range false).bConstant) then
      match request with
      | .exact =>
        if (range true).bConstant = (range false).bConstant then some (range false).bConstant
        else none
      | .atMost => some (range false).bConstant
      | .atLeast => some (range true).bConstant
    else none

def mulRangeAndConstant (value : ℤ) (range : Bool → Value) (isMin : Bool) : Value :=
  if canLongValueFitIntoInt value then
    mulValue (range (isMin == decide (value ≥ 0))) (ofConstant value)
  else unknown

def divRangeAndConstant (value : ℤ) (range : Bool → Value) (isMin : Bool) : Value :=
  if canLongValueFitIntoInt value then
    divValue (range (isMin == decide (value ≥ 0))) (ofConstant value)
  else unknown

/-- `IsConstantValue(v) && v.b_constant >= 0`. -/
def Value.isNonneg (v : Value) : Bool := v.isConstantValue && decide (v.bConstant ≥ 0)

/-- `IsConstantValue(v) && v.b_constant <= 0`. -/
def Value.isNonpos (v : Value) : Bool := v.isConstantValue && decide (v.bConstant ≤ 0)

variable (range₁ range₂ : Bool → Value)

/-- The products of `GetMul` for two ranges. -/
def mulRanges (isMin : Bool) : Value :=
  let v₁Min := range₁ true
  let v₁Max := range₁ false
  let v₂Min := range₂ true
  let v₂Max := range₂ false
  if v₁Min.isNonneg && v₂Min.isNonneg then
    if isMin then mulValue v₁Min v₂Min else mulValue v₁Max v₂Max
  else if v₁Min.isNonneg && v₂Max.isNonpos then
    if isMin then mulValue v₁Max v₂Min else mulValue v₁Min v₂Max
  else if v₁Max.isNonpos && v₂Min.isNonneg then
    if isMin then mulValue v₁Min v₂Max else mulValue v₁Max v₂Min
  else if v₁Max.isNonpos && v₂Max.isNonpos then
    if isMin then mulValue v₁Max v₂Max else mulValue v₁Min v₂Min
  else unknown

/-- The quotients of `GetDiv` for two ranges. -/
def divRanges (isMin : Bool) : Value :=
  let v₁Min := range₁ true
  let v₁Max := range₁ false
  let v₂Min := range₂ true
  let v₂Max := range₂ false
  if v₁Min.isNonneg && v₂Min.isNonneg then
    if isMin then divValue v₁Min v₂Max else divValue v₁Max v₂Min
  else if v₁Min.isNonneg && v₂Max.isNonpos then
    if isMin then divValue v₁Max v₂Max else divValue v₁Min v₂Min
  else if v₁Max.isNonpos && v₂Min.isNonneg then
    if isMin then divValue v₁Min v₂Min else divValue v₁Max v₂Max
  else if v₁Max.isNonpos && v₂Max.isNonpos then
    if isMin then divValue v₁Max v₂Min else divValue v₁Min v₂Max
  else unknown

variable (exact₁ exact₂ : Option ℤ)

/-- `GetMul`, from the exact values and the ranges of its operands. -/
def getMul (range₁ range₂ : Bool → Value) (isMin : Bool) : Value :=
  match exact₁, exact₂ with
  | some value, _ => mulRangeAndConstant value range₂ isMin
  | none, some value => mulRangeAndConstant value range₁ isMin
  | none, none => mulRanges range₁ range₂ isMin

def getDiv (exact₂ : Option ℤ) (range₁ range₂ : Bool → Value) (isMin : Bool) : Value :=
  match exact₂ with
  | some value => divRangeAndConstant value range₁ isMin
  | none => divRanges range₁ range₂ isMin

def getRem : Value :=
  match exact₁, exact₂ with
  | some v₁, some v₂ =>
    if v₂ ≠ 0 ∧ canLongValueFitIntoInt (v₁.tmod v₂) = true then ofConstant (v₁.tmod v₂) else unknown
  | _, _ => unknown

/-- `v1 ^ v2`, for numbers of 64 bits. -/
def xorLong (v₁ v₂ : ℤ) : ℤ := (BitVec.ofInt 64 v₁ ^^^ BitVec.ofInt 64 v₂).toInt

def getXor : Value :=
  match exact₁, exact₂ with
  | some v₁, some v₂ =>
    if canLongValueFitIntoInt (xorLong v₁ v₂) then ofConstant (xorLong v₁ v₂) else unknown
  | _, _ => unknown

/-- `GetVal(context, loop, info, nullptr, is_min)`. A comparison has no value here. -/
def getVal (chaseHint : Option AnyInstruction) {t : ControlType} : TypedInvariant t → Bool → Value
  | .fetch instruction, isMin => instruction.getFetch chaseHint isMin
  | .constant value, isMin => (HInstruction.constant value).getFetch chaseHint isMin
  | .neg b, isMin => subValue (ofConstant 0) (getVal chaseHint b !isMin)
  | .op .add a b, isMin => addValue (getVal chaseHint a isMin) (getVal chaseHint b isMin)
  | .op .sub a b, isMin => subValue (getVal chaseHint a isMin) (getVal chaseHint b !isMin)
  | .op .mul a b, isMin =>
    getMul (constantAnswer .exact a.directConstant (getVal chaseHint a))
      (constantAnswer .exact b.directConstant (getVal chaseHint b))
      (getVal chaseHint a) (getVal chaseHint b) isMin
  | .op .div a b, isMin =>
    getDiv (constantAnswer .exact b.directConstant (getVal chaseHint b))
      (getVal chaseHint a) (getVal chaseHint b) isMin
  | .op .rem a b, _ =>
    getRem (constantAnswer .exact a.directConstant (getVal chaseHint a))
      (constantAnswer .exact b.directConstant (getVal chaseHint b))
  | .op .xor a b, _ =>
    getXor (constantAnswer .exact a.directConstant (getVal chaseHint a))
      (constantAnswer .exact b.directConstant (getVal chaseHint b))
  | .op (.compare _) _ _, _ => unknown

def isConstant (chaseHint : Option AnyInstruction) {t : ControlType} (request : ConstantRequest)
    (info : TypedInvariant t) : Option ℤ :=
  constantAnswer request info.directConstant (getVal chaseHint info)

/-- `GetVal`, if it is a constant; a constant that is fetched is known at once. -/
def rangeAnalysis (t : ControlType) : RangeAnalysis (HInstruction t) t.width := ⟨fun info isMin =>
    match info.directConstant with
    | some value => some value
    | none =>
      if (getVal none info isMin).isConstantValue then some (getVal none info isMin).bConstant else none⟩

end Art
