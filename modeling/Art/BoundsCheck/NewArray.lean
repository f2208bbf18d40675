import Art.BoundsCheck.Remainder

/-!
# Ranges learned from an allocation

An array of `x + c` elements could be allocated, so `x + c` is not negative, and the analysis moves
`c` to the other side: `-c ≤ x`. The sum may have wrapped around.
-/

namespace Art.BoundsCheckElimination

open ValueBound
open ValueBound (equal narrowLowerBound narrowUpperBound)
open BitVec (ofInt)

/-- The bounds `-rightConst` and `newArray - rightConst`. -/
def allocationRange (newArray : HInstruction) (rightConst : Int) : ValueRange where
  lower := make none (wrapInt (-rightConst))
  upper := make (some newArray) (wrapInt (-rightConst))

/-- `VisitNewArray`: the instruction that gets a range, where `lookup` is `LookupValueRange`. -/
def visitNewArray (lookup : HInstruction → Option RangeInfo) (id : Nat) (length : HInstruction) :
    Option (HInstruction × RangeInfo) :=
  match isAddOrSubAConstant length with
  | none => none
  | some (left, rightConst) =>
    let range := allocationRange (.newArray id length) rightConst
    match lookup left with
    | none => some (left, .plain range)
    | some existing => some (left, existing.narrow range)

/-- What a range says of a number; a monotonic one says nothing. -/
def RangeInfo.Holds (env : Env) (x : BitVec 32) : RangeInfo → Prop
  | plain r => r.Contains env x
  | monotonic _ => True

/-! ## Moving the constant -/

section Constant

variable {env : Env} {newArray : HInstruction} {x : BitVec 32} {c : Int}

lemma wrapInt_neg (hc : IsInt c) : wrapInt (-c) = if c = kMinInt then kMinInt else -c := by
  split_ifs with hmin
  · rw [hmin]
    rfl
  · obtain ⟨h1, h2⟩ := (isInt_neg hc).2 hmin
    exact toInt_ofInt_of_bounds h1 h2

variable (hc : IsInt c) (hlength : newArray.eval env = x + ofInt 32 c)
  (hnonneg : 0 ≤ (newArray.eval env).toInt)

include hc hlength hnonneg in
/-- A sum that is not negative is exact, or it has wrapped around from below. -/
lemma toInt_length_cases : ((newArray.eval env).toInt = x.toInt + c ∧ kMinInt ≤ x.toInt + c) ∨
      ((newArray.eval env).toInt = x.toInt + c + 2 ^ 32 ∧ x.toInt + c < kMinInt) := by
  have hx := toInt_bounds x
  obtain ⟨hc1, hc2⟩ := hc
  have hmin := kMinInt_eq
  have hmax := kMaxInt_eq
  rw [hlength, ofInt_toInt_add, BitVec.toInt_ofInt, Int.bmod_def] at hnonneg ⊢
  split_ifs at hnonneg ⊢ <;> omega

include hc hlength hnonneg in
/-- The upper bound holds even where the sum has wrapped around. The lower bound holds exactly if the sum has
    not wrapped around, or the constant is the least number, whose negation has wrapped around too. -/
lemma allocationRange_spec : x.toInt ≤ (allocationRange newArray c).upper.value env ∧
      ((allocationRange newArray c).lower.value env ≤ x.toInt ↔ c = kMinInt ∨ kMinInt ≤ x.toInt + c) := by
  have hx := toInt_bounds x
  have hcases := toInt_length_cases hc hlength hnonneg
  obtain ⟨hc1, hc2⟩ := hc
  have hmin := kMinInt_eq
  have hmax := kMaxInt_eq
  rw [allocationRange, value_make, Option.map_some, Option.getD_some, value_make, Option.map_none,
    Option.getD_none, wrapInt_neg ⟨hc1, hc2⟩]
  constructor <;> split_ifs <;> omega

end Constant

/-! ## With what is known of the number -/

/-- The bound of the initial value of a phi, where it is taken over, holds of the phi. -/
def InitialBoundOk (env : Env) (range : ValueRange) (m : MonotonicValueRange) (x : BitVec 32) : Prop :=
  (0 < m.increment → m.bound.isConstant = true → m.bound.value env ≤ x.toInt) ∧
    (m.increment ≤ 0 → narrowUpperBound m.bound range.upper = m.bound →
      x.toInt ≤ m.bound.value env)

section Narrow

variable {env : Env} {range : ValueRange} {x : BitVec 32} {b b' : ValueBound} {z : Int}

/-- Narrowing with a constant keeps both constants, and drops what is not a constant. -/
lemma value_narrowLowerBound_le_iff_of_isConstant (hb' : b'.isConstant = true) :
    (narrowLowerBound b b').value env ≤ z ↔ b'.value env ≤ z ∧ (b.isConstant = true → b.value env ≤ z) := by
  have hnone : b'.instruction = none := by simpa [ValueBound.isConstant] using hb'
  cases hb : b.instruction with
  | none =>
    have hconst : b.isConstant = true := by simp [ValueBound.isConstant, hb]
    rw [value_of_isConstant hb', value_of_isConstant hconst, narrowLowerBound]
    simp only [greaterThanOrEqualTo, hb, hnone, equal, Bool.true_and,
      decide_eq_true_iff, hconst, true_implies]
    split_ifs with h1 h2
    · rw [value_of_isConstant hconst]
      omega
    · rw [value_of_isConstant hb']
      omega
    · omega
  | some i =>
    have hconst : b.isConstant = false := by simp [ValueBound.isConstant, hb]
    simp [narrowLowerBound, greaterThanOrEqualTo, hb, hnone, equal, hconst]

/-- Of two upper bounds one of which holds, the other one matters where it is taken. -/
lemma le_value_narrowUpperBound_iff (hb' : z ≤ b'.value env) : z ≤ (narrowUpperBound b b').value env ↔
      (narrowUpperBound b b' = b → z ≤ b.value env) := by
  rcases narrowUpperBound_or b b' with h | h
  · simp [h]
  · refine iff_of_true (by rwa [h]) fun hb => ?_
    rw [← hb, h]
    exact hb'

/-- Narrowing a range of `x` adds the new lower bound. -/
lemma contains_narrow_iff {existing : ValueRange} (hexisting : existing.Contains env x)
    (hconst : range.lower.isConstant = true) (hupper : x.toInt ≤ range.upper.value env) :
    (existing.narrow range).Contains env x ↔ range.lower.value env ≤ x.toInt := by
  obtain ⟨hlow, hhigh⟩ := hexisting
  rw [ValueRange.Contains, ValueRange.narrow, value_narrowLowerBound_le_iff_of_isConstant hconst,
    le_value_narrowUpperBound_iff hupper, and_iff_left fun _ => hhigh, and_iff_left fun _ => hlow]

/-- A monotonic range that becomes a plain one takes over the bound of the initial value. -/
lemma contains_monotonic_narrow_iff {m : MonotonicValueRange} {r : ValueRange}
    (hnarrow : m.narrow range = .plain r) (hconst : range.lower.isConstant = true)
    (hupper : x.toInt ≤ range.upper.value env) :
    r.Contains env x ↔ range.lower.value env ≤ x.toInt ∧ InitialBoundOk env range m x := by
  rw [InitialBoundOk]
  rcases MonotonicValueRange.narrow_eq_plain hnarrow with ⟨hinc, -, -, rfl⟩ | ⟨hinc, -, -, rfl⟩
  · rw [ValueRange.Contains, value_narrowLowerBound_le_iff_of_isConstant hconst, and_iff_left hupper]
    simp [hinc]
  · rw [ValueRange.Contains, le_value_narrowUpperBound_iff hupper]
    simp [hinc]

end Narrow

/-! ## The range of an allocation -/

/-- The number has no plain range; or the sum of the length has not wrapped around, unless the
    constant is the least number, and the bound of an initial value holds. -/
def AllocationOk (env : Env) (lookup : HInstruction → Option RangeInfo) (newArray left : HInstruction)
    (rightConst : Int) (info : RangeInfo) : Prop :=
  (∃ m, info = .monotonic m) ∨ ((rightConst = kMinInt ∨ kMinInt ≤ (left.eval env).toInt + rightConst) ∧
      ∀ m, lookup left = some (.monotonic m) →
        InitialBoundOk env (allocationRange newArray rightConst) m (left.eval env))

/-- After an allocation of `left + rightConst` elements, the range assigned to `left` is right
    exactly under the condition. -/
theorem holds_visitNewArray_iff {env : Env} {lookup : HInstruction → Option RangeInfo} {id : Nat}
    {length left : HInstruction} {info : RangeInfo}
    (h : visitNewArray lookup id length = some (left, info))
    (hdefined : (HInstruction.newArray id length).Defined env)
    (hlookup : ∀ r, lookup left = some (.plain r) → r.Contains env (left.eval env)) :
    info.Holds env (left.eval env) ↔
      AllocationOk env lookup (.newArray id length) left (ValueBound.addOrSubLoop 0 length).2
        info := by
  rw [visitNewArray, ValueBound.isAddOrSubAConstant] at h
  obtain ⟨heval, hbounds, -, -⟩ := addOrSubLoop_spec env (i := length) (c := 0) (by decide)
  rw [show ofInt 32 0 = 0#32 from rfl, BitVec.add_zero] at heval
  generalize ValueBound.addOrSubLoop 0 length = chain at *
  obtain ⟨left', c⟩ := chain
  split_ifs at h
  dsimp only at h
  rw [AllocationOk]
  have hlength : (HInstruction.newArray id length).eval env = left'.eval env + ofInt 32 c := heval
  obtain ⟨hupper, hlower⟩ := allocationRange_spec hbounds hlength hdefined.2
  have hconst : (allocationRange (.newArray id length) c).lower.isConstant = true := rfl
  generalize allocationRange _ c = range at *
  cases hfound : lookup left' with
  | none =>
    rw [hfound] at h
    cases h
    rw [RangeInfo.Holds, ValueRange.Contains, hlower, and_iff_left hupper]
    simp [hfound]
  | some existing =>
    rw [hfound] at h
    cases h
    cases existing with
    | plain r =>
      rw [RangeInfo.narrow, RangeInfo.Holds, contains_narrow_iff (hlookup r hfound) hconst hupper, hlower]
      simp [hfound]
    | monotonic m =>
      rw [RangeInfo.narrow]
      cases hnarrow : m.narrow range with
      | plain r =>
        rw [RangeInfo.Holds, contains_monotonic_narrow_iff hnarrow hconst hupper, hlower]
        simp [hfound]
      | monotonic m' => exact iff_of_true trivial (.inl ⟨m', rfl⟩)

/-! ## A size that wraps around -/

/-- The size `x + c`. -/
def sizePlus (c : Int) : HInstruction := .add 1 (.value 0 false) (.intConstant (ofInt 32 c))

/-- An execution with a value of `x`. -/
def withValue (x : BitVec 32) : Env := ⟨fun _ => 0#32, fun _ => x, 0#32⟩

/-- `new int[x + 3]` for `x = 2` says that `x` is from `-3` to the length less three. -/
theorem holds_sizePlus : RangeInfo.Holds (withValue 2#32) 2#32
      (.plain (allocationRange (.newArray 2 (sizePlus 3)) 3)) := by
  have hvisit : visitNewArray (fun _ => none) 2 (sizePlus 3) =
      some (.value 0 false, .plain (allocationRange (.newArray 2 (sizePlus 3)) 3)) := by decide
  exact (holds_visitNewArray_iff hvisit ⟨⟨trivial, trivial⟩, by decide⟩ (by simp)).2
    (.inr ⟨.inr (by decide), by simp⟩)

/-- `new int[x - 2147483647]` for the least `x` makes an array of one element, and `x` is said to
    be at least `2147483647`. -/
theorem sizePlus_wrapsAround : ∃ info : RangeInfo,
      visitNewArray (fun _ => none) 2 (sizePlus (-2147483647)) = some (.value 0 false, info) ∧
      ((HInstruction.newArray 2 (sizePlus (-2147483647))).eval
        (withValue (ofInt 32 kMinInt))).toInt = 1 ∧ ¬ info.Holds (withValue (ofInt 32 kMinInt))
        ((HInstruction.value 0 false).eval (withValue (ofInt 32 kMinInt))) := by
  refine ⟨.plain (allocationRange (.newArray 2 (sizePlus (-2147483647))) (-2147483647)), by decide,
    by decide, ?_⟩
  rintro ⟨hlower, -⟩
  revert hlower
  decide

end Art.BoundsCheckElimination
