import Art.BoundsCheck.Range
import Mathlib.Tactic.Linarith
import Mathlib.Tactic.Ring

/-!
# When the narrowed range of a loop phi is right

The visits of a loop header, and the ranges that the analysis gives the phi on
the edges out of it. A plain range rests on an argument that the phi does not
wrap around before the comparison stops the loop. The comparison stops it only
if its other edge leaves the loop, which the analysis does not ask.
-/

namespace Art.BoundsCheckElimination

open ValueBound Option MonotonicValueRange
open BitVec (ofInt sle_iff_toInt_le slt_iff_toInt_lt)

/-! ## Bounds and their values -/

/-- The value of a bound, over the integers. -/
def ValueBound.value (env : Env) (b : ValueBound) : Int :=
  (b.instruction.map fun i => (i.eval env).toInt).getD 0 + b.constant

/-- The number lies between the bounds of the range. -/
def ValueRange.Contains (env : Env) (r : ValueRange) (x : BitVec 32) : Prop :=
  r.lower.value env ≤ x.toInt ∧ x.toInt ≤ r.upper.value env

lemma toInt_bounds (x : BitVec 32) : kMinInt ≤ x.toInt ∧ x.toInt ≤ kMaxInt := by
  have h1 := BitVec.le_toInt x
  have h2 := BitVec.toInt_lt (x := x)
  norm_num [kMinInt, kMaxInt] at *
  omega

lemma toInt_ofInt_of_bounds {z : Int} (h1 : kMinInt ≤ z) (h2 : z ≤ kMaxInt) : (ofInt 32 z).toInt = z := by
  norm_num [kMinInt, kMaxInt] at h1 h2
  rw [BitVec.toInt_ofInt]
  exact Int.bmod_eq_of_le (by omega) (by omega)

/-- Only a sum that is too large wraps around, and then to something smaller. -/
lemma toInt_ofInt_le {z : Int} (h : kMinInt ≤ z) : (ofInt 32 z).toInt ≤ z := by
  norm_num [kMinInt] at h
  rw [BitVec.toInt_ofInt, Int.bmod_def]
  split <;> omega

lemma ofInt_toInt_add (x : BitVec 32) (z : Int) : x + ofInt 32 z = ofInt 32 (x.toInt + z) := by
  rw [BitVec.ofInt_add, BitVec.ofInt_toInt]

namespace HInstruction

lemma eval_huntForDeclaration (env : Env) (i : HInstruction) :
    i.huntForDeclaration.eval env = i.eval env := by
  induction i with
  | arrayLength _ _ ih => exact ih
  | newArray _ _ ih => exact ih
  | nullCheck _ _ ih => exact ih
  | _ => rfl

/-- What comes from before the loop has one value. -/
lemma eval_eq_of_isInvariant {i : HInstruction} (h : i.isInvariant = true) {env env' : Env}
    (hout : env.outside = env'.outside) : i.eval env = i.eval env' := by
  induction i with
  | intConstant _ => rfl
  | phi => simp [isInvariant] at h
  | add _ l r ihl ihr | sub _ l r ihl ihr | binary _ _ l r ihl ihr =>
    rw [isInvariant, Bool.and_eq_true] at h
    rw [eval, eval, ihl h.1, ihr h.2]
  | divZeroCheck _ _ ih | arrayLength _ _ ih | newArray _ _ ih | nullCheck _ _ ih => exact ih h
  | value id inLoop =>
    cases inLoop with
    | true => simp [isInvariant] at h
    | false => rw [eval, eval, hout]

end HInstruction

namespace ValueBound

variable {b : ValueBound}

lemma value_of_isConstant (h : b.isConstant = true) (env : Env) : b.value env = b.constant := by
  have hnone : b.instruction = none := by simpa [isConstant] using h
  simp [value, hnone]

lemma value_make (env : Env) (i : Option HInstruction) (c : Int) :
    (make i c).value env = (i.map fun i => (i.eval env).toInt).getD 0 + c := by
  unfold make
  split
  · split
    · rfl
    · simp [value, HInstruction.eval]
  · rfl

variable {b' : ValueBound} {c : Int} {env : Env}

lemma value_add (h : b.add c = some b') : b'.value env = b.value env + c := by
  have hmake : (make b.instruction (b.constant + c)).value env = b.value env + c := by
    rw [value_make, value]
    ring
  unfold add at h
  split_ifs at h
  · cases h
    simp [*]
  all_goals
    cases h
    exact hmake

variable {i j : HInstruction}

lemma value_eq_of_equal (h : equal (some i) (some j) = true) : i.eval env = j.eval env := by
  rw [equal, Bool.or_eq_true, decide_eq_true_iff, decide_eq_true_iff] at h
  rcases h with rfl | h
  · rfl
  · rw [← i.eval_huntForDeclaration, h, j.eval_huntForDeclaration]

lemma value_le_of_lessThanOrEqualTo (h : b.lessThanOrEqualTo b' = true) :
    b.value env ≤ b'.value env := by
  rw [lessThanOrEqualTo, Bool.and_eq_true] at h
  obtain ⟨hequal, hconst⟩ := h
  cases hi : b.instruction <;> cases hj : b'.instruction <;> rw [hi, hj] at hequal
  · simpa [value, hi, hj] using hconst
  · simp [equal] at hequal
  · simp [equal] at hequal
  · simpa [value, hi, hj, value_eq_of_equal hequal] using hconst

lemma equal_comm (i j : Option HInstruction) : equal i j = equal j i := by
  cases i <;> cases j <;> simp [equal, eq_comm]

lemma value_ge_of_greaterThanOrEqualTo (h : b.greaterThanOrEqualTo b' = true) :
    b'.value env ≤ b.value env := by
  refine value_le_of_lessThanOrEqualTo (Eq.trans ?_ h)
  rw [lessThanOrEqualTo, greaterThanOrEqualTo, equal_comm]

lemma narrowLowerBound_or (b b' : ValueBound) : narrowLowerBound b b' = b ∨ narrowLowerBound b b' = b' := by
  unfold narrowLowerBound
  split_ifs <;> simp

lemma narrowUpperBound_or (b b' : ValueBound) : narrowUpperBound b b' = b ∨ narrowUpperBound b b' = b' := by
  unfold narrowUpperBound
  split_ifs <;> simp

lemma narrowLowerBound_self (b : ValueBound) : narrowLowerBound b b = b :=
  (narrowLowerBound_or b b).elim id id

lemma narrowUpperBound_self (b : ValueBound) : narrowUpperBound b b = b :=
  (narrowUpperBound_or b b).elim id id

lemma bounds_of_not_wouldAdd {x y : Int}
    (h : wouldAddOverflowOrUnderflow x y = false) (hx : kMinInt ≤ x ∧ x ≤ kMaxInt) :
    kMinInt ≤ x + y ∧ x + y ≤ kMaxInt := by
  unfold wouldAddOverflowOrUnderflow at h
  split_ifs at h <;> omega

/-- Taking constants off an instruction keeps its value. -/
lemma addOrSubLoop_spec (env : Env) (hc : kMinInt ≤ c ∧ c ≤ kMaxInt) : i.eval env + ofInt 32 c =
        (addOrSubLoop c i).1.eval env + ofInt 32 (addOrSubLoop c i).2 ∧
      (kMinInt ≤ (addOrSubLoop c i).2 ∧ (addOrSubLoop c i).2 ≤ kMaxInt) ∧
      (i.isInvariant = true → (addOrSubLoop c i).1.isInvariant = true) ∧
      (i.Defined env → (addOrSubLoop c i).1.Defined env) := by
  fun_induction addOrSubLoop c i with
  | case1 c n left v h | case3 c n left v h | case5 c i h1 h2 => exact ⟨rfl, hc, id, id⟩
  | case2 c n left v h ih | case4 c n left v h ih =>
    obtain ⟨heval, hbounds, hinv, hdef⟩ := ih (bounds_of_not_wouldAdd (by simpa using h) hc)
    refine ⟨?_, hbounds, ?_, fun hd => hdef hd.1⟩
    · rw [← heval, BitVec.ofInt_add, BitVec.ofInt_toInt]
      simp only [HInstruction.eval, BitVec.sub_eq_add_neg]
      ac_rfl
    · intro hi
      rw [HInstruction.isInvariant, Bool.and_eq_true] at hi
      exact hinv hi.1

/-- The bound detected for a value: a constant, or an array length and a
    constant, whose sum may have wrapped around. -/
structure Detects (env : Env) (b : ValueBound) (x : BitVec 32) : Prop where
  le_value : x.toInt ≤ b.value env
  eq_value : b.isConstant = true → b.value env = x.toInt
  kind : b.isConstant = true ∨ b.isRelatedToArrayLength = true

lemma detects_of_arrayLength (hj : j.isArrayLength = true) (hd : j.Defined env)
    (hc : kMinInt ≤ c) : (make (some j) c).Detects env (j.eval env + ofInt 32 c) := by
  cases j with
  | arrayLength id a =>
    refine ⟨?_, ?_, .inr rfl⟩
    · rw [value_make, ofInt_toInt_add]
      have hlen : 0 ≤ ((HInstruction.arrayLength id a).eval env).toInt := hd.2
      exact toInt_ofInt_le (by omega)
    · intro h
      simp [make, isConstant] at h
  | _ => simp [HInstruction.isArrayLength] at hj

lemma detects_of_detectValueBound (h : detectValueBoundFromValue i = some b) (hd : i.Defined env) :
    b.Detects env (i.eval env) ∧ (i.isInvariant = true → ∀ j ∈ b.instruction, j.isInvariant = true) := by
  unfold detectValueBoundFromValue at h
  split at h
  · rename_i c
    cases h
    refine ⟨⟨?_, fun _ => ?_, .inl rfl⟩, fun _ j hj => by simp [make] at hj⟩ <;>
      simp [value_make, HInstruction.eval]
  · rename_i id a
    cases h
    refine ⟨?_, fun hi j hj => ?_⟩
    · simpa using detects_of_arrayLength rfl hd (c := 0) (by decide)
    · obtain rfl : HInstruction.arrayLength id a = j := by simpa [make] using hj
      exact hi
  · split at h
    · rename_i left right hsub
      split_ifs at h with hleft
      cases h
      rw [isAddOrSubAConstant] at hsub
      split_ifs at hsub
      have hloop := addOrSubLoop_spec env (i := i) (c := 0) (by decide)
      rw [some.inj hsub] at hloop
      obtain ⟨heval, hbounds, hinv, hdef⟩ := hloop
      refine ⟨?_, fun hi j hj => ?_⟩
      · rw [show i.eval env = left.eval env + ofInt 32 right by simpa using heval]
        exact detects_of_arrayLength hleft (hdef hd) hbounds.1
      · cases left with
        | arrayLength id a =>
          obtain rfl : HInstruction.arrayLength id a = j := by simpa [make] using hj
          exact hinv hi
        | _ => simp [HInstruction.isArrayLength] at hleft
    · simp at h

end ValueBound

/-! ## Comparisons -/

/-- What the range a comparison establishes on an edge says of the number
    compared. Its lower bound is not used where it is an array length. -/
structure EdgeSound (env : Env) (range : ValueRange) (x : BitVec 32) : Prop where
  le_upper : x.toInt ≤ range.upper.value env
  lower_le : range.lower.isConstant = true → range.lower.value env ≤ x.toInt

variable {b : ValueBound} {c : Int} {range : ValueRange} {x : BitVec 32}

lemma edgeSound_upTo {env : Env} (h : b.upTo c = some range) (hx : x.toInt ≤ b.value env + c) :
    EdgeSound env range x := by
  obtain ⟨upper, hadd, rfl⟩ := map_eq_some_iff.1 h
  refine ⟨?_, fun _ => ?_⟩
  · rwa [value_add hadd]
  · simpa [ValueBound.value, ValueBound.min] using (toInt_bounds x).1

lemma edgeSound_downTo {env : Env} (h : b.downTo c = some range) (hx : b.value env + c ≤ x.toInt) :
    EdgeSound env range x := by
  obtain ⟨lower, hadd, rfl⟩ := map_eq_some_iff.1 h
  refine ⟨?_, fun _ => ?_⟩
  · simpa [ValueBound.value, ValueBound.max] using (toInt_bounds x).2
  · rwa [value_add hadd]

lemma edgeSound_exactRange {env : Env} (h : b.exactRange = some range)
    (hx : x.toInt ≤ b.value env) : EdgeSound env range x := by
  unfold exactRange at h
  split_ifs at h with hrel
  cases h
  refine ⟨hx, fun hconst => ?_⟩
  have hnone : b.instruction = none := by simpa [isConstant] using hconst
  simp [isRelatedToArrayLength, hnone] at hrel

namespace ValueBound

variable {b : ValueBound} {c c' : Int} {range : ValueRange}

lemma onTrue_belowRanges (h : (b.belowRanges c c').onTrue = some range) : b.upTo c = some range := by
  unfold belowRanges at h
  split_ifs at h <;> exact h

lemma onFalse_belowRanges (h : (b.belowRanges c c').onFalse = some range) :
    b.isRelatedToArrayLength = false ∧ b.downTo c' = some range := by
  unfold belowRanges at h
  split_ifs at h with _ hupper hlower hlower <;>
    exact ⟨(of_decide_eq_true hlower).2, h⟩

lemma onTrue_aboveRanges (h : (b.aboveRanges c c').onTrue = some range) :
    b.isRelatedToArrayLength = false ∧ b.downTo c = some range := by
  unfold aboveRanges at h
  split_ifs at h with _ hlower <;> exact ⟨(of_decide_eq_true hlower).2, h⟩

lemma onFalse_aboveRanges (h : (b.aboveRanges c c').onFalse = some range) : b.upTo c' = some range := by
  unfold aboveRanges at h
  split_ifs at h <;> exact h

end ValueBound

/-- The range of an edge holds of what passes along it. -/
lemma edgeSound_comparisonRanges {env : Env} {cond : IfCondition} {y : BitVec 32}
    (hb : b.Detects env y) {edge : Bool} (hedge : cond.test x y = edge)
    (h : (if edge then (comparisonRanges cond b).onTrue else (comparisonRanges cond b).onFalse) =
      some range) : EdgeSound env range x := by
  have hle := hb.le_value
  have hexact : b.isRelatedToArrayLength = false → b.value env = y.toInt := fun hrel =>
    hb.eq_value (hb.kind.resolve_right (by simp [hrel]))
  cases cond with
  | lt | le =>
    simp only [IfCondition.test] at hedge
    cases edge with
    | true =>
      simp only [slt_iff_toInt_lt, sle_iff_toInt_le] at hedge
      exact edgeSound_upTo (onTrue_belowRanges h) (by omega)
    | false =>
      simp only [← Bool.not_eq_true, slt_iff_toInt_lt, sle_iff_toInt_le] at hedge
      obtain ⟨hrel, hdown⟩ := onFalse_belowRanges h
      have := hexact hrel
      exact edgeSound_downTo hdown (by omega)
  | gt | ge =>
    simp only [IfCondition.test] at hedge
    cases edge with
    | true =>
      simp only [slt_iff_toInt_lt, sle_iff_toInt_le] at hedge
      obtain ⟨hrel, hdown⟩ := onTrue_aboveRanges h
      have := hexact hrel
      exact edgeSound_downTo hdown (by omega)
    | false =>
      simp only [← Bool.not_eq_true, slt_iff_toInt_lt, sle_iff_toInt_le] at hedge
      exact edgeSound_upTo (onFalse_aboveRanges h) (by omega)
  | eq =>
    cases edge with
    | true =>
      obtain rfl := of_decide_eq_true hedge
      exact edgeSound_exactRange h hle
    | false => simp [comparisonRanges] at h
  | ne =>
    cases edge with
    | true => simp [comparisonRanges] at h
    | false =>
      obtain rfl : x = y := by simpa [IfCondition.test] using hedge
      exact edgeSound_exactRange h hle
  | b | be | a | ae => cases edge <;> simp [comparisonRanges] at h

/-! ## Narrowing -/

lemma le_maxUpper {env : Env} (h : x.toInt ≤ b.value env) : x.toInt ≤ maxUpper b := by
  unfold maxUpper
  split_ifs with hconst hrel
  · rwa [value_of_isConstant hconst] at h
  · cases hi : b.instruction with
    | none => simp [isConstant, hi] at hconst
    | some i =>
      have hlen := (toInt_bounds (i.eval env)).2
      simp only [value, hi, map_some, getD_some] at h
      omega
  · exact (toInt_bounds x).2

namespace MonotonicValueRange

variable {m : MonotonicValueRange} {range r : ValueRange} {env : Env} {x : BitVec 32}

/-- A number of the sequence is at most the last one that is computed. -/
lemma le_lastNumInSequence (hinc : 0 < m.increment) {upper : Int} {k : Nat}
    (hx : x.toInt = (m.initial.eval env).toInt + k * m.increment) (h : x.toInt ≤ upper) :
    x.toInt ≤ m.lastNumInSequence upper := by
  unfold lastNumInSequence
  split
  · rename_i c hc
    split_ifs with hle
    · exact h
    · rw [hc, HInstruction.eval] at hx
      have hk : (k : Int) * m.increment ≤ upper - c.toInt := by omega
      rw [Int.tdiv_eq_ediv_of_nonneg (by omega)]
      have hdiv := (Int.le_ediv_iff_mul_le hinc).2 hk
      have := Int.mul_le_mul_of_nonneg_right hdiv hinc.le
      omega
  · exact h

/-- When `narrow` gives a plain range, and which. -/
lemma narrow_eq_plain (h : m.narrow range = .plain r) :
    (0 < m.increment ∧ (m.bound.narrowLowerBound range.lower).isConstant = true ∧
      m.lastNumInSequence (maxUpper range.upper) ≤ kMaxInt - m.increment ∧
      r = ⟨m.bound.narrowLowerBound range.lower, range.upper⟩) ∨
    (m.increment ≤ 0 ∧ range.lower.isConstant = true ∧ kMinInt - m.increment ≤ range.lower.constant ∧
      r = ⟨range.lower, m.bound.narrowUpperBound range.upper⟩) := by
  unfold narrow at h
  dsimp only at h
  split_ifs at h with hpos h1 h2 h3 h4
  · left
    have hconst : (m.bound.narrowLowerBound range.lower).isConstant = true := by
      rw [Bool.or_eq_true, not_or, Bool.not_eq_true', Bool.not_eq_false] at h1
      exact h1.1
    exact ⟨hpos, hconst, h2, (RangeInfo.plain.inj h).symm⟩
  · right
    rw [Bool.and_eq_true, decide_eq_true_iff] at h4
    exact ⟨by omega, h4.1, h4.2, (RangeInfo.plain.inj h).symm⟩

variable (h : m.narrow range = .plain r) (hx : EdgeSound env range x) {k : Nat}
  (hk : x.toInt = (m.initial.eval env).toInt + k * m.increment)

include h hx hk in
/-- Where the range is plain, the number after one that passes the edge does not wrap around. -/
lemma noWrap_of_narrow : kMinInt ≤ x.toInt + m.increment ∧ x.toInt + m.increment ≤ kMaxInt := by
  have hbounds := toInt_bounds x
  rcases narrow_eq_plain h with ⟨hpos, -, hlast, -⟩ | ⟨hneg, hconst, hlower, -⟩
  · have := le_lastNumInSequence hpos hk (le_maxUpper hx.le_upper)
    omega
  · have := hx.lower_le hconst
    rw [value_of_isConstant hconst] at this
    omega

/-- What is known of the initial value, on the side the sequence starts from. -/
structure BoundSound (m : MonotonicValueRange) (env : Env) : Prop where
  lower_le : 0 < m.increment → m.bound.isConstant = true → m.bound.value env ≤ (m.initial.eval env).toInt
  le_upper : m.increment < 0 → (m.initial.eval env).toInt ≤ m.bound.value env

include h hx hk in
/-- The plain range contains the numbers of the sequence that pass the edge. -/
lemma contains_of_narrow (hinc : m.increment ≠ 0) (hbound : m.BoundSound env) : r.Contains env x := by
  rcases narrow_eq_plain h with ⟨hpos, hconst, -, rfl⟩ | ⟨hneg, hconst, -, rfl⟩
  · refine ⟨?_, hx.le_upper⟩
    dsimp only
    rcases narrowLowerBound_or m.bound range.lower with heq | heq
    · rw [heq] at hconst ⊢
      have hstart := hbound.lower_le hpos hconst
      have : 0 ≤ (k : Int) * m.increment := Int.mul_nonneg (by omega) (by omega)
      omega
    · rw [heq] at hconst ⊢
      exact hx.lower_le hconst
  · refine ⟨hx.lower_le hconst, ?_⟩
    dsimp only
    rcases narrowUpperBound_or m.bound range.upper with heq | heq
    · rw [heq]
      have hstart := hbound.le_upper (by omega)
      have : (k : Int) * m.increment ≤ 0 := Int.mul_nonpos_of_nonneg_of_nonpos (by omega) hneg
      omega
    · rw [heq]
      exact hx.le_upper

end MonotonicValueRange

/-! ## Runs of the loop -/

/-- A loop with a comparison of its phi in the header, and the values that
    instructions yield in one execution of it. -/
structure LoopRun where
  initial : HInstruction
  backInputs : List HInstruction
  cond : IfCondition
  right : HInstruction
  /-- The range found for the initial value. -/
  initialRange : Option ValueRange
  /-- Whether the successor along an edge is in the loop. -/
  stays : Bool → Bool
  outside : Nat → BitVec 32
  /-- What the instructions of the loop yield at each visit of the header. -/
  inside : Nat → Nat → BitVec 32

namespace LoopRun

variable (L : LoopRun)

def env (k : Nat) (i : BitVec 32) : Env := ⟨L.inside k, L.outside, i⟩

def initialValue : BitVec 32 := L.initial.eval (L.env 0 0#32)

/-- The edge that is taken when the phi is `i` at visit `k`. -/
def edge (k : Nat) (i : BitVec 32) : Bool := L.cond.test i (L.right.eval (L.env k i))

/-- The visits of the header and the values of the phi, where every step back to
    the header meets `ok`. -/
inductive Visit (L : LoopRun) (ok : Nat → BitVec 32 → Prop) : Nat → BitVec 32 → Prop
  | start : Visit L ok 0 L.initialValue
  | next {k : Nat} {i : BitVec 32} {input : HInstruction} : Visit L ok k i →
      L.stays (L.edge k i) = true → input ∈ L.backInputs → ok k i →
      Visit L ok (k + 1) (input.eval (L.env k i))

/-- What the analysis may rely on: the initial value comes from before the loop and lies in the range
    found for it, and the instructions that are compared have been executed. -/
structure Valid (L : LoopRun) : Prop where
  initial_invariant : L.initial.isInvariant = true
  initial_defined : L.initial.Defined (L.env 0 0#32)
  range_contains : ∀ r ∈ L.initialRange, r.Contains (L.env 0 0#32) L.initialValue
  range_invariant : ∀ r ∈ L.initialRange, (∀ j ∈ r.lower.instruction, j.isInvariant = true) ∧
    ∀ j ∈ r.upper.instruction, j.isInvariant = true
  right_defined : ∀ k i, L.Visit (fun _ _ => True) k i → L.right.Defined (L.env k i)

/-- A step that takes the edge, or that does not wrap around. -/
def StepOk (increment : Int) (edge : Bool) (k : Nat) (i : BitVec 32) : Prop :=
  L.edge k i = edge ∨ (kMinInt ≤ i.toInt + increment ∧ i.toInt + increment ≤ kMaxInt)

variable {L : LoopRun} {m : MonotonicValueRange} {i : BitVec 32} {k : Nat}

lemma Visit.mono {ok ok' : Nat → BitVec 32 → Prop} (hok : ∀ k i, ok k i → ok' k i) (h : L.Visit ok k i) :
    L.Visit ok' k i := by
  induction h with
  | start => exact .start
  | next _ hstays hinput hk ih => exact .next ih hstays hinput (hok _ _ hk)

variable {edge : Bool}

/-- What `visitPhi` finds out about the phi. -/
lemma visitPhi_spec (h : visitPhi L.initial L.backInputs L.initialRange = some (.monotonic m)) :
    m.initial = L.initial ∧ m.increment ≠ 0 ∧
      (∀ input ∈ L.backInputs, ∀ env, input.eval env = env.phi + ofInt 32 m.increment) ∧
      m.bound = initialBound L.initial m.increment L.initialRange := by
  unfold visitPhi at h
  split at h
  · simp at h
  · rename_i instruction hsame
    split at h
    · simp at h
    · rename_i left increment hadd
      split_ifs at h with hleft hzero
      · simp at h
      obtain rfl := RangeInfo.monotonic.inj (some.inj h)
      refine ⟨rfl, hzero, ?_, rfl⟩
      intro input hinput env
      have hinput : input = instruction := by
        cases hb : L.backInputs with
        | nil => simp [hb] at hinput
        | cons first rest =>
          rw [hb, sameInputAtBackEdges] at hsame
          split_ifs at hsame with hall
          cases hsame
          rw [hb, List.mem_cons] at hinput
          rcases hinput with rfl | hinput
          · rfl
          · exact of_decide_eq_true (List.all_eq_true.1 hall input hinput)
      rw [isAddOrSubAConstant] at hadd
      split_ifs at hadd
      have hloop := (addOrSubLoop_spec env (i := instruction) (c := 0) (by decide)).1
      rw [some.inj hadd, hleft, HInstruction.eval] at hloop
      simpa [hinput] using hloop

lemma Valid.eval_initial (hL : L.Valid) (k : Nat) (i : BitVec 32) :
    L.initial.eval (L.env k i) = L.initialValue :=
  HInstruction.eval_eq_of_isInvariant hL.initial_invariant rfl

/-- A bound from before the loop has one value. -/
lemma value_eq_of_invariant {b : ValueBound} (hb : ∀ j ∈ b.instruction, j.isInvariant = true)
    (k : Nat) (i : BitVec 32) : b.value (L.env k i) = b.value (L.env 0 0#32) := by
  cases hi : b.instruction with
  | none => simp [value, hi]
  | some j =>
    have heval : j.eval (L.env k i) = j.eval (L.env 0 0#32) :=
      HInstruction.eval_eq_of_isInvariant (hb j hi) rfl
    simp [value, hi, heval]

/-- The bound of the initial value holds at every visit. -/
lemma Valid.boundSound (hL : L.Valid)
    (h : visitPhi L.initial L.backInputs L.initialRange = some (.monotonic m)) (k : Nat)
    (i : BitVec 32) : m.BoundSound (L.env k i) := by
  obtain ⟨hinitial, -, -, hbound⟩ := visitPhi_spec h
  unfold initialBound at hbound
  split at hbound
  · rename_i b hdetect
    subst hbound
    obtain ⟨hb, hinv⟩ := detects_of_detectValueBound hdetect hL.initial_defined
    refine ⟨fun hinc hconst => ?_, fun hinc => ?_⟩ <;>
      rw [hinitial, hL.eval_initial, value_eq_of_invariant (hinv hL.initial_invariant)]
    · exact (hb.eq_value hconst).le
    · exact hb.le_value
  refine ⟨fun hinc _ => ?_, fun hinc => ?_⟩ <;> rw [hinitial, hL.eval_initial] <;> split at hbound
  · rename_i range hrange
    rw [if_pos hinc] at hbound
    rw [hbound, value_eq_of_invariant (hL.range_invariant range hrange).1]
    exact (hL.range_contains range hrange).1
  · rw [if_pos hinc] at hbound
    rw [hbound]
    simpa [ValueBound.value, ValueBound.min] using (toInt_bounds _).1
  · rename_i range hrange
    rw [if_neg (by omega)] at hbound
    rw [hbound, value_eq_of_invariant (hL.range_invariant range hrange).2]
    exact (hL.range_contains range hrange).2
  · rw [if_neg (by omega)] at hbound
    rw [hbound]
    simpa [ValueBound.value, ValueBound.max] using (toInt_bounds _).2

/-- The range that the comparison establishes on an edge. -/
lemma exists_of_handleIf {r : ValueRange}
    (h : handleIf (.monotonic m) L.cond L.right edge = some (.plain r)) :
    ∃ range, m.narrow range = .plain r ∧ ∀ k i, L.right.Defined (L.env k i) → L.edge k i = edge →
      EdgeSound (L.env k i) range i := by
  unfold handleIf at h
  split at h
  · simp at h
  · rename_i bound hdetect
    obtain ⟨range, hrange, hnarrow⟩ := map_eq_some_iff.1 h
    refine ⟨range, hnarrow, fun k i hdefined hedge => ?_⟩
    exact edgeSound_comparisonRanges (detects_of_detectValueBound hdetect hdefined).1 hedge hrange

/-- The phi runs through the sequence without wrapping around. -/
lemma toInt_of_visit (hL : L.Valid)
    (hphi : visitPhi L.initial L.backInputs L.initialRange = some (.monotonic m)) {r : ValueRange}
    (hif : handleIf (.monotonic m) L.cond L.right edge = some (.plain r))
    (h : L.Visit (L.StepOk m.increment edge) k i) :
    i.toInt = L.initialValue.toInt + k * m.increment := by
  obtain ⟨hinitial, -, hinputs, -⟩ := visitPhi_spec hphi
  obtain ⟨range, hnarrow, hsound⟩ := exists_of_handleIf hif
  induction h with
  | start => simp
  | @next k i input hvisit hstays hinput hok ih =>
    have hwrap : kMinInt ≤ i.toInt + m.increment ∧ i.toInt + m.increment ≤ kMaxInt := by
      rcases hok with hedge | hwrap
      · have hdefined := hL.right_defined k i (hvisit.mono fun _ _ _ => trivial)
        refine noWrap_of_narrow hnarrow (hsound k i hdefined hedge) (k := k) ?_
        rw [hinitial, hL.eval_initial, ih]
      · exact hwrap
    have hphi : (L.env k i).phi = i := rfl
    rw [hinputs input hinput, hphi, ofInt_toInt_add, toInt_ofInt_of_bounds hwrap.1 hwrap.2, ih]
    push_cast
    ring

end LoopRun

/-- A range that fits into `[0, length - 1]` has only valid indexes. -/
lemma ValueRange.Contains.index_lt {env : Env} {r : ValueRange} (h : r.Contains env x)
    {arrayLength : HInstruction}
    (hfits : r.fitsIn ⟨make none 0, make (some arrayLength) (-1)⟩ = true) :
    0 ≤ x.toInt ∧ x.toInt < (arrayLength.eval env).toInt := by
  rw [fitsIn, Bool.and_eq_true] at hfits
  have hlower : _ ≤ r.lower.value env := value_ge_of_greaterThanOrEqualTo hfits.1
  have hupper : r.upper.value env ≤ _ := value_le_of_lessThanOrEqualTo hfits.2
  rw [value_make] at hlower hupper
  simp only [map_none, getD_none, map_some, getD_some] at hlower hupper
  obtain ⟨h1, h2⟩ := h
  omega

/-- In every run in which the steps that return to the header along the other
    edge do not wrap around, the plain range that the phi gets on an edge
    contains it, and an index that fits into an array is in it. -/
theorem LoopRun.contains_of_visit {L : LoopRun} {m : MonotonicValueRange} (hL : L.Valid)
    (hphi : visitPhi L.initial L.backInputs L.initialRange = some (.monotonic m)) {edge : Bool}
    {r : ValueRange} (hif : handleIf (.monotonic m) L.cond L.right edge = some (.plain r)) {k : Nat}
    {i : BitVec 32} (h : L.Visit (L.StepOk m.increment edge) k i) (hedge : L.edge k i = edge) :
    r.Contains (L.env k i) i ∧ ∀ arrayLength : HInstruction,
      r.fitsIn ⟨ValueBound.make none 0, ValueBound.make (some arrayLength) (-1)⟩ = true →
      0 ≤ i.toInt ∧ i.toInt < (arrayLength.eval (L.env k i)).toInt := by
  have hdefined := hL.right_defined k i (h.mono fun _ _ _ => trivial)
  obtain ⟨hinitial, hinc, -, -⟩ := LoopRun.visitPhi_spec hphi
  obtain ⟨range, hnarrow, hsound⟩ := LoopRun.exists_of_handleIf hif
  have hk : i.toInt = (m.initial.eval (L.env k i)).toInt + k * m.increment := by
    rw [hinitial, hL.eval_initial]
    exact LoopRun.toInt_of_visit hL hphi hif h
  have hcontains := contains_of_narrow hnarrow (hsound k i hdefined hedge) hk
    hinc (hL.boundSound hphi k i)
  exact ⟨hcontains, fun arrayLength hfits => hcontains.index_lt hfits⟩

/-! ## A loop that counts up -/

variable (stays : Bool → Bool)

/-- A phi that starts at zero, is compared with ten and grows by one. -/
def countUp : LoopRun where
  initial := .intConstant 0#32
  backInputs := [.add 0 .phi (.intConstant 1#32)]
  cond := .lt
  right := .intConstant 10#32
  initialRange := none
  stays := stays
  outside := fun _ => 0#32
  inside := fun _ _ => 0#32

lemma valid_countUp : (countUp stays).Valid where
  initial_invariant := rfl
  initial_defined := trivial
  range_contains := by simp [countUp]
  range_invariant := by simp [countUp]
  right_defined _ _ _ := trivial

/-- The range that the phi gets where it is below ten. -/
def belowTen : ValueRange := ⟨⟨none, 0⟩, ⟨none, 9⟩⟩

lemma visitPhi_countUp :
    visitPhi (countUp stays).initial (countUp stays).backInputs (countUp stays).initialRange =
      some (.monotonic ⟨.intConstant 0#32, 1, ⟨none, 0⟩⟩) := by
  dsimp only [countUp]
  decide

lemma handleIf_countUp : handleIf (.monotonic ⟨.intConstant 0#32, 1, ⟨none, 0⟩⟩) (countUp stays).cond
      (countUp stays).right true = some (.plain belowTen) := by
  dsimp only [countUp]
  decide

/-- Where both edges stay in the loop, the phi takes every value. -/
lemma visit_countUp (k : Nat) : (countUp fun _ => true).Visit (fun _ _ => True) k (BitVec.ofNat 32 k) := by
  induction k with
  | zero => exact .start
  | succ k ih =>
    have hnext := LoopRun.Visit.next ih rfl (List.mem_singleton.2 rfl) trivial
    rwa [BitVec.ofNat_add]

/-- The loop `for (i = 0; i < 10; i++)` meets the condition, as it ends at the comparison. -/
theorem contains_of_visit_countUp :
    belowTen.Contains ((countUp id).env 1 1#32) 1#32 ∧ ∀ arrayLength : HInstruction,
      belowTen.fitsIn ⟨ValueBound.make none 0, ValueBound.make (some arrayLength) (-1)⟩ = true →
      0 ≤ (1#32).toInt ∧ (1#32).toInt < (arrayLength.eval ((countUp id).env 1 1#32)).toInt := by
  have hstart : (countUp id).Visit ((countUp id).StepOk 1 true) 0 0#32 := .start
  have hvisit := hstart.next rfl (List.mem_singleton.2 rfl) (.inl rfl)
  exact LoopRun.contains_of_visit (valid_countUp id) (visitPhi_countUp id) (handleIf_countUp id) hvisit rfl

/-- A loop that goes on whatever the comparison says comes back to it below zero. -/
theorem not_contains_countUp :
    ¬ ∀ (L : LoopRun) (m : MonotonicValueRange) (edge : Bool) (r : ValueRange) (k : Nat)
      (i : BitVec 32), L.Valid → visitPhi L.initial L.backInputs L.initialRange = some (.monotonic m) →
      handleIf (.monotonic m) L.cond L.right edge = some (.plain r) →
      L.Visit (fun _ _ => True) k i → L.edge k i = edge → r.Contains (L.env k i) i := by
  intro h
  have hcontains := h _ _ true belowTen (2 ^ 31) _ (valid_countUp _)
    (visitPhi_countUp _) (handleIf_countUp _) (visit_countUp (2 ^ 31)) (by decide)
  exact absurd hcontains.1 (by decide)

end Art.BoundsCheckElimination
