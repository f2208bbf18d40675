import Art.BoundsCheck.Range

/-!
# Array accesses that do not alias

`CanArrayElementsAlias` of `compiler/optimizing/load_store_analysis.cc`. The offsets of two indexes
from a common one are compared as 64-bit numbers, while the indexes wrap around.
-/

namespace Art.LoadStoreAnalysis

open BoundsCheckElimination HInstruction
open BitVec (le_toInt toInt_add toInt_lt toInt_ofInt_eq_self toInt_zero)

/-- The inputs of an `HBinaryOperation`, and `IsCommutative`. -/
def asBinaryOperation : HInstruction → Option (HInstruction × HInstruction × Bool)
  | add _ l r => some (l, r, true)
  | sub _ l r => some (l, r, false)
  | binary op _ l r => some (l, r, op = .mul ∨ op = .and)
  | _ => none

def isAdd : HInstruction → Bool
  | add _ _ _ => true
  | _ => false

def isAddOrSub : HInstruction → Bool
  | add _ _ _ | sub _ _ _ => true
  | _ => false

/-- `GetConstantRight`. All constants are `int` constants here. -/
def getConstantRight (i : HInstruction) : Option HInstruction :=
  match asBinaryOperation i with
  | some (_, .intConstant c, _) | some (.intConstant c, _, true) => some (.intConstant c)
  | _ => none

def getLeastConstantLeft (i : HInstruction) : Option HInstruction := do
  let (left, right, _) ← asBinaryOperation i
  let mostConstantRight ← getConstantRight i
  if mostConstantRight = left then right else left

def canIntegerRangesOverlap (l1 h1 l2 h2 : ℤ) : Bool := max l1 l2 ≤ min h1 h2

/-- `l + (vector_length - 1)`, an unsigned sum that becomes an `int64_t`. -/
def high (l : ℤ) (vectorLength : ℕ) : ℤ := (BitVec.ofInt 64 (l + (vectorLength - 1))).toInt

/-- The constant of a sum, or that of a difference negated as an `int`. -/
def offset (idx : HInstruction) : Option ℤ :=
  match getConstantRight idx with
  | some (.intConstant c) => some (if isAdd idx then c else -c).toInt
  | _ => none

section

variable (idx1 : HInstruction) (vectorLength1 : ℕ) (idx2 : HInstruction) (vectorLength2 : ℕ)

/-- `CanIntegerRangesOverlap` of the ranges of both lengths from two offsets on. -/
def canRangesOverlap (l1 l2 : ℤ) : Bool :=
  canIntegerRangesOverlap l1 (high l1 vectorLength1) l2 (high l2 vectorLength2)

def canBinaryOpAndIndexAlias : Bool :=
  if !isAddOrSub idx1 then true
  else if getLeastConstantLeft idx1 ≠ idx2 then true
  else (offset idx1).all (canRangesOverlap vectorLength1 vectorLength2 · 0)

def canBinaryOpsAlias : Bool :=
  if !isAddOrSub idx1 || !isAddOrSub idx2 then true
  else if getLeastConstantLeft idx1 ≠ getLeastConstantLeft idx2 then true
  else (offset idx1).all fun l1 =>
    (offset idx2).all (canRangesOverlap vectorLength1 vectorLength2 l1)

def canArrayElementsAlias : Bool :=
  if idx1 = idx2 then true
  else match idx1, idx2 with
  | .intConstant c1, .intConstant c2 =>
    canRangesOverlap vectorLength1 vectorLength2 c1.toInt c2.toInt
  | _, _ =>
    if getLeastConstantLeft idx1 = some idx2 then
      canBinaryOpAndIndexAlias idx1 vectorLength1 idx2 vectorLength2
    else if getLeastConstantLeft idx2 = some idx1 then
      canBinaryOpAndIndexAlias idx2 vectorLength2 idx1 vectorLength1
    else if (getConstantRight idx1).isSome && (getConstantRight idx2).isSome then
      canBinaryOpsAlias idx1 vectorLength1 idx2 vectorLength2
    else true

end

/-- An access is inside an array. -/
def InBounds (x : BitVec 32) (vectorLength : ℕ) : Prop :=
  0 ≤ x.toInt ∧ x.toInt + vectorLength ≤ 2 ^ 31

variable {idx idx1 idx2 : HInstruction} {l : ℤ} {v1 v2 k1 k2 : ℕ} {x a b : BitVec 32}

/-- A sum or a difference is the other operand shifted by the offset. -/
lemma exists_eval_eq_add (env : Env) (haddSub : isAddOrSub idx = true) (hl : offset idx = some l) :
    ∃ i c, getLeastConstantLeft idx = some i ∧ idx.eval env = i.eval env + c ∧ c.toInt = l := by
  unfold offset at hl
  split at hl
  · rename_i c hc
    obtain rfl := Option.some.inj hl
    cases idx with
    | add id left right | sub id left right =>
      simp only [getLeastConstantLeft, asBinaryOperation, hc, Option.bind_eq_bind, Option.bind_some]
      simp only [getConstantRight, asBinaryOperation] at hc
      split at hc
      · -- the constant is on the right
        refine ⟨left, _, ?_, ?_, rfl⟩ <;> grind [HInstruction.eval, isAdd, BitVec.sub_eq_add_neg]
      · -- the constant is on the left, which only a sum allows
        refine ⟨right, _, ?_, ?_, rfl⟩ <;> grind [HInstruction.eval, isAdd]
      · cases hc
    | _ => cases haddSub
  · cases hl

variable (hk1 : k1 < v1) (hk2 : k2 < v2)
include hk1 hk2

/-- The indexes differ as the offsets do, or by `2 ^ 32` less, which is too much for the lengths. -/
lemma ne_of_add (h1 : InBounds (x + a) v1) (h2 : InBounds (x + b) v2)
    (h : canRangesOverlap v1 v2 a.toInt b.toInt = false)
    (hnear : a.toInt - b.toInt + v1 ≤ 2 ^ 32 ∧ b.toInt - a.toInt + v2 ≤ 2 ^ 32) :
    (x + a).toInt + k1 ≠ (x + b).toInt + k2 := by
  have ha := toInt_lt (x := a)
  have ha' := le_toInt a
  have hb := toInt_lt (x := b)
  have hb' := le_toInt b
  obtain ⟨h1, h1'⟩ := h1
  obtain ⟨h2, h2'⟩ := h2
  -- in bounds, the lengths are too small for a 64-bit sum to wrap around
  rw [canRangesOverlap, canIntegerRangesOverlap, decide_eq_false_iff_not, high, high,
    toInt_ofInt_eq_self (by decide) (by omega) (by omega),
    toInt_ofInt_eq_self (by decide) (by omega) (by omega)] at h
  rw [toInt_add, Int.bmod_def] at h1 h1' h2 h2' ⊢
  rw [toInt_add, Int.bmod_def]
  omega

variable {env : Env} (h1 : InBounds (idx1.eval env) v1) (h2 : InBounds (idx2.eval env) v2)
include h1 h2

/-- An index and its sum with a constant are never too far apart. -/
lemma ne_of_opAndIndex (h : canBinaryOpAndIndexAlias idx1 v1 idx2 v2 = false) :
    (idx1.eval env).toInt + k1 ≠ (idx2.eval env).toInt + k2 := by
  unfold canBinaryOpAndIndexAlias at h
  split_ifs at h with haddSub hleft
  obtain ⟨l, hl, h⟩ := (Option.all_eq_false _ _).1 h
  obtain ⟨i, c, hi, hc, rfl⟩ := exists_eval_eq_add env (by simpa using haddSub) hl
  obtain rfl := Option.some.inj (hi.symm.trans (not_not.1 hleft))
  have hlt := toInt_lt (x := c)
  have hle := le_toInt c
  have hne := ne_of_add (x := i.eval env) (a := c) (b := 0) hk1 hk2 (by rwa [← hc])
    (by rwa [BitVec.ofNat_eq_ofNat, BitVec.add_zero]) h
  rw [← hc, BitVec.ofNat_eq_ofNat, BitVec.add_zero, toInt_zero] at hne
  refine hne ?_
  unfold InBounds at h1 h2
  omega

omit hk1 hk2 h1 h2

/-- The offsets of two indexes from a common operand are not too far apart for the lengths. -/
def OffsetsNear (idx1 : HInstruction) (v1 : ℕ) (idx2 : HInstruction) (v2 : ℕ) : Prop :=
  getLeastConstantLeft idx1 = getLeastConstantLeft idx2 → ∀ l1 ∈ offset idx1, ∀ l2 ∈ offset idx2,
    l1 - l2 + v1 ≤ 2 ^ 32 ∧ l2 - l1 + v2 ≤ 2 ^ 32

/-- In an execution with both accesses in bounds, they have no element in common. -/
def DisjointIn (env : Env) (idx1 : HInstruction) (v1 : ℕ) (idx2 : HInstruction) (v2 : ℕ) : Prop :=
  InBounds (idx1.eval env) v1 → InBounds (idx2.eval env) v2 →
    ∀ k1 < v1, ∀ k2 < v2, (idx1.eval env).toInt + k1 ≠ (idx2.eval env).toInt + k2

lemma DisjointIn.symm (h : DisjointIn env idx1 v1 idx2 v2) : DisjointIn env idx2 v2 idx1 v1 :=
  fun h2 h1 k2 hk2 k1 hk1 => (h h1 h2 k1 hk1 k2 hk2).symm

lemma disjointIn_of_offsetsNear (h : canArrayElementsAlias idx1 v1 idx2 v2 = false)
    (hnear : OffsetsNear idx1 v1 idx2 v2) : DisjointIn env idx1 v1 idx2 v2 := by
  intro h1 h2 k1 hk1 k2 hk2
  revert h
  fun_cases canArrayElementsAlias idx1 v1 idx2 v2 with
  | case1 => simp
  | case2 c1 c2 =>
    intro h
    rw [HInstruction.eval, ← BitVec.zero_add c1] at h1 ⊢
    rw [HInstruction.eval, ← BitVec.zero_add c2] at h2 ⊢
    refine ne_of_add hk1 hk2 h1 h2 h ?_
    simp only [InBounds, BitVec.zero_add] at h1 h2
    omega
  | case3 _ _ _ hc =>
    rw [if_pos hc]
    exact ne_of_opAndIndex hk1 hk2 h1 h2
  | case4 _ _ _ hc hc' =>
    rw [if_neg hc, if_pos hc']
    exact fun h => (ne_of_opAndIndex hk2 hk1 h2 h1 h).symm
  | case5 _ _ _ hc hc' hc'' =>
    rw [if_neg hc, if_neg hc', if_pos hc'', canBinaryOpsAlias]
    intro h
    split_ifs at h with haddSub hleft
    obtain ⟨l1, hl1, h⟩ := (Option.all_eq_false _ _).1 h
    obtain ⟨l2, hl2, h⟩ := (Option.all_eq_false _ _).1 h
    simp only [Bool.or_eq_true, Bool.not_eq_true', not_or, Bool.not_eq_false] at haddSub
    obtain ⟨i, a, hi, ha, rfl⟩ := exists_eval_eq_add env haddSub.1 hl1
    obtain ⟨j, b, hj, hb, rfl⟩ := exists_eval_eq_add env haddSub.2 hl2
    -- both offsets are from the same index
    obtain rfl := Option.some.inj (hi.symm.trans ((not_not.1 hleft).trans hj))
    rw [ha] at h1 ⊢
    rw [hb] at h2 ⊢
    exact ne_of_add hk1 hk2 h1 h2 h (hnear (not_not.1 hleft) _ hl1 _ hl2)
  | case6 _ _ _ hc hc' hc'' =>
    rw [if_neg hc, if_neg hc', if_neg hc'']
    simp

/-! ## Offsets that are too far apart -/

lemma isAddOrSub_of_canArrayElementsAlias (h : canArrayElementsAlias idx1 v1 idx2 v2 = false)
    (hleft : getLeastConstantLeft idx1 = getLeastConstantLeft idx2) (hl : (offset idx1).isSome) :
    isAddOrSub idx1 = true ∧ isAddOrSub idx2 = true := by
  have hself : ∀ i, getLeastConstantLeft i ≠ some i := fun i hi => by
    obtain ⟨⟨l, r, _⟩, hop, hright⟩ := Option.bind_eq_some_iff.1 hi
    obtain ⟨_, -, hchoice⟩ := Option.bind_eq_some_iff.1 hright
    cases i <;> cases hop <;> split_ifs at hchoice <;> cases hchoice
  revert h
  fun_cases canArrayElementsAlias idx1 v1 idx2 v2 with
  | case1 => simp
  | case2 => cases hl
  | case3 _ _ _ hc => exact absurd (hleft.symm.trans hc) (hself idx2)
  | case4 _ _ _ hc hc' => exact absurd (hleft.trans hc') (hself idx1)
  | case5 _ _ _ hc hc' hc'' =>
    rw [if_neg hc, if_neg hc', if_pos hc'', canBinaryOpsAlias]
    split_ifs with haddSub <;> simp_all
  | case6 _ _ _ hc hc' hc'' =>
    rw [if_neg hc, if_neg hc', if_neg hc'']
    simp

/-- Where the first index is zero and its offset too far above the other one, the other access
    starts in the first one. -/
lemma le_of_disjointIn (hleft : getLeastConstantLeft idx1 = getLeastConstantLeft idx2)
    (hadd1 : isAddOrSub idx1 = true) (hadd2 : isAddOrSub idx2 = true) (hv2 : 0 < v2)
    (hlen : v1 + v2 ≤ 2 ^ 31)
    (hany : ∀ i ∈ getLeastConstantLeft idx1, ∀ x, ∃ env, i.eval env = x)
    (h : ∀ env, DisjointIn env idx1 v1 idx2 v2) {l1 l2 : ℤ} (hl1 : offset idx1 = some l1)
    (hl2 : offset idx2 = some l2) : l1 - l2 + v1 ≤ 2 ^ 32 := by
  obtain ⟨i, -, hi, -⟩ := exists_eval_eq_add ⟨fun _ => 0, fun _ => 0, 0⟩ hadd1 hl1
  obtain ⟨env, henv⟩ := hany i hi (-BitVec.ofInt 32 l1)
  obtain ⟨j, a, hj, ha, rfl⟩ := exists_eval_eq_add env hadd1 hl1
  obtain rfl := Option.some.inj (hi.symm.trans hj)
  obtain ⟨j, b, hj, hb, rfl⟩ := exists_eval_eq_add env hadd2 hl2
  obtain rfl := Option.some.inj (hi.symm.trans (hleft.trans hj))
  have hla := toInt_lt (x := a)
  have hlb := le_toInt b
  rw [henv, BitVec.ofInt_toInt, BitVec.add_comm] at ha hb
  have h1 : (idx1.eval env).toInt = 0 := by rw [ha, BitVec.add_right_neg, toInt_zero]
  by_contra! hfar
  have h2 : (idx2.eval env).toInt = 2 ^ 32 - (a.toInt - b.toInt) := by
    rw [hb, ← BitVec.sub_eq_add_neg, BitVec.toInt_sub, Int.bmod_def]
    omega
  refine h env ⟨by omega, by omega⟩ ⟨by omega, by omega⟩ (2 ^ 32 - (a.toInt - b.toInt)).toNat
    (by omega) 0 hv2 ?_
  omega

/-- Accesses that cannot alias have no element in common if the offsets from a common operand are
    not too far apart; for an operand that may have any value and lengths that fit an array, only
    if. -/
theorem disjointIn_of_canArrayElementsAlias (h : canArrayElementsAlias idx1 v1 idx2 v2 = false) :
    (OffsetsNear idx1 v1 idx2 v2 → ∀ env, DisjointIn env idx1 v1 idx2 v2) ∧
      (0 < v1 → 0 < v2 → v1 + v2 ≤ 2 ^ 31 →
        (∀ i ∈ getLeastConstantLeft idx1, ∀ x, ∃ env, i.eval env = x) →
        (∀ env, DisjointIn env idx1 v1 idx2 v2) → OffsetsNear idx1 v1 idx2 v2) := by
  refine ⟨fun hnear env => disjointIn_of_offsetsNear h hnear,
    fun hv1 hv2 hlen hany hdisjoint hleft l1 hl1 l2 hl2 => ?_⟩
  obtain ⟨hadd1, hadd2⟩ := isAddOrSub_of_canArrayElementsAlias h hleft (Option.isSome_of_mem hl1)
  exact ⟨le_of_disjointIn hleft hadd1 hadd2 hv2 hlen hany hdisjoint hl1 hl2,
    le_of_disjointIn hleft.symm hadd2 hadd1 hv1 (by omega) (hleft ▸ hany)
      (fun env => (hdisjoint env).symm) hl2 hl1⟩

/-- `i + 5` and `i - 3` with four elements each. -/
theorem disjointIn_of_canArrayElementsAlias_neighbours :
    let idx1 := add 1 phi (intConstant 5)
    let idx2 := sub 2 phi (intConstant 3)
    canArrayElementsAlias idx1 4 idx2 4 = false ∧ OffsetsNear idx1 4 idx2 4 ∧
      ∀ env, DisjointIn env idx1 4 idx2 4 :=
  have h : canArrayElementsAlias (add 1 phi (intConstant 5)) 4 (sub 2 phi (intConstant 3)) 4 =
      false := by
    decide +kernel
  have hnear : OffsetsNear (add 1 phi (intConstant 5)) 4 (sub 2 phi (intConstant 3)) 4 := by
    rintro - _ ⟨⟩ _ ⟨⟩
    decide
  ⟨h, hnear, (disjointIn_of_canArrayElementsAlias h).1 hnear⟩

/-- `i + 2147483647` and `i - 2147483648` with two elements each, the second one being behind the
    first. -/
theorem canArrayElementsAlias_wrapsAround :
    let idx1 := add 1 phi (intConstant 2147483647)
    let idx2 := add 2 phi (intConstant (-2147483648))
    let env : Env := ⟨fun _ => 0, fun _ => 0, -2147483643⟩
    canArrayElementsAlias idx1 2 idx2 2 = false ∧ InBounds (idx1.eval env) 2 ∧
      InBounds (idx2.eval env) 2 ∧
      (idx1.eval env).toInt + 1 = (idx2.eval env).toInt + 0 := by
  simp only [InBounds]
  decide +kernel

end Art.LoadStoreAnalysis
