import Mathlib.Tactic.IntervalCases
import Art.SubtypeCheck.BitString

/-!
# The subtype check information of a class

`SubtypeCheckInfo` of `runtime/subtype_check_info.h`: the bit string of a class with
its overflow bit, together with the depth of the class. The first `depth` characters
are the path to the root, the character at `depth` is the label that the next child
will receive (`Next`).

* `createChild_false_spec`, `createChild_true_spec` describe the child that a class
  hands out, and how the class itself changes;
* `isSubtypeOf_eq_subtypeOf_iff` is the masked comparison of two classes in terms of
  their paths.
-/

namespace Art

open BitString

/-- `SubtypeCheckBits`: the bit string and the overflow bit, as stored in a class. -/
structure SubtypeCheckBits where
  bitstring : BitString
  overflow : Bool

/-- `SubtypeCheckBits{}`, the value of a class that nothing was written to. -/
def SubtypeCheckBits.zero : SubtypeCheckBits := ⟨empty, false⟩

/-- `SubtypeCheckInfo`: the stored bits of a class with its depth. -/
structure SubtypeCheckInfo where
  depth : ℕ
  bits : SubtypeCheckBits

namespace SubtypeCheckInfo

inductive State
  | uninitialized
  | initialized
  | assigned
  | overflowed
  deriving DecidableEq, Repr

inductive Result
  | unknownSubtypeOf
  | notSubtypeOf
  | subtypeOf
  deriving DecidableEq, Repr

variable (x : SubtypeCheckInfo)

def hasNext : Bool := x.depth < kCapacity

def getSafeDepth : ℕ := min x.depth kCapacity

def getBitString : BitString := x.bits.bitstring

def setBitString (val : BitString) : SubtypeCheckInfo :=
  { x with bits := { x.bits with bitstring := val } }

def getPathToRoot : BitString := x.getBitString.truncate x.getSafeDepth

def getNext : BitStringChar := x.getBitString.get x.depth

def setNext (next : BitStringChar) : SubtypeCheckInfo :=
  x.setBitString (x.getBitString.setAt x.depth next)

/-- `MaybeInitNext()`: if there is a next field, set it to 1. -/
def maybeInitNext : SubtypeCheckInfo :=
  if x.hasNext then
    let cleared := x.setNext {}
    cleared.setNext (cleared.getNext.add 1)
  else x

def markOverflowed : SubtypeCheckInfo :=
  { x with bits := { x.bits with overflow := true } }

/-- `OverwriteNextValueFromParent(child, value)`, called on the parent. -/
def overwriteNextValueFromParent (x child : SubtypeCheckInfo) (value : BitStringChar) : SubtypeCheckInfo :=
  if x.hasNext then child.setBitString (child.getBitString.setAt x.depth value) else child

def getState : State :=
  if x.bits.overflow then .overflowed
  else if x.getBitString.isEmpty then .uninitialized
  else if x.getPathToRoot.length = x.depth then .assigned
  else .initialized

def getEncodedPathToRoot : BitVec 32 := x.getPathToRoot.storage

def getEncodedPathToRootMask : BitVec 32 :=
  maskLeastSignificant 32 (bitLengthTotalAtPosition x.getSafeDepth)

def isSubtypeOf (x target : SubtypeCheckInfo) : Result :=
  if target.getState ≠ .assigned ∨ x.getState = .uninitialized then .unknownSubtypeOf
  else if x.getEncodedPathToRoot &&& target.getEncodedPathToRootMask =
      target.getEncodedPathToRoot then .subtypeOf
  else .notSubtypeOf

def createRoot : SubtypeCheckInfo :=
  let io : SubtypeCheckInfo := ⟨0, .zero⟩
  io.setNext (io.getNext.add 1)

/-- `CreateChild(assign_next)`: the child, and the parent it was called on afterwards. -/
def createChild (assignNext : Bool) : SubtypeCheckInfo × SubtypeCheckInfo :=
  let child : SubtypeCheckInfo := { x with depth := x.depth + 1 }
  let child := child.maybeInitNext
  let child := x.overwriteNextValueFromParent child {}
  if assignNext = false then (child, x)
  else if x.hasNext && !x.bits.overflow then
    let next := x.getNext
    if next.data ≠ next.maximumValue.data then
      (x.overwriteNextValueFromParent child next, x.setNext (next.add 1))
    else (child.markOverflowed, x) -- too wide
  else (child.markOverflowed, x) -- too deep, or the parent was already overflowed

/-! ## The characters of a class -/

/-- The character at a position, as a number. -/
def char (j : ℕ) : ℕ := (x.getBitString.data j).toNat

/-- The path to the root, padded with zeros. -/
def path (j : ℕ) : ℕ := if j < x.depth then x.char j else 0

variable {j : ℕ}

lemma char_eq_zero_of_le (x : SubtypeCheckInfo) (h : kCapacity ≤ j) : x.char j = 0 := by
  rw [char, x.getBitString.data_eq_zero_of_le h, BitVec.toNat_zero]

variable {x : SubtypeCheckInfo}

lemma char_eq_zero_iff : x.char j = 0 ↔ x.getBitString.data j = 0#32 := by
  rw [char, ← BitVec.toNat_inj, BitVec.toNat_zero]

@[simp] lemma char_zero (d j : ℕ) : char ⟨d, .zero⟩ j = 0 := by
  simp [char, getBitString, SubtypeCheckBits.zero]

/-- Two classes have the same path exactly when the padded paths agree. -/
lemma truncate_getPathToRoot_eq_iff {y : SubtypeCheckInfo} :
    x.getPathToRoot.truncate y.getSafeDepth = y.getPathToRoot ↔ ∀ j < y.depth, x.path j = y.path j := by
  have hlt : ∀ {z : SubtypeCheckInfo} {j}, j < kCapacity → (j < z.getSafeDepth ↔ j < z.depth) :=
    fun h => by simp [getSafeDepth, h]
  simp only [eq_iff_data, getPathToRoot, data_truncate]
  constructor
  · intro h j hj
    by_cases hc : j < kCapacity
    · have := h j hc
      rw [if_pos ((hlt hc).2 hj), if_pos ((hlt hc).2 hj)] at this
      rw [path, path, if_pos hj, char, char, ← this, apply_ite BitVec.toNat, BitVec.toNat_zero]
      simp only [hlt hc]
    · simp [path, x.char_eq_zero_of_le (not_lt.1 hc), y.char_eq_zero_of_le (not_lt.1 hc)]
  · intro h j hc
    simp only [hlt hc]
    split
    next hj =>
      have := h j hj
      rw [path, path, if_pos hj] at this
      refine BitVec.eq_of_toNat_eq ?_
      rw [apply_ite BitVec.toNat, BitVec.toNat_zero]
      exact this
    next => rfl

/-! ## States -/

lemma getState_eq_overflowed_iff : x.getState = .overflowed ↔ x.bits.overflow = true := by
  unfold getState
  grind

lemma getState_eq_uninitialized_iff :
    x.getState = .uninitialized ↔ x.bits.overflow = false ∧ ∀ j, x.char j = 0 := by
  have he : x.getBitString.isEmpty = true ↔ ∀ j, x.char j = 0 := by
    rw [BitString.isEmpty_iff]
    refine ⟨fun h j => ?_, fun h j _ => char_eq_zero_iff.1 (h j)⟩
    by_cases hj : j < kCapacity
    · exact char_eq_zero_iff.2 (h j hj)
    · exact x.char_eq_zero_of_le (not_lt.1 hj)
  unfold getState
  grind

lemma length_getPathToRoot_eq_iff : x.getPathToRoot.length = x.depth ↔
      x.depth ≤ kCapacity ∧ (x.depth = 0 ∨ x.char (x.depth - 1) ≠ 0) := by
  by_cases hd : x.depth ≤ kCapacity
  · rw [getPathToRoot, getSafeDepth, min_eq_left hd, length_truncate_eq_iff hd, ne_eq,
      ne_eq, ← char_eq_zero_iff]
    exact (and_iff_right hd).symm
  · have := x.getPathToRoot.length_le
    constructor
    · intro h
      omega
    · exact fun h => absurd h.1 hd

/-- A class is Assigned when it has a label of its own in a string that did not overflow. -/
lemma getState_eq_assigned_iff : x.getState = .assigned ↔ x.bits.overflow = false ∧ (∃ j, x.char j ≠ 0) ∧
      x.depth ≤ kCapacity ∧ (x.depth = 0 ∨ x.char (x.depth - 1) ≠ 0) := by
  have hu := getState_eq_uninitialized_iff (x := x)
  rw [← length_getPathToRoot_eq_iff]
  unfold getState at *
  grind

variable {t : SubtypeCheckInfo}

/-- The answer is unknown exactly when the target is not Assigned or the source is Uninitialized. -/
lemma isSubtypeOf_eq_unknown_iff : x.isSubtypeOf t = .unknownSubtypeOf ↔
      t.getState ≠ .assigned ∨ x.getState = .uninitialized := by
  unfold isSubtypeOf
  grind

lemma isSubtypeOf_eq_subtypeOf_iff :
    x.isSubtypeOf t = .subtypeOf ↔ t.getState = .assigned ∧ x.getState ≠ .uninitialized ∧
      x.getPathToRoot.truncate t.getSafeDepth = t.getPathToRoot := by
  rw [← and_mask_eq_iff (show t.getSafeDepth ≤ kCapacity from min_le_right _ _)]
  unfold isSubtypeOf getEncodedPathToRoot getEncodedPathToRootMask
  grind

/-! ## Creating a child -/

variable {i : ℕ} {c : BitStringChar}

lemma char_setAt (x : SubtypeCheckInfo) (hc : c.data.toNat < 2 ^ bitLengthAtPosition i) (j : ℕ) :
    (x.setBitString (x.getBitString.setAt i c)).char j = if j = i then c.data.toNat else x.char j := by
  rw [char, setBitString, getBitString, data_setAt _ hc, apply_ite BitVec.toNat]
  rfl

lemma char_overwriteNextValueFromParent (x y : SubtypeCheckInfo)
    (hc : c.data.toNat < 2 ^ bitLengthAtPosition x.depth) (j : ℕ) :
    (x.overwriteNextValueFromParent y c).char j =
      if j = x.depth ∧ x.depth < kCapacity then c.data.toNat else y.char j := by
  unfold overwriteNextValueFromParent hasNext
  by_cases h : x.depth < kCapacity
  · simp [h, char_setAt y hc]
  · simp [h]

lemma one_lt_two_pow_bitLength (h : i < kCapacity) : 1 < 2 ^ bitLengthAtPosition i := by
  have h3 : i < 3 := h
  interval_cases i <;> decide

lemma char_maybeInitNext (x : SubtypeCheckInfo) (j : ℕ) :
    x.maybeInitNext.char j = if j = x.depth ∧ x.depth < kCapacity then 1 else x.char j := by
  unfold maybeInitNext hasNext
  by_cases h : x.depth < kCapacity
  · have h0 : (({} : BitStringChar).data).toNat < 2 ^ bitLengthAtPosition x.depth := Nat.two_pow_pos _
    have hz : (x.setNext {}).getBitString.data x.depth = 0#32 := by
      rw [← char_eq_zero_iff, setNext, char_setAt x h0, if_pos rfl]
      rfl
    have h1 : (((x.setNext {}).getNext.add 1).data).toNat = 1 := by
      show ((x.setNext {}).getBitString.data x.depth + 1).toNat = 1
      rw [hz]
      rfl
    simp only [h, decide_true, if_true, and_true]
    rw [setNext, char_setAt _ (h1 ▸ one_lt_two_pow_bitLength h), h1, setNext, char_setAt _ h0]
    by_cases hj : j = x.depth <;> simp [hj, setBitString]
  · simp [h]

/-- The child before a label is assigned to it: the path of the parent, no label of its own, and
    the first `Next`. -/
def IsUnlabelledChild (x child : SubtypeCheckInfo) : Prop :=
  child.depth = x.depth + 1 ∧ ∀ j, child.char j =
    if j = x.depth then 0 else if j = x.depth + 1 ∧ j < kCapacity then 1 else x.char j

lemma isUnlabelledChild_create (x : SubtypeCheckInfo) : x.IsUnlabelledChild (x.overwriteNextValueFromParent
      ({ x with depth := x.depth + 1 } : SubtypeCheckInfo).maybeInitNext {}) := by
  refine ⟨?_, fun j => ?_⟩
  · unfold overwriteNextValueFromParent maybeInitNext
    split <;> split <;> rfl
  · rw [char_overwriteNextValueFromParent _ _ (Nat.two_pow_pos _), char_maybeInitNext]
    by_cases hj : j = x.depth
    · subst hj
      by_cases hc : x.depth < kCapacity
      · simp [hc]
      · simp [hc, char_eq_zero_of_le _ (not_lt.1 hc)]
    · simp only [hj, false_and, if_false]
      by_cases hj' : j = x.depth + 1
      · subst hj'
        simp [char, getBitString]
      · simp [hj', char, getBitString]

/-- A child that received the label `Next` of its parent, and the parent afterwards. -/
structure IsLabelledChild (x child x' : SubtypeCheckInfo) : Prop where
  has_next : x.depth < kCapacity
  overflow : x.bits.overflow = false
  child_depth : child.depth = x.depth + 1
  child_overflow : child.bits.overflow = false
  child_char : ∀ j, child.char j = if j = x.depth + 1 ∧ j < kCapacity then 1 else x.char j
  parent_depth : x'.depth = x.depth
  parent_overflow : x'.bits.overflow = false
  parent_char : ∀ j, x'.char j = if j = x.depth then x.char j + 1 else x.char j

lemma createChild_false_spec (x : SubtypeCheckInfo) : x.IsUnlabelledChild (x.createChild false).1 ∧
      (x.createChild false).1.bits.overflow = x.bits.overflow ∧ (x.createChild false).2 = x := by
  refine ⟨x.isUnlabelledChild_create, ?_, rfl⟩
  simp only [createChild, overwriteNextValueFromParent, maybeInitNext, if_true]
  split <;> split <;> rfl

/-- Either the child receives the parent's `Next` as its label and the parent moves on, or the
    child overflows and the parent stays as it is. -/
lemma createChild_true_spec (x : SubtypeCheckInfo) :
    x.IsLabelledChild (x.createChild true).1 (x.createChild true).2 ∨
      x.IsUnlabelledChild (x.createChild true).1 ∧
        (x.createChild true).1.bits.overflow = true ∧ (x.createChild true).2 = x := by
  obtain ⟨hdepth, hchar⟩ := x.isUnlabelledChild_create
  have hof := (createChild_false_spec x).2.1
  simp only [createChild, if_true] at hof
  simp only [createChild, Bool.true_eq_false, if_false]
  generalize x.overwriteNextValueFromParent _ {} = child at hdepth hchar hof ⊢
  by_cases hnext : (x.hasNext && !x.bits.overflow) = true
  · rw [if_pos hnext]
    simp only [hasNext, Bool.and_eq_true, decide_eq_true_eq, Bool.not_eq_true'] at hnext
    by_cases hmax : x.getNext.data ≠ x.getNext.maximumValue.data
    · left
      rw [if_pos hmax]
      have hlt : x.getNext.data.toNat < 2 ^ bitLengthAtPosition x.depth := x.getBitString.data_lt x.depth
      have h32 : bitLengthAtPosition x.depth ≤ 32 :=
        (Nat.le_add_left ..).trans ((bitLengthTotal_add_le x.depth).trans (by decide))
      -- a label below the maximum of its field has a successor in the field
      have hsucc : (x.getNext.add 1).data.toNat = x.getNext.data.toNat + 1 ∧
          x.getNext.data.toNat + 1 < 2 ^ bitLengthAtPosition x.depth := by
        have hne : x.getNext.data.toNat ≠ 2 ^ bitLengthAtPosition x.depth - 1 := fun h =>
          hmax (BitVec.eq_of_toNat_eq (by
            rw [h]
            show _ = (maskLeastSignificant 32 (bitLengthAtPosition x.depth)).toNat
            rw [toNat_maskLeastSignificant, min_eq_right h32]))
        have hpow := Nat.pow_le_pow_right (n := 2) (by decide) h32
        refine ⟨?_, by omega⟩
        show (x.getNext.data + 1#32).toNat = _
        rw [BitVec.toNat_add_of_lt (by simp; omega)]
        rfl
      refine ⟨hnext.1, hnext.2, ?_, ?_, fun j => ?_, rfl, hnext.2, fun j => ?_⟩
      · simp [overwriteNextValueFromParent, setBitString, hasNext, hnext.1, hdepth]
      · simp [overwriteNextValueFromParent, setBitString, hasNext, hnext.1, hof, hnext.2]
      · rw [char_overwriteNextValueFromParent _ _ hlt, hchar]
        by_cases hj : j = x.depth
        · subst hj
          simp [hnext.1, getNext, data, char]
        · simp [hj]
      · rw [setNext, char_setAt _ (hsucc.1 ▸ hsucc.2), hsucc.1]
        by_cases hj : j = x.depth
        · subst hj
          simp [getNext, data, char]
        · simp [hj]
    · rw [if_neg hmax]
      exact .inr ⟨⟨hdepth, hchar⟩, rfl, rfl⟩
  · rw [if_neg hnext]
    exact .inr ⟨⟨hdepth, hchar⟩, rfl, rfl⟩

lemma createRoot_spec : createRoot.depth = 0 ∧ createRoot.bits.overflow = false ∧
    ∀ j, createRoot.char j = if j = 0 then 1 else 0 := by
  refine ⟨rfl, rfl, fun j => ?_⟩
  rw [createRoot, setNext, char_setAt _ (by decide), char_zero]
  rfl

end SubtypeCheckInfo

end Art
