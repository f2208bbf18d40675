import Art.InductionVar.Range

/-!
# Recognising rotates

`TryReplaceWithRotate` of `compiler/optimizing/instruction_simplifier.cc`: an add, or or xor of `x >>> r` and
`x << l` becomes a rotate if the distances are opposite modulo the register width. At multiples of the width
both operands are `x` itself, and only their or is `x` too.
-/

namespace Art.InstructionSimplifier

open BitVec (ofNat)

/-- The instructions that the visitor tells apart. Distances are ints. -/
inductive HInstruction : ControlType → Type
  | constant {t} (value : BitVec t.width) : HInstruction t
  | neg {t} (id : ℕ) (input : HInstruction t) : HInstruction t
  | sub {t} (id : ℕ) (left right : HInstruction t) : HInstruction t
  | ushr {t} (id : ℕ) (left : HInstruction t) (right : HInstruction .int32) : HInstruction t
  | shl {t} (id : ℕ) (left : HInstruction t) (right : HInstruction .int32) : HInstruction t
  | other {t} (id : ℕ) : HInstruction t
  deriving DecidableEq

open InstructionSimplifier.HInstruction
open BitVec (getElem_and getElem_or getElem_shiftLeft getElem_ushiftRight getElem_xor toNat_add
  toNat_signExtend
  toNat_setWidth_of_le)

/-- The operation on the two shifts. -/
inductive Op
  | add
  | xor
  | or

structure HRor (t : ControlType) where
  value : HInstruction t
  distance : HInstruction .int32

/-! ## Values -/

/-- The values of the other instructions. -/
abbrev Env := (t : ControlType) → ℕ → BitVec t.width

/-- `distance & max_shift_value`. -/
def masked (t : ControlType) (distance : BitVec 32) : ℕ := distance.toNat &&& (t.width - 1)

def HInstruction.eval (env : Env) : {t : ControlType} → HInstruction t → BitVec t.width
  | _, constant value => value
  | _, neg _ input => -input.eval env
  | _, sub _ left right => left.eval env - right.eval env
  | t, ushr _ left right => left.eval env >>> masked t (right.eval env)
  | t, shl _ left right => left.eval env <<< masked t (right.eval env)
  | t, other id => env t id

def Op.compute {w : ℕ} : Op → BitVec w → BitVec w → BitVec w
  | add, x, y => x + y
  | xor, x, y => x ^^^ y
  | or, x, y => x ||| y

variable {t : ControlType}

def HRor.compute (value : BitVec t.width) (distance : BitVec 32) : BitVec t.width :=
  if masked t distance = 0 then value
  else value >>> masked t distance ||| value <<< (t.width - masked t distance)

def HRor.eval (env : Env) (ror : HRor t) : BitVec t.width :=
  compute (ror.value.eval env) (ror.distance.eval env)

/-! ## The visitor -/

/-- `(c & (reg_bits - 1)) == 0`. -/
def isMultipleOfRegBits (t : ControlType) (c : BitVec 64) : Bool := c.toNat &&& (t.width - 1) = 0

/-- `IsSubRegBitsMinusOther`, false for any other instruction than an `HSub`. -/
def isSubRegBitsMinusOther (t : ControlType) (other : HInstruction .int32) : HInstruction .int32 → Bool
  | sub _ (constant c) right => right = other && isMultipleOfRegBits t (c.signExtend 64)
  | _ => false

section

-- the distances of the `HUShr` and of the `HShl`
variable (t) (r l : HInstruction .int32)

/-- `TryReplaceWithRotateConstantPattern`: true if `ReplaceRotateWithRor` is called. -/
def tryReplaceWithRotateConstantPattern (rdist ldist : BitVec 32) : Bool :=
  isMultipleOfRegBits t (ldist.signExtend 64 + rdist.signExtend 64)

def tryReplaceWithRotateRegisterSubPattern : Bool :=
  isSubRegBitsMinusOther t r l || isSubRegBitsMinusOther t l r

/-- `TryReplaceWithRotateRegisterNegPattern`, which itself returns false in any case. -/
def tryReplaceWithRotateRegisterNegPattern : Bool :=
  match r, l with
  | _, neg _ input => input = r
  | neg _ input, _ => input = l
  | _, _ => false

/-- The choice of the pattern in `TryReplaceWithRotate`, with the result. -/
def tryReplaceShifts : Bool × Bool :=
  match r, l with
  | constant rdist, constant ldist =>
    let replaced := tryReplaceWithRotateConstantPattern t rdist ldist
    (replaced, replaced)
  | sub _ _ _, _ | _, sub _ _ _ =>
    let replaced := tryReplaceWithRotateRegisterSubPattern t r l
    (replaced, replaced)
  | neg _ _, _ | _, neg _ _ => (tryReplaceWithRotateRegisterNegPattern r l, false)
  | _, _ => (false, false)

end

/-- `TryReplaceWithRotate`, for the inputs of the operation: the rotate in its place, and the result. -/
def tryReplaceWithRotate (left right : HInstruction t) : Option (HRor t) × Bool :=
  match left, right with
  | ushr _ x r, shl _ y l | shl _ y l, ushr _ x r =>
    if x = y then
      (if (tryReplaceShifts t r l).1 then some ⟨x, r⟩ else none, (tryReplaceShifts t r l).2)
    else (none, false)
  | _, _ => (none, false)

/-! ## Opposite distances -/

lemma and_width_sub_one (n : ℕ) : n &&& (t.width - 1) = n % t.width := by
  cases t
  · exact Nat.and_two_pow_sub_one_eq_mod n 5
  · exact Nat.and_two_pow_sub_one_eq_mod n 6

/-- The distances add up to a multiple of the width. -/
def Opposite (t : ControlType) (r l : BitVec 32) : Prop := (r.toNat + l.toNat) % t.width = 0

namespace Opposite

variable {c d r l : BitVec 32}

lemma of_constants (h : isMultipleOfRegBits t (l.signExtend 64 + r.signExtend 64) = true) :
    Opposite t r l := by
  rw [isMultipleOfRegBits, and_width_sub_one, decide_eq_true_iff, toNat_add, toNat_signExtend,
    toNat_signExtend, toNat_setWidth_of_le (by decide), toNat_setWidth_of_le (by decide)] at h
  unfold Opposite
  cases t <;> simp only [ControlType.width] at h ⊢ <;> grind

lemma symm (h : Opposite t r l) : Opposite t l r := by rwa [Opposite, Nat.add_comm]

/-- The difference from a multiple of the width. -/
lemma of_sub (h : Opposite t 0#32 c) : Opposite t (c - d) d := by
  unfold Opposite at *
  rw [BitVec.toNat_sub]
  cases t <;> simp only [ControlType.width, BitVec.toNat_zero] at h ⊢ <;> omega

lemma of_neg : Opposite t (-d) d := by
  rw [← BitVec.zero_sub]
  exact of_sub (Nat.zero_mod _)

/-- The value at which the operation on two equal operands gives the operand. -/
lemma eq_compute_self_iff {w : ℕ} {op : Op} {x : BitVec w} : x = op.compute x x ↔ op = .or ∨ x = 0 := by
  cases op with
  | _ => simp [Op.compute]

/-- An add or xor of the shifts is their or where they have no bit in common; at multiples of the width
    both are `x`. -/
lemma compute_eq_iff {x : BitVec t.width} {op : Op} (h : Opposite t r l) :
    HRor.compute x r = op.compute (x >>> masked t r) (x <<< masked t l) ↔
      op = .or ∨ masked t r ≠ 0 ∨ x = 0 := by
  rw [HRor.compute, masked, masked, and_width_sub_one, and_width_sub_one]
  unfold Opposite at h
  split_ifs with hr
  · rw [Nat.add_mod, hr, Nat.zero_add, Nat.mod_mod] at h
    rw [hr, h, BitVec.ushiftRight_zero, BitVec.shiftLeft_zero, eq_compute_self_iff]
    simp
  · refine iff_of_true ?_ (.inr (.inl hr))
    have hl : l.toNat % t.width = t.width - r.toNat % t.width := by
      cases t <;> simp only [ControlType.width] at * <;> omega
    rw [hl]
    cases op with
    | add =>
      refine (BitVec.add_eq_or_of_and_eq_zero _ _ (BitVec.eq_of_getElem_eq fun i hi => ?_)).symm
      simp only [getElem_and, getElem_ushiftRight, getElem_shiftLeft]
      grind
    | xor =>
      refine BitVec.eq_of_getElem_eq fun i hi => ?_
      simp only [Op.compute, getElem_xor, getElem_or, getElem_ushiftRight, getElem_shiftLeft]
      grind
    | or => rfl

variable {env : Env} {r l : HInstruction .int32}

lemma of_isSubRegBitsMinusOther (h : isSubRegBitsMinusOther t r l = true) :
    Opposite t (l.eval env) (r.eval env) := by
  revert h
  fun_cases isSubRegBitsMinusOther t r l with
  | case1 id c right =>
    rw [Bool.and_eq_true, decide_eq_true_iff, ← BitVec.add_zero (c.signExtend 64)]
    rintro ⟨rfl, hc⟩
    exact of_sub (of_constants hc)
  | case2 => exact nofun

lemma of_subPattern (h : tryReplaceWithRotateRegisterSubPattern t r l = true) :
    Opposite t (r.eval env) (l.eval env) := by
  rcases Bool.or_eq_true_iff.1 h with h | h
  · exact (of_isSubRegBitsMinusOther h).symm
  · exact of_isSubRegBitsMinusOther h

lemma of_negPattern (h : tryReplaceWithRotateRegisterNegPattern r l = true) :
    Opposite t (r.eval env) (l.eval env) := by
  unfold tryReplaceWithRotateRegisterNegPattern at h
  split at h
  · obtain rfl := of_decide_eq_true h
    exact of_neg.symm
  · obtain rfl := of_decide_eq_true h
    exact of_neg
  · cases h

/-- Whatever pattern replaces the operation, the distances are opposite in every execution. -/
lemma of_tryReplaceShifts (h : (tryReplaceShifts t r l).1 = true) :
    Opposite t (r.eval env) (l.eval env) := by
  unfold tryReplaceShifts at h
  split at h
  · exact of_constants h
  · exact of_subPattern h
  · exact of_subPattern h
  · exact of_negPattern h
  · exact of_negPattern h
  · cases h

end Opposite

lemma Op.compute_comm {w : ℕ} (op : Op) (x y : BitVec w) : op.compute x y = op.compute y x := by
  cases op with
  | add => exact BitVec.add_comm x y
  | xor => exact BitVec.xor_comm x y
  | or => exact BitVec.or_comm x y

/-- The rotate has the value of the operation if and only if that is an or, the distance is no multiple of
    the width, or the rotated value is zero. -/
theorem HRor.eval_eq_compute_iff {env : Env} {op : Op} {left right : HInstruction t} {ror : HRor t}
    (h : (tryReplaceWithRotate left right).1 = some ror) :
    ror.eval env = op.compute (left.eval env) (right.eval env) ↔
      op = .or ∨ masked t (ror.distance.eval env) ≠ 0 ∨ ror.value.eval env = 0 := by
  unfold tryReplaceWithRotate at h
  split at h
  · split_ifs at h with hx hreplaced
    obtain ⟨rfl, rfl⟩ := And.intro hx (Option.some.inj h)
    exact (Opposite.of_tryReplaceShifts hreplaced).compute_eq_iff
  · split_ifs at h with hx hreplaced
    obtain ⟨rfl, rfl⟩ := And.intro hx (Option.some.inj h)
    rw [op.compute_comm]
    exact (Opposite.of_tryReplaceShifts hreplaced).compute_eq_iff
  · cases h

/-- `(x >>> d) + (x << -d)` for `x = 7` and `d = 5`. -/
theorem HRor.eval_eq_compute_iff_sum :
    let env : Env := fun t id => ofNat t.width id
    (⟨other 7, other 5⟩ : HRor .int64).eval env =
      Op.add.compute ((ushr 1 (other 7) (other 5)).eval env) ((shl 2 (other 7) (neg 3 (other 5))).eval env) :=
  (HRor.eval_eq_compute_iff rfl).2 (.inr (.inl (by decide)))

/-- For `x = 1` and `d = 0` the rotate is 1, the sum is 2 and the xor is 0. -/
theorem HRor.eval_ne_compute :
    let env : Env := fun t id => ofNat t.width id
    let left : HInstruction .int32 := ushr 2 (other 1) (other 0)
    let right : HInstruction .int32 := shl 3 (other 1) (neg 4 (other 0))
    ∃ ror, (tryReplaceWithRotate left right).1 = some ror ∧ ror.eval env = ofNat _ 1 ∧
      Op.add.compute (left.eval env) (right.eval env) = ofNat _ 2 ∧
      Op.xor.compute (left.eval env) (right.eval env) = ofNat _ 0 :=
  ⟨⟨other 1, other 0⟩, rfl, by decide +kernel⟩

end Art.InstructionSimplifier
