import Art.Lib.Signed

/-!
# Signed arithmetic that reports overflows

An operation on signed numbers of `w` bits yields its result reduced to `w` bits, and whether the
exact one did not fit. A computation is the sequence of such operations: it has overflowed if one
of them has.
-/

namespace Overflow

/-- A result, with whether a signed operation on the way to it overflowed. -/
structure Traced (α : Type*) where
  value : α
  overflow : Bool
  deriving DecidableEq, Repr

namespace Traced

variable {α β : Type*}

instance : Monad Traced where
  pure a := ⟨a, false⟩
  bind x f := ⟨(f x.value).value, x.overflow || (f x.value).overflow⟩

@[simp] lemma value_pure (a : α) : (pure a : Traced α).value = a := rfl

variable {α β : Type}

@[simp] lemma overflow_bind (x : Traced α) (f : α → Traced β) :
    (x >>= f).overflow = (x.overflow || (f x.value).overflow) := rfl

@[simp] lemma pure_bind (a : α) (f : α → Traced β) : (pure a >>= f) = f a := rfl

lemma mk_bind (a : α) (o : Bool) (f : α → Traced β) :
    ((⟨a, o⟩ : Traced α) >>= f) = ⟨(f a).value, o || (f a).overflow⟩ := rfl

/-- A computation without an overflow is its result. -/
lemma eq_pure {x : Traced α} (h : x.overflow = false) : x = pure x.value := by
  cases x with
  | mk value overflow => rw [show overflow = false from h]; rfl

/-- The outcome of an operation with the exact result `z`. -/
def ofInt (w : ℕ) (z : ℤ) : Traced ℤ where
  value := (BitVec.ofInt w z).toInt
  overflow := !(decide (-2 ^ (w - 1) ≤ z) && decide (z < 2 ^ (w - 1)))

lemma ofInt_of_mem {w : ℕ} (hw : 0 < w) {z : ℤ} (h : -2 ^ (w - 1) ≤ z) (h' : z < 2 ^ (w - 1)) :
    ofInt w z = pure z := by
  simp only [ofInt, BitVec.toInt_ofInt_eq_self hw h h', h, h', decide_true, Bool.and_self, Bool.not_true]
  rfl

lemma overflow_ofInt {w : ℕ} {z : ℤ} :
    (ofInt w z).overflow = false ↔ -2 ^ (w - 1) ≤ z ∧ z < 2 ^ (w - 1) := by
  simp [ofInt]

end Traced

end Overflow
