import Mathlib.Algebra.Order.Ring.Nat

/-!
# Sequences of changes

A sequence of vectors can be stored as what each of them changes: `U n i` is the new value
at `i` of the vector `n`, or `none` if it is left as it was. The value of a vector is then
that of the latest change.

* `latest_succ_getD` is the rule for a writer, which has to store every value that differs
  from the latest change, and may store others;
* `or_latest_succ` is the rule for a reader, which fills in from the last vector to the
  first what is not known yet.
-/

namespace Delta

variable {ι α : Type} {U : ℕ → ι → Option α} {n : ℕ} {i : ι}

/-- The latest change before the vector `n`. -/
def latest (U : ℕ → ι → Option α) : ℕ → ι → Option α
  | 0, _ => none
  | n + 1, i => (U n i).or (latest U n i)

lemma latest_succ_getD {d x : α} (hsome : ∀ y, U n i = some y → y = x)
    (hnone : U n i = none → (latest U n i).getD d = x) : (latest U (n + 1) i).getD d = x := by
  rw [latest]
  cases h : U n i with
  | none => exact hnone h
  | some y => exact hsome y h

lemma or_latest_succ (known : Option α) :
    (known.or (U n i)).or (latest U n i) = known.or (latest U (n + 1) i) :=
  Option.or_assoc

/-- The latest change depends on the changes before it only. -/
lemma latest_congr {V : ℕ → ι → Option α} (h : ∀ m < n, U m i = V m i) : latest U n i = latest V n i := by
  induction n with
  | zero => rfl
  | succ n ih => rw [latest, latest, h n (Nat.lt_succ_self n), ih fun m hm => h m (by omega)]

end Delta
