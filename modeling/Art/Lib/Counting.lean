import Mathlib.Algebra.BigOperators.Ring.Finset
import Mathlib.Data.Nat.Count

/-!
# Counting below a bound

`Nat.count` for a predicate that is a disjoint union, for an interval, and by blocks of equal length.
-/

namespace Counting

open Nat (count count_succ)

variable {p q : ℕ → Prop} [DecidablePred p] [DecidablePred q]

lemma count_congr {n : ℕ} (h : ∀ i < n, (p i ↔ q i)) : count p n = count q n := by
  induction n with
  | zero => rfl
  | succ n ih =>
    rw [count_succ, count_succ, ih fun i hi => h i (by omega),
      if_congr (h n (Nat.lt_succ_self n)) rfl rfl]

lemma count_or {n : ℕ} (h : ∀ i < n, ¬(p i ∧ q i)) :
    count (fun i => p i ∨ q i) n = count p n + count q n := by
  induction n with
  | zero => rfl
  | succ n ih =>
    rw [count_succ, count_succ, count_succ, ih fun i hi => h i (by omega)]
    have hn := h n (Nat.lt_succ_self n)
    by_cases hp : p n
    · have hq : ¬q n := fun hq => hn ⟨hp, hq⟩
      rw [if_pos (.inl hp), if_pos hp, if_neg hq]
      omega
    · by_cases hq : q n
      · rw [if_pos (.inr hq), if_neg hp, if_pos hq]
        omega
      · rw [if_neg (not_or.mpr ⟨hp, hq⟩), if_neg hp, if_neg hq]
        omega

lemma count_interval (b e n : ℕ) : count (fun i => b ≤ i ∧ i < e) n = min n e - b := by
  induction n with
  | zero => rw [Nat.count_zero]; omega
  | succ n ih =>
    rw [count_succ, ih]
    split <;> omega

/-- The part of an interval in a block. -/
lemma count_interval_add (a b e n : ℕ) :
    count (fun i => b ≤ a + i ∧ a + i < e) n = min n (e - a) - (b - a) := by
  rw [← count_interval]
  exact count_congr fun i _ => by omega

lemma sum_count_block (w k : ℕ) :
    ∑ j ∈ Finset.range k, count (fun i => p (j * w + i)) w = count p (k * w) := by
  induction k with
  | zero => simp
  | succ k ih => rw [Finset.sum_range_succ, ih, Nat.succ_mul, Nat.count_add]

/-- Each number below the count is the count at some element. -/
lemma exists_count_eq {k n : ℕ} (h : k < count p n) : ∃ i < n, p i ∧ count p i = k := by
  induction n with
  | zero => exact absurd h (Nat.not_lt_zero k)
  | succ n ih =>
    by_cases hk : k < count p n
    · obtain ⟨i, hi, hp, hcount⟩ := ih hk
      exact ⟨i, hi.trans (Nat.lt_succ_self n), hp, hcount⟩
    · rw [count_succ] at h
      by_cases hp : p n
      · rw [if_pos hp] at h
        exact ⟨n, Nat.lt_succ_self n, hp, by omega⟩
      · rw [if_neg hp] at h
        omega

end Counting
