import Mathlib.Order.Nat
import Mathlib.Algebra.Order.Ring.Nat

/-!
# Probing around a circle of slots

Slots `0, …, b - 1` on a circle. `next` is the slot after a slot, `shift` goes a
number of slots ahead, `dist` counts the slots from one slot ahead to another, and
`probe` looks from a slot ahead for the first slot that satisfies a predicate.
-/

namespace Cyclic

variable {b i j k : ℕ}

/-- The slot after `i`. -/
def next (b i : ℕ) : ℕ := if b ≤ i + 1 then 0 else i + 1

/-- The slot that is `k` slots ahead of `i`, for `k` up to `b`. -/
def shift (b i k : ℕ) : ℕ := if i + k < b then i + k else i + k - b

/-- The number of slots from `i` ahead to `j`. -/
def dist (b i j : ℕ) : ℕ := if i ≤ j then j - i else j + b - i

/-- The first slot from `i` on that satisfies `stop`, if the fuel reaches it. -/
def probe (b : ℕ) (stop : ℕ → Bool) : ℕ → ℕ → Option ℕ
  | 0, _ => none
  | fuel + 1, i => if stop i then some i else probe b stop fuel (next b i)

lemma next_lt (hi : i < b) : next b i < b := by
  unfold next
  split <;> omega

lemma shift_lt (hi : i < b) (hk : k < b) : shift b i k < b := by
  unfold shift
  split <;> omega

lemma dist_lt (hi : i < b) (hj : j < b) : dist b i j < b := by
  unfold dist
  split <;> omega

@[simp] lemma shift_zero (hi : i < b) : shift b i 0 = i := by
  unfold shift
  split <;> omega

@[simp] lemma dist_self (b i : ℕ) : dist b i i = 0 := by simp [dist]

lemma shift_dist (hi : i < b) (hj : j < b) : shift b i (dist b i j) = j := by
  unfold shift dist
  split <;> split <;> omega

lemma dist_shift (hi : i < b) (hk : k < b) : dist b i (shift b i k) = k := by
  unfold shift dist
  split <;> split <;> omega

lemma next_shift (hi : i < b) (hk : k < b) : next b (shift b i k) = shift b i (k + 1) := by
  unfold shift next
  split <;> split <;> split <;> omega

lemma shift_next (hi : i < b) (hk : k < b) : shift b (next b i) k = shift b i (k + 1) := by
  unfold shift next
  split <;> split <;> split <;> omega

/-- Going from `i` to `j` past the slot `e`. -/
lemma dist_add_dist {e : ℕ} (hi : i < b) (he : e < b)
    (h : dist b e j ≤ dist b i j ∨ j < b ∧ dist b i e < dist b i j) :
    dist b i e + dist b e j = dist b i j := by
  unfold dist at *
  split_ifs at h ⊢ <;> omega

lemma shift_add {m : ℕ} (hi : i < b) (h : k + m < b) : shift b (shift b i k) m = shift b i (k + m) := by
  unfold shift
  split <;> split <;> split <;> omega

/-- Going from `i` to `j` past a slot `k` slots ahead. -/
lemma dist_of_shift (hi : i < b) (hj : j < b) (h : k + dist b (shift b i k) j < b) :
    dist b i j = k + dist b (shift b i k) j := by
  rw [← dist_shift hi h, ← shift_add hi h, shift_dist (shift_lt hi (by omega)) hj]

/-- The slot `i` is at least as far behind `n` as `e` exactly when its index, unwrapped past `e`,
    is not in the range from after `e` up to `n`. -/
lemma dist_le_dist_iff {e n : ℕ} (hi : i < b) (he : e < b) (hn : n < b) :
    ((if i < e then i + b else i) ≤ e ∨ (if n < e then n + b else n) < (if i < e then i + b else i)) ↔
      dist b e n ≤ dist b i n := by
  unfold dist
  split <;> split <;> split <;> split <;> omega

/-! ## Probing -/

variable {stop : ℕ → Bool}

lemma probe_of_path {fuel m : ℕ} (hi : i < b) (hm : m < b) (hf : m < fuel)
    (hstop : stop (shift b i m) = true) (hpath : ∀ k < m, stop (shift b i k) = false) :
    probe b stop fuel i = some (shift b i m) := by
  induction fuel generalizing i m with
  | zero => omega
  | succ fuel ih =>
    match m with
    | 0 =>
      rw [shift_zero hi] at hstop ⊢
      rw [probe, if_pos hstop]
    | m + 1 =>
      have h0 : stop i = false := shift_zero hi ▸ hpath 0 (by omega)
      rw [probe, h0, if_neg Bool.false_ne_true, ← shift_next hi (by omega)]
      refine ih (next_lt hi) (by omega) (by omega) ?_ fun k hk => ?_
      · rwa [shift_next hi (by omega)]
      · rw [shift_next hi (by omega)]
        exact hpath (k + 1) (by omega)

/-- A probe ends in the first slot that satisfies the predicate. -/
lemma probe_eq_some (hi : i < b) (hj : j < b) (hstop : stop j = true)
    (hpath : ∀ k < dist b i j, stop (shift b i k) = false) : probe b stop b i = some j := by
  have h := probe_of_path hi (dist_lt hi hj) (dist_lt hi hj)
    (show stop _ = true by rwa [shift_dist hi hj]) hpath
  rwa [shift_dist hi hj] at h

/-- A slot that satisfies the predicate makes the probe end. -/
lemma exists_probe_eq_some (hi : i < b) (hj : j < b) (hstop : stop j = true) :
    ∃ m < b, probe b stop b i = some m ∧ stop m = true ∧ ∀ k < dist b i m, stop (shift b i k) = false := by
  have hex : ∃ k, k < b ∧ stop (shift b i k) = true :=
    ⟨dist b i j, dist_lt hi hj, by rwa [shift_dist hi hj]⟩
  obtain ⟨hk, hs⟩ := Nat.find_spec hex
  have hpath : ∀ k < Nat.find hex, stop (shift b i k) = false := fun k hlt =>
    Bool.eq_false_iff.2 fun h => Nat.find_min hex hlt ⟨by omega, h⟩
  exact ⟨_, shift_lt hi hk, probe_of_path hi hk hk hs hpath, hs, by rwa [dist_shift hi hk]⟩

/-- Without a slot that satisfies the predicate the probe never ends. -/
lemma probe_eq_none (hi : i < b) (h : ∀ j < b, stop j = false) (fuel : ℕ) : probe b stop fuel i = none := by
  induction fuel generalizing i with
  | zero => rfl
  | succ fuel ih =>
    rw [probe, h i hi, if_neg Bool.false_ne_true]
    exact ih (next_lt hi)

end Cyclic
