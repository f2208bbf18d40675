import Mathlib.Order.Nat

/-!
# Searching for a run of indices

The first `k` consecutive indices with a property, found by scanning from the left and starting again
after each index without it.

* `find_eq_some`: what is found is such a run;
* `exists_find_iff`: one is found if there is one;
* `exists_findCyclic_iff`: so too when the search starts in the middle and then wraps around.
-/

namespace RunSearch

variable (p : ℕ → Bool)

/-- The `k` indices from `l` on have the property. -/
def Run (k l : ℕ) : Prop := ∀ j, l ≤ j → j < l + k → p j = true

/-- The first of the next `m` indices without the property, or the index after them. -/
def scan : ℕ → ℕ → ℕ
  | i, 0 => i
  | i, m + 1 => if p i then scan (i + 1) m else i

/-- The search for a run of `k` indices below `stop`. -/
def find (k stop : ℕ) : ℕ → ℕ → Option ℕ
  | 0, _ => none
  | fuel + 1, left =>
    if left + k - 1 < stop then
      if scan p left k = left + k then some left else find k stop fuel (scan p left k + 1)
    else none

/-- The search from `c` on, and then among the runs that start before `c`. -/
def findCyclic (k n c : ℕ) : Option ℕ := (find p k n n c).or (find p k (min (c + k - 1) n) n 0)

variable {p}

lemma scan_succ (i m : ℕ) : scan p i (m + 1) = if p i then scan p (i + 1) m else i := rfl

lemma le_scan (i m : ℕ) : i ≤ scan p i m := by
  induction m generalizing i with
  | zero => exact le_rfl
  | succ m ih =>
    rw [scan_succ]
    split
    · exact (Nat.le_succ i).trans (ih (i + 1))
    · exact le_rfl

lemma scan_le (i m : ℕ) : scan p i m ≤ i + m := by
  induction m generalizing i with
  | zero => exact le_rfl
  | succ m ih =>
    rw [scan_succ]
    split
    · exact (ih (i + 1)).trans (by omega)
    · omega

variable {i m : ℕ}

lemma of_lt_scan {j : ℕ} (hi : i ≤ j) (hj : j < scan p i m) : p j = true := by
  induction m generalizing i with
  | zero => exact absurd (hi.trans_lt hj) (lt_irrefl i)
  | succ m ih =>
    rw [scan_succ] at hj
    split at hj
    · rename_i hp
      rcases hi.eq_or_lt with rfl | hi
      · exact hp
      · exact ih hi hj
    · exact absurd (hi.trans_lt hj) (lt_irrefl i)

/-- A scan that stops early has met an index without the property. -/
lemma not_scan (h : scan p i m < i + m) : ¬p (scan p i m) = true := by
  induction m generalizing i with
  | zero => exact absurd h (lt_irrefl i)
  | succ m ih =>
    rw [scan_succ] at h ⊢
    split at h
    · rename_i hp
      rw [if_pos hp]
      exact ih (by omega)
    · rename_i hp
      rwa [if_neg hp]

variable {k stop fuel left l : ℕ}

lemma find_eq_some (h : find p k stop fuel left = some l) : left ≤ l ∧ l + k - 1 < stop ∧ Run p k l := by
  induction fuel generalizing left with
  | zero => cases h
  | succ fuel ih =>
    rw [find] at h
    split at h
    · rename_i hlt
      split at h
      · rename_i hs
        cases h
        exact ⟨le_rfl, hlt, fun j hj hj' => of_lt_scan hj (hs ▸ hj')⟩
      · obtain ⟨h1, h2⟩ := ih h
        exact ⟨(le_scan left k).trans ((Nat.le_succ _).trans h1), h2⟩
    · cases h

/-- The scan skips no run: one that starts before the index it stopped at would contain that index. -/
lemma exists_find (hk : 0 < k) (hfuel : stop ≤ left + fuel) (hl : left ≤ l) (hstop : l + k ≤ stop)
    (hrun : Run p k l) : ∃ l', find p k stop fuel left = some l' := by
  induction fuel generalizing left with
  | zero => omega
  | succ fuel ih =>
    rw [find, if_pos (by omega)]
    split
    · exact ⟨left, rfl⟩
    · rename_i hs
      have hlt : scan p left k < left + k := lt_of_le_of_ne (scan_le left k) hs
      have hle := le_scan (p := p) left k
      refine ih (by omega) (Nat.succ_le_of_lt (not_le.1 fun hle' => ?_))
      exact not_scan hlt (hrun _ hle' (by omega))

lemma exists_find_iff (hk : 0 < k) (hfuel : stop ≤ left + fuel) :
    (∃ l, find p k stop fuel left = some l) ↔ ∃ l, left ≤ l ∧ l + k ≤ stop ∧ Run p k l := by
  constructor
  · rintro ⟨l, h⟩
    obtain ⟨h1, h2, h3⟩ := find_eq_some h
    exact ⟨l, h1, by omega, h3⟩
  · rintro ⟨l, h1, h2, h3⟩
    exact exists_find hk hfuel h1 h2 h3

variable {n c : ℕ}

lemma findCyclic_eq_some (hk : 0 < k) (h : findCyclic p k n c = some l) : l + k ≤ n ∧ Run p k l := by
  rcases Option.or_eq_some_iff.1 h with h | ⟨-, h⟩
  · obtain ⟨-, h2, h3⟩ := find_eq_some h
    exact ⟨by omega, h3⟩
  · obtain ⟨-, h2, h3⟩ := find_eq_some h
    exact ⟨by omega, h3⟩

/-- The search is complete: where it starts does not matter. -/
lemma exists_findCyclic_iff (hk : 0 < k) :
    (∃ l, findCyclic p k n c = some l) ↔ ∃ l, l + k ≤ n ∧ Run p k l := by
  refine ⟨fun ⟨l, h⟩ => ⟨l, findCyclic_eq_some hk h⟩, fun ⟨l, hl, hrun⟩ => ?_⟩
  rw [findCyclic]
  cases hfirst : find p k n n c with
  | some l' => exact ⟨l', rfl⟩
  | none =>
    -- No run starts at or after `c`, so this one ends before `c + k`.
    have hlt : l < c := by
      by_contra hge
      obtain ⟨l', h'⟩ := exists_find hk (Nat.le_add_left n c) (not_lt.1 hge) hl hrun
      rw [hfirst] at h'
      cases h'
    exact exists_find hk (by omega) (Nat.zero_le l) (by omega) hrun

end RunSearch
