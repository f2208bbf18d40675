import Mathlib.Algebra.Order.Group.Multiset
import Mathlib.Data.Multiset.Range
import Art.Lib.Cyclic

/-!
# Tables with linear probing

A table of `b` slots on a circle, each empty or holding an element that has an ideal
slot. `Probed` is the invariant of linear probing: no empty slot lies between the ideal
slot of an element and the slot that holds it.
-/

namespace Probing

open Cyclic Function Multiset

variable {α : Type*} {b : ℕ} {ideal : α → ℕ} {data : ℕ → Option α}

/-- The elements of the table. -/
def elems (b : ℕ) (data : ℕ → Option α) : Multiset α := (Multiset.range b).filterMap data

variable {x : α}

lemma mem_elems : x ∈ elems b data ↔ ∃ i < b, data i = some x := by
  simp [elems, Multiset.mem_filterMap]

lemma filterMap_congr {β : Type*} {f g : β → Option α} {s : Multiset β}
    (h : ∀ i ∈ s, f i = g i) : s.filterMap f = s.filterMap g := by
  induction s using Quotient.inductionOn with
  | h l => exact congrArg _ (List.filterMap_congr h)

lemma pairwise_cons {r : α → α → Prop} [Std.Symm r] {x : α} {m : Multiset α} :
    (x ::ₘ m).Pairwise r ↔ (∀ y ∈ m, r x y) ∧ m.Pairwise r := by
  induction m using Quotient.inductionOn with
  | h l =>
    exact pairwise_coe_iff_pairwise.trans (List.pairwise_cons.trans
      (and_congr Iff.rfl Multiset.pairwise_coe_iff_pairwise.symm))

lemma elems_eq_zero (h : ∀ i < b, data i = none) : elems b data = 0 := by
  refine eq_zero_of_forall_notMem fun x hx => ?_
  obtain ⟨i, hi, hd⟩ := mem_elems.1 hx
  simp [h i hi] at hd

/-- Filling an empty slot adds the element. -/
lemma elems_place {i : ℕ} (hi : i < b) (he : data i = none) (x : α) :
    elems b (update data i (some x)) = x ::ₘ elems b data := by
  have hmem : i ∈ Multiset.range b := Multiset.mem_range.2 hi
  have hne : ∀ j ∈ (Multiset.range b).erase i, update data i (some x) j = data j := fun j hj =>
    update_of_ne ((Multiset.nodup_range b).mem_erase_iff.1 hj).1 ..
  rw [elems, elems, ← cons_erase hmem, filterMap_cons_some _ _ _ (update_self ..),
    filterMap_congr hne, filterMap_cons_none _ _ he]

/-- Emptying a slot takes its element out. -/
lemma elems_clear {i : ℕ} (hi : i < b) (he : data i = some x) :
    elems b data = x ::ₘ elems b (update data i none) := by
  rw [← elems_place hi (update_self ..), update_idem, ← he, update_eq_self]

/-- The elements are as many as the filled slots. -/
lemma card_elems (b : ℕ) (data : ℕ → Option α) :
    (elems b data).card = ((List.range b).filter fun i => (data i).isSome).length := by
  rw [elems, Multiset.range, Multiset.filterMap_coe, Multiset.coe_card]
  induction List.range b with
  | nil => rfl
  | cons i l ih => cases hd : data i <;> simp [hd, ih]

lemma card_elems_le (b : ℕ) (data : ℕ → Option α) : (elems b data).card ≤ b := by
  rw [card_elems]
  exact (List.length_filter_le ..).trans (List.length_range ..).le

/-- A table with fewer elements than slots has an empty slot. -/
lemma exists_empty (h : (elems b data).card < b) : ∃ i < b, data i = none := by
  by_contra hne
  have hall : ∀ i ∈ List.range b, (data i).isSome = true := fun i hi =>
    Option.isSome_iff_ne_none.2 fun h0 => hne ⟨i, List.mem_range.1 hi, h0⟩
  rw [card_elems, List.filter_eq_self.2 hall, List.length_range] at h
  exact lt_irrefl _ h

/-- A table with as many elements as slots has no empty slot. -/
lemma isSome_of_card_eq (h : (elems b data).card = b) : ∀ i < b, (data i).isSome = true := by
  rw [card_elems] at h
  have hlen : ((List.range b).filter fun i => (data i).isSome).length = (List.range b).length := by
    rw [h, List.length_range]
  intro i hi
  exact List.filter_eq_self.1 ((List.filter_sublist).eq_of_length hlen) i (List.mem_range.2 hi)

/-! ## The invariant of linear probing -/

/-- The slots that are probed for `x` before the slot `j` are filled. -/
def Path (b : ℕ) (ideal : α → ℕ) (data : ℕ → Option α) (x : α) (j : ℕ) : Prop :=
  ∀ k < dist b (ideal x) j, (data (shift b (ideal x) k)).isSome = true

/-- No empty slot lies between the ideal slot of an element and the slot that holds it. -/
def Probed (b : ℕ) (ideal : α → ℕ) (data : ℕ → Option α) : Prop :=
  ∀ j < b, ∀ x, data j = some x → Path b ideal data x j

/-- The invariant where the slot `e` is a hole that still counts as filled. -/
def ProbedBut (b : ℕ) (ideal : α → ℕ) (data : ℕ → Option α) (e : ℕ) : Prop :=
  (data e).isSome = true ∧ ∀ j < b, j ≠ e → ∀ x, data j = some x → Path b ideal data x j

lemma Path.mono {data' : ℕ → Option α} {j : ℕ} (h : Path b ideal data x j)
    (hd : ∀ i, (data i).isSome = true → (data' i).isSome = true) : Path b ideal data' x j :=
  fun k hk => hd _ (h k hk)

lemma isSome_update_some (data : ℕ → Option α) (j : ℕ) (x : α) (i : ℕ)
    (h : (data i).isSome = true) : (update data j (some x) i).isSome = true := by
  by_cases hij : i = j
  · simp [hij]
  · rwa [update_of_ne hij]

/-- Filling the first empty slot ahead of the ideal one keeps the invariant. -/
lemma Probed.place (h : Probed b ideal data) {j : ℕ} (hp : Path b ideal data x j) :
    Probed b ideal (update data j (some x)) := by
  intro i hi y hy
  by_cases hij : i = j
  · subst hij
    obtain rfl : x = y := by simpa using hy
    exact hp.mono (isSome_update_some data i x)
  · rw [update_of_ne hij] at hy
    exact (h i hi y hy).mono (isSome_update_some data j x)

lemma Probed.hole (h : Probed b ideal data) {e : ℕ} (he : (data e).isSome = true) :
    ProbedBut b ideal data e :=
  ⟨he, fun j hj _ => h j hj⟩

variable (hideal : ∀ x, ideal x < b)
include hideal

/-- An element that was probed across the hole moves into it, and leaves a hole behind. -/
lemma ProbedBut.move {e n : ℕ} (h : ProbedBut b ideal data e) (he : e < b) (hn : n < b)
    (hne : n ≠ e) {y : α} (hy : data n = some y) (hcov : dist b e n ≤ dist b (ideal y) n) :
    ProbedBut b ideal (update data e (some y)) n := by
  refine ⟨isSome_update_some data e y n (by simp [hy]), fun j hj hjn x hx => ?_⟩
  by_cases hje : j = e
  · subst hje
    obtain rfl : y = x := by simpa using hx
    have hd := dist_add_dist (hideal y) hj (.inl hcov)
    exact Path.mono (fun k hk => h.2 n hn hne y hy k (by omega)) (isSome_update_some data j y)
  · rw [update_of_ne hje] at hx
    exact (h.2 j hj hje x hx).mono (isSome_update_some data e y)

/-- Once the slots after the hole hold elements that were not probed across it, up to an empty
    slot, the hole can be emptied. -/
lemma ProbedBut.close {e d : ℕ} (h : ProbedBut b ideal data e) (he : e < b)
    (hseen : ∀ k, 0 < k → k ≤ d → ∀ y, data (shift b e k) = some y → dist b (ideal y) (shift b e k) < k)
    (hend : data (shift b e (d + 1)) = none) : Probed b ideal (update data e none) := by
  intro j hj y hy
  have hje : j ≠ e := by
    rintro rfl
    simp at hy
  rw [update_of_ne hje] at hy
  have hpath := h.2 j hj hje y hy
  intro k hk
  have hk0 := dist_lt (hideal y) hj
  rw [update_of_ne ?_]
  · exact hpath k hk
  · -- a path through the hole would run on through the empty slot, or end at a slot already seen
    intro hke
    have hdk : dist b (ideal y) e = k := by rw [← hke, dist_shift (hideal y) (by omega)]
    have hsum := dist_add_dist (hideal y) he (.inr ⟨hj, hdk ▸ hk⟩)
    have hj' : shift b e (dist b e j) = j := shift_dist he hj
    rcases Nat.lt_or_ge d (dist b e j) with hlt | hge
    · rcases Nat.eq_or_lt_of_le hlt with heq | hlt
      · rw [show d + 1 = dist b e j from heq, hj', hy] at hend
        cases hend
      · have := hpath (k + (d + 1)) (by omega)
        rw [← shift_add (hideal y) (by omega), hke, hend] at this
        cases this
    · have hpos : 0 < dist b e j := by
        refine Nat.pos_of_ne_zero fun h0 => hje ?_
        rw [← hj', h0, shift_zero he]
      have := hseen _ hpos hge y (by rw [hj', hy])
      rw [hj'] at this
      omega

end Probing
