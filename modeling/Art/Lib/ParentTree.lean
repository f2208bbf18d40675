import Mathlib.Data.Fintype.Card

/-!
# Trees given by parents

A tree is given by the parent of each node, a partial function that is changed one node at a time.

* what hanging a node higher up does to both: no way gets longer, and what is lost lies between
  the node and its new parent.
-/

namespace ParentTree

open Function Relation.ReflTransGen
open Finset (mem_filter mem_univ univ)
open Option (some)

variable {α : Type*} {p p' : α → Option α} {r x y z v q c : α} {k k' : ℕ}

/-- The nodes on the way from `x` to the root, `x` among them. -/
def Anc (p : α → Option α) : α → α → Prop := Relation.ReflTransGen fun a b => p a = some b

/-- The way from a node to the root `r` has `k` nodes. -/
inductive Depth (p : α → Option α) (r : α) : α → ℕ → Prop
  | root : p r = none → Depth p r r 1
  | step {x y : α} {k : ℕ} : p x = some y → Depth p r y k → Depth p r x (k + 1)

/-- A node from which the way over the parents ends in the root. -/
def Rooted (p : α → Option α) (r x : α) : Prop := ∃ k, Depth p r x k

/-! ## Ways to the root -/

lemma anc_cases (h : Anc p x y) : x = y ∨ ∃ q, p x = some q ∧ Anc p q y :=
  cases_head h

lemma Anc.head (hx : p x = some q) (h : Anc p q y) : Anc p x y := Relation.ReflTransGen.head hx h

lemma Depth.pos (h : Depth p r x k) : 0 < k := by
  cases h <;> exact Nat.succ_pos _

lemma Depth.exists_parent (h : Depth p r x (k + 1)) (hk : 0 < k) : ∃ y, p x = some y ∧ Depth p r y k := by
  generalize hm : k + 1 = m at h
  cases h with
  | root => omega
  | step hx hd =>
    obtain rfl := Nat.succ.inj hm
    exact ⟨_, hx, hd⟩

lemma Depth.unique (h : Depth p r x k) (h' : Depth p r x k') : k = k' := by
  induction h generalizing k' with
  | root hr =>
    cases h' with
    | root => rfl
    | step hx _ => rw [hr] at hx; cases hx
  | step hx _ ih =>
    cases h' with
    | root hr => rw [hr] at hx; cases hx
    | step hx' h' =>
      obtain rfl := some.inj (hx.symm.trans hx')
      rw [ih h']

lemma Depth.root_none (h : Depth p r x k) : p r = none := by
  induction h with
  | root hr => exact hr
  | step _ _ ih => exact ih

/-- The nodes on the way are nearer to the root. -/
lemma Depth.of_anc (h : Depth p r x k) (ha : Anc p x y) :
    ∃ k', Depth p r y k' ∧ k' ≤ k ∧ (k' = k → y = x) := by
  induction h with
  | root hr =>
    rcases anc_cases ha with rfl | ⟨q, hq, -⟩
    · exact ⟨1, .root hr, le_rfl, fun _ => rfl⟩
    · rw [hr] at hq
      cases hq
  | step hx hd ih =>
    rcases anc_cases ha with rfl | ⟨q, hq, ha⟩
    · exact ⟨_, .step hx hd, le_rfl, fun _ => rfl⟩
    · obtain rfl := some.inj (hx.symm.trans hq)
      obtain ⟨k', hd', hle, -⟩ := ih ha
      exact ⟨k', hd', by omega, fun h => by omega⟩

lemma Rooted.of_anc (h : Rooted p r x) (ha : Anc p x y) : Rooted p r y := by
  obtain ⟨k, hk⟩ := h
  obtain ⟨k', hk', -⟩ := hk.of_anc ha
  exact ⟨k', hk'⟩

variable (h : Rooted p r x)
include h

lemma Rooted.antisymm (hxy : Anc p x y) (hyx : Anc p y x) : x = y := by
  obtain ⟨k, hk⟩ := h
  obtain ⟨k', hk', hle, -⟩ := hk.of_anc hxy
  obtain ⟨k'', hk'', hle', heq⟩ := hk'.of_anc hyx
  obtain rfl := hk.unique hk''
  exact heq (by omega)

/-- A parent is not below its child. -/
lemma Rooted.not_anc_of_parent (hx : p x = some q) : ¬ Anc p q x := fun ha => by
  obtain ⟨k, hk⟩ := h
  cases hk with
  | root hr =>
    rw [hr] at hx
    cases hx
  | step hx' hd =>
    obtain rfl := some.inj (hx.symm.trans hx')
    obtain ⟨k', hd', hle, -⟩ := hd.of_anc ha
    have := hd'.unique (.step hx' hd)
    omega

lemma Rooted.eq_root_of_none (hx : p x = none) : x = r := by
  obtain ⟨k, hk⟩ := h
  cases hk with
  | root => rfl
  | step hx' _ => rw [hx] at hx'; cases hx'

lemma Rooted.parent (hx : p x = some q) : Rooted p r q := h.of_anc (.single hx)

omit h

/-- The number of nodes on the way. -/
lemma Depth.eq_card [Fintype α] [DecidableEq α] [∀ x, DecidablePred (Anc p x)]
    (h : Depth p r x k) : k = (univ.filter (Anc p x)).card := by
  induction h with
  | root hr =>
    have : univ.filter (Anc p r) = {r} := by
      ext y
      rw [mem_filter, Finset.mem_singleton]
      refine ⟨fun h => ?_, fun h => ⟨mem_univ _, h ▸ .refl⟩⟩
      rcases anc_cases h.2 with rfl | ⟨q, hq, -⟩
      · rfl
      · rw [hr] at hq
        cases hq
    rw [this, Finset.card_singleton]
  | @step x y k hx hd ih =>
    have hnot : x ∉ univ.filter (Anc p y) := fun hmem =>
      Rooted.not_anc_of_parent ⟨_, .step hx hd⟩ hx (mem_filter.1 hmem).2
    have : univ.filter (Anc p x) = insert x (univ.filter (Anc p y)) := by
      ext z
      rw [Finset.mem_insert, mem_filter, mem_filter]
      refine ⟨fun h => ?_, fun h => ⟨mem_univ _, ?_⟩⟩
      · rcases anc_cases h.2 with rfl | ⟨q, hq, ha⟩
        · exact .inl rfl
        · obtain rfl := some.inj (hx.symm.trans hq)
          exact .inr ⟨mem_univ _, ha⟩
      · rcases h with rfl | h
        · exact .refl
        · exact h.2.head hx
    rw [this, Finset.card_insert_of_notMem hnot, ← ih]

lemma Depth.le_card [Fintype α] (h : Depth p r x k) : k ≤ Fintype.card α := by
  classical
  rw [h.eq_card]
  exact Finset.card_le_univ _

/-! ## Hanging a node higher up -/

section

variable [DecidableEq α]

/-- A step of the new tree is a way of the old one. -/
lemma anc_of_anc_update (hv : p v = some q) (hc : Anc p q c)
    (h : Anc (update p v (some c)) x y) : Anc p x y := by
  induction h with
  | refl => exact .refl
  | @tail a b _ hab ih =>
    by_cases hav : a = v
    · rw [hav, update_self] at hab
      cases hab
      exact ih.trans (hav ▸ hc.head hv)
    · rw [update_of_ne hav] at hab
      exact ih.tail hab

/-- What a node may lose lies above `v`. -/
lemma anc_update_or (hv : p v = some q) (h : Anc p x y) : Anc (update p v (some c)) x y ∨
      Anc (update p v (some c)) x v ∧ Anc p q y := by
  induction h using head_induction_on with
  | refl => exact .inl .refl
  | @head a b hab hb ih =>
    by_cases hav : a = v
    · subst hav
      obtain rfl := some.inj (hv.symm.trans hab)
      exact .inr ⟨.refl, hb⟩
    · have hab' : update p v (some c) a = some b := by rwa [update_of_ne hav]
      exact ih.imp (Anc.head hab') fun h => ⟨h.1.head hab', h.2⟩

/-- A node that is not below `v` keeps its way. -/
lemma anc_update_of_not_anc (hx : ¬ Anc p x v) (h : Anc p x y) (c : α) : Anc (update p v (some c)) x y := by
  induction h using head_induction_on with
  | refl => exact .refl
  | @head a b hab hb ih =>
    have hav : a ≠ v := by
      rintro rfl
      exact hx .refl
    refine Anc.head (q := b) ?_ (ih fun hbv => hx (hbv.head hab))
    rwa [update_of_ne hav]

/-- No way gets longer. -/
lemma Depth.update (hv : p v = some q) (hc : Anc p q c)
    (h : Depth p r x k) : ∃ k', Depth (update p v (some c)) r x k' ∧ k' ≤ k := by
  have hvr : v ≠ r := by
    rintro rfl
    rw [h.root_none] at hv
    cases hv
  induction k using Nat.strong_induction_on generalizing x with
  | _ k ih =>
    cases h with
    | root hr => exact ⟨1, .root (by rwa [update_of_ne hvr.symm]), le_rfl⟩
    | @step _ y k hx hd =>
      by_cases hxv : x = v
      · subst hxv
        obtain rfl := some.inj (hv.symm.trans hx)
        obtain ⟨k', hc', hle, -⟩ := hd.of_anc hc
        obtain ⟨k'', hk'', hle'⟩ := ih k' (by omega) hc'
        exact ⟨k'' + 1, .step (update_self ..) hk'', by omega⟩
      · obtain ⟨k', hk', hle⟩ := ih k (by omega) hd
        exact ⟨k' + 1, .step (by rwa [update_of_ne hxv]) hk', by omega⟩

end

end ParentTree
