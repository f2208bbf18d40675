import Art.Dominators.Dominance

/-!
# The dominator tree while it is computed

What `CommonDominator`, `Dominates` and `UpdateDominatorOfSuccessor` compute on a tree of parents:
the lowest common ancestor, whether a block is an ancestor, and a tree that still has all
dominators as ancestors.
-/

namespace Art

open ParentTree Dominance Option

variable {n : ℕ} {p p' : Fin n → Option (Fin n)} {r a b c q u v x y : Fin n} {j k k' fuel : ℕ}

namespace CommonDominator

lemma chainLength_eq (h : Depth p r x k) (hfuel : k ≤ fuel) : chainLength p fuel x = some k := by
  induction h generalizing fuel with
  | root hr =>
    obtain ⟨fuel, rfl⟩ := Nat.exists_eq_add_of_le' hfuel
    rw [chainLength, hr]
  | step hx _ ih =>
    obtain ⟨fuel, rfl⟩ := Nat.exists_eq_add_of_le' (Nat.le_of_add_left_le hfuel)
    rw [chainLength, hx]
    dsimp only
    rw [ih (by omega)]
    rfl

/-- A node that is as deep as `j` at most lies above `x` if it lies above the node in which a climb to
    the depth `j` ends. -/
lemma climb_spec {i : ℕ} (h : Depth p r x (i + j)) (hj : 0 < j) :
    ∃ y, climb p i x = some y ∧ Depth p r y j ∧ ∀ z k, Depth p r z k → k ≤ j → (Anc p x z ↔ Anc p y z) := by
  induction i generalizing x with
  | zero => exact ⟨x, rfl, by rwa [zero_add] at h, fun _ _ _ _ => Iff.rfl⟩
  | succ i ih =>
    rw [add_right_comm] at h
    obtain ⟨x', hx', hd⟩ := h.exists_parent (by omega)
    obtain ⟨y, hy, hyd, hanc⟩ := ih hd
    refine ⟨y, ?_, hyd, fun z k hz hk => ?_⟩
    · rw [climb, hx']
      exact hy
    · rw [← hanc z k hz hk]
      refine ⟨fun ha => ?_, fun ha => ha.head hx'⟩
      rcases anc_cases ha with rfl | ⟨q, hq, ha⟩
      · have := h.unique hz
        omega
      · obtain rfl := some.inj (hx'.symm.trans hq)
        exact ha

/-- Two nodes of the same depth. -/
lemma runUp_spec (ha : Depth p r a k) (hb : Depth p r b k) (hfuel : k ≤ fuel + 1) :
    ∃ c, runUp p fuel a b = some c ∧ ∀ y, Anc p c y ↔ Anc p a y ∧ Anc p b y := by
  induction k generalizing a b fuel with
  | zero => exact absurd ha.pos (lt_irrefl 0)
  | succ k ih =>
    by_cases hab : a = b
    · subst hab
      refine ⟨a, ?_, fun y => (and_self_iff).symm⟩
      cases fuel <;> simp [runUp]
    have ha' := ha
    have hb' := hb
    cases ha with
    | root =>
      cases hb with
      | root => exact absurd rfl hab
      | step _ hd => exact absurd hd.pos (lt_irrefl 0)
    | @step _ x _ hax hxd =>
      cases hb with
      | root => exact absurd hxd.pos (lt_irrefl 0)
      | @step _ y _ hby hyd =>
        have hk := hxd.pos
        obtain ⟨fuel, rfl⟩ : ∃ f, fuel = f + 1 := ⟨fuel - 1, by omega⟩
        have hfuel' : k ≤ fuel + 1 := by omega
        obtain ⟨c, hc, hanc⟩ := ih hxd hyd hfuel'
        refine ⟨c, ?_, fun z => ?_⟩
        · rw [runUp, if_neg hab, hax, hby]
          exact hc
        · rw [hanc]
          refine ⟨fun h => ⟨h.1.head hax, h.2.head hby⟩, fun ⟨haz, hbz⟩ => ?_⟩
          -- neither of the nodes lies above the other, since they are equally deep
          rcases anc_cases haz with rfl | ⟨q, hq, haz⟩
          · obtain ⟨k', hk', -, heq⟩ := hb'.of_anc hbz
            exact absurd (heq (hk'.unique ha')) hab
          · obtain rfl := some.inj (hax.symm.trans hq)
            refine ⟨haz, ?_⟩
            rcases anc_cases hbz with rfl | ⟨q, hq, hbz⟩
            · obtain ⟨k', hk', -, heq⟩ := ha'.of_anc (haz.head hax)
              exact absurd (heq (hk'.unique hb')).symm hab
            · obtain rfl := some.inj (hby.symm.trans hq)
              exact hbz

/-- `ForPair` returns the lowest common ancestor. -/
lemma forPair_spec (ha : Rooted p r a) (hb : Rooted p r b) :
    ∃ c, forPair p a b = some c ∧ ∀ y, Anc p c y ↔ Anc p a y ∧ Anc p b y := by
  obtain ⟨k, hk⟩ := ha
  obtain ⟨k', hk'⟩ := hb
  have hle : k ≤ n := hk.le_card.trans_eq (Fintype.card_fin n)
  have hle' : k' ≤ n := hk'.le_card.trans_eq (Fintype.card_fin n)
  rw [forPair, chainLength_eq hk hle, chainLength_eq hk' hle']
  simp only [bind_eq_bind, bind_some]
  split_ifs with hab
  · subst hab
    exact ⟨b, rfl, fun y => (and_self_iff).symm⟩
  rcases le_total k k' with hkk | hkk
  · -- `b` is the deeper one
    obtain ⟨x, hx, hxd, hanc⟩ := climb_spec (i := k' - k) (by rwa [Nat.sub_add_cancel hkk]) hk.pos
    rw [hx, Nat.sub_eq_zero_of_le hkk, min_eq_right hkk]
    obtain ⟨c, hc, hanc'⟩ := runUp_spec hxd hk (Nat.le_succ k)
    refine ⟨c, hc, fun y => ?_⟩
    rw [hanc', and_comm]
    refine and_congr_right fun hay => ?_
    obtain ⟨ky, hy, hyle, -⟩ := hk.of_anc hay
    exact (hanc y ky hy hyle).symm
  · obtain ⟨x, hx, hxd, hanc⟩ := climb_spec (i := k - k') (by rwa [Nat.sub_add_cancel hkk]) hk'.pos
    rw [hx, Nat.sub_eq_zero_of_le hkk, min_eq_left hkk]
    obtain ⟨c, hc, hanc'⟩ := runUp_spec hk' hxd (Nat.le_succ k')
    refine ⟨c, hc, fun y => ?_⟩
    rw [hanc', and_comm]
    refine and_congr_left fun hby => ?_
    obtain ⟨ky, hy, hyle, -⟩ := hk'.of_anc hby
    exact (hanc y ky hy hyle).symm

end CommonDominator

namespace HGraph

/-- `Dominates` says whether a block is an ancestor. -/
lemma dominates_spec (h : Depth p r b k) (hfuel : k ≤ fuel) :
    ∃ res, dominates p a fuel b = some res ∧ (res = true ↔ Anc p b a) := by
  induction h generalizing fuel with
  | root hr =>
    obtain ⟨fuel, rfl⟩ := Nat.exists_eq_add_of_le' hfuel
    rw [dominates, hr]
    split_ifs with heq
    · exact ⟨true, rfl, fun _ => heq ▸ .refl, fun _ => rfl⟩
    · refine ⟨false, rfl, nofun, fun ha => ?_⟩
      rcases anc_cases ha with rfl | ⟨q, hq, -⟩
      · exact absurd rfl heq
      · rw [hr] at hq
        cases hq
  | @step x y k hx _ ih =>
    obtain ⟨fuel, rfl⟩ := Nat.exists_eq_add_of_le' (Nat.le_of_add_left_le hfuel)
    rw [dominates, hx]
    split_ifs with heq
    · exact ⟨true, rfl, fun _ => heq ▸ .refl, fun _ => rfl⟩
    · have hfuel' : k ≤ fuel := by omega
      obtain ⟨res, hres, hiff⟩ := ih hfuel'
      refine ⟨res, hres, hiff.trans ⟨fun ha => ha.head hx, fun ha => ?_⟩⟩
      rcases anc_cases ha with rfl | ⟨q, hq, ha⟩
      · exact absurd rfl heq
      · obtain rfl := some.inj (hx.symm.trans hq)
        exact ha

lemma dominates_of_rooted (h : Rooted p r b) (a : Fin n) :
    ∃ res, dominates p a n b = some res ∧ (res = true ↔ Anc p b a) := by
  obtain ⟨k, hk⟩ := h
  exact dominates_spec hk (hk.le_card.trans_eq (Fintype.card_fin n))

/-- What `UpdateDominatorOfSuccessor` does for an edge from `u` to `v`. -/
inductive Updated (p : Fin n → Option (Fin n)) (u v : Fin n) :
    (Fin n → Option (Fin n)) → Bool → Prop
  | attach : p v = none → Updated p u v (Function.update p v (some u)) true
  | raise {q c : Fin n} : p v = some q → (∀ y, Anc p c y ↔ Anc p q y ∧ Anc p u y) → c ≠ q →
      Updated p u v (Function.update p v (some c)) true
  | keep {q : Fin n} : p v = some q → Anc p u q → Updated p u v p false

lemma updateDominatorOfSuccessor_spec {E : Fin n → Fin n → Prop} (h : Approx E r p)
    (he : E u v) (hu : Rooted p r u) (hvr : v ≠ r) :
    ∃ p' updated, updateDominatorOfSuccessor p u v = some (p', updated) ∧
      Updated p u v p' updated ∧ Approx E r p' := by
  rw [updateDominatorOfSuccessor]
  cases hv : p v with
  | none => exact ⟨_, true, rfl, .attach hv, h.attach he hu hv hvr⟩
  | some q =>
    have hq := (h.rooted v q hv).parent hv
    obtain ⟨c, hc, hanc⟩ := CommonDominator.forPair_spec hq hu
    simp only [hc, bind_eq_bind, bind_some, some.injEq]
    split_ifs with hqc
    · subst hqc
      exact ⟨p, false, rfl, .keep hv ((hanc q).1 .refl).2, h⟩
    · exact ⟨_, true, rfl, .raise hv hanc (Ne.symm hqc), h.raise he hu hv hanc⟩

end HGraph

end Art
