import Art.Lib.ParentTree

/-!
# Dominators

Paths and dominators of a directed graph with an entry, and how a tree of parents comes to be the
dominator tree: start from parents that leave out no dominator, and hang the target of an edge
below the common ancestor of its parent and the source, until this changes nothing.

* `Approx.dominates_iff`: if no edge asks for a change, the ancestors are the dominators.
-/

namespace Dominance

open ParentTree Function

variable {α : Type*} {E : α → α → Prop} {r : α} {p : α → Option α} {a b c q u v x y : α}

/-- A path from `r`, with the last node first. -/
inductive Path (E : α → α → Prop) (r : α) : α → List α → Prop
  | start : Path E r r [r]
  | snoc {b c : α} {l : List α} : Path E r b l → E b c → Path E r c (c :: l)

/-- Every path to `b` contains `a`. -/
def Dominates (E : α → α → Prop) (r a b : α) : Prop := ∀ l, Path E r b l → a ∈ l

/-- The dominator that is nearest to `b`. -/
structure ImmediatelyDominates (E : α → α → Prop) (r d b : α) : Prop where
  dominates : Dominates E r d b
  ne : d ≠ b
  nearest : ∀ a, Dominates E r a b → a ≠ b → Dominates E r a d

lemma Dominates.of_edge (h : Dominates E r a v) (he : E u v) (hne : a ≠ v) :
    Dominates E r a u := fun _ hl =>
  (List.mem_cons.1 (h _ (hl.snoc he))).resolve_left hne

/-- A walk on which the nodes after the first do not meet `S`. -/
def Avoids (E : α → α → Prop) (S : α → Prop) : α → α → Prop := Relation.ReflTransGen fun u v => E u v ∧ ¬ S v

lemma Avoids.mono {S T : α → Prop} (hST : ∀ x, T x → S x) (h : Avoids E S a b) : Avoids E T a b :=
  Relation.ReflTransGen.mono (fun _ _ h => ⟨h.1, fun hT => h.2 (hST _ hT)⟩) _ _ h

/-- A node on all paths to the end of a walk is on the walk or on all paths to its start. -/
lemma Dominates.of_avoids (h : Dominates E r a x) (hw : Avoids E (· = a) v x) : Dominates E r a v := by
  intro l hl
  by_contra ha
  obtain ⟨l', hl', ha'⟩ : ∃ l', Path E r x l' ∧ a ∉ l' := by
    clear h
    induction hw with
    | refl => exact ⟨l, hl, ha⟩
    | tail _ hbc ih =>
      obtain ⟨l', hl', ha'⟩ := ih
      exact ⟨_, hl'.snoc hbc.1, fun hmem => (List.mem_cons.1 hmem).elim (fun h => hbc.2 h.symm) ha'⟩
  exact ha' (h l' hl')

/-! ## Trees with all dominators -/

/-- The proper ancestors of a node. -/
def Above (p : α → Option α) (x y : α) : Prop := Anc p x y ∧ y ≠ x

/-- A tree of parents for a part of the nodes, in which a node has all its dominators as ancestors,
    and is reached from its parent without passing nodes further up. -/
structure Approx (E : α → α → Prop) (r : α) (p : α → Option α) : Prop where
  root : p r = none
  rooted : ∀ x q, p x = some q → Rooted p r x
  reached : ∀ x q, p x = some q → Avoids E (Above p q) q x
  anc : ∀ x, Rooted p r x → ∀ a, Dominates E r a x → Anc p x a

lemma Approx.rooted_root (h : Approx E r p) : Rooted p r r := ⟨1, .root h.root⟩

/-- A node is reached from its ancestors without passing nodes further up. -/
lemma Approx.reached_of_anc (h : Approx E r p) (hx : Rooted p r x) (ha : Anc p x v) :
    Avoids E (Above p v) v x := by
  induction ha using Relation.ReflTransGen.head_induction_on with
  | refl => exact .refl
  | @head x y hxy hy ih =>
    have hroot := hx.parent hxy
    refine (ih hroot).trans ((h.reached x y hxy).mono fun z hz => ⟨hy.trans hz.1, ?_⟩)
    rintro rfl
    exact hz.2 (hroot.antisymm hy hz.1)

/-- If no edge asks for a change, all ancestors of a node are on the paths to it. -/
lemma mem_path_of_anc (hr : p r = none) (hedge : ∀ u v q, E u v → p v = some q → Anc p u q)
    {l : List α} (hl : Path E r b l) (ha : Anc p b a) : a ∈ l := by
  induction hl generalizing a with
  | start =>
    rcases anc_cases ha with rfl | ⟨q, hq, -⟩
    · exact List.mem_singleton_self _
    · rw [hr] at hq
      cases hq
  | @snoc b c l _ he ih =>
    rcases anc_cases ha with rfl | ⟨q, hq, ha⟩
    · exact List.mem_cons_self ..
    · exact List.mem_cons_of_mem _ (ih ((hedge b c q he hq).trans ha))

variable (h : Approx E r p) (hedge : ∀ u v q, E u v → p v = some q → Anc p u q)

include h hedge in
lemma Approx.dominates_iff (hb : Rooted p r b) : Dominates E r a b ↔ Anc p b a :=
  ⟨h.anc b hb a, fun ha _ hl => mem_path_of_anc h.root hedge hl ha⟩

include h hedge in
/-- Then parents are immediate dominators. -/
lemma Approx.immediatelyDominates (hb : p b = some q) : ImmediatelyDominates E r q b := by
  have hroot := h.rooted b q hb
  refine ⟨(h.dominates_iff hedge hroot).2 (.single hb), ?_, fun a ha hne => ?_⟩
  · rintro rfl
    exact hroot.not_anc_of_parent hb .refl
  · rcases anc_cases ((h.dominates_iff hedge hroot).1 ha) with rfl | ⟨q', hq', ha⟩
    · exact absurd rfl hne
    · obtain rfl := Option.some.inj (hb.symm.trans hq')
      exact (h.dominates_iff hedge (hroot.parent hb)).2 ha

/-! ## Changes -/

/-- A node without parent is no ancestor of a rooted node. -/
lemma not_anc_of_none (hv : p v = none) (hvr : v ≠ r) (hx : Rooted p r x) : ¬ Anc p x v :=
  fun ha => hvr ((hx.of_anc ha).eq_root_of_none hv)

section

variable [DecidableEq α]

lemma rooted_attach (hv : p v = none) (hvr : v ≠ r) (hx : Rooted p r x) (c : α) :
    Rooted (update p v (some c)) r x := by
  obtain ⟨k, hk⟩ := hx
  refine ⟨k, ?_⟩
  induction hk with
  | root hr => exact .root (by rwa [update_of_ne hvr.symm])
  | @step x y k hxy hd ih =>
    refine .step ?_ ih
    rwa [update_of_ne]
    rintro rfl
    rw [hv] at hxy
    cases hxy

lemma Approx.rooted_of_update (h : Approx E r p) (hxv : x ≠ v) (hx : Rooted (update p v (some c)) r x) :
    Rooted p r x := by
  cases hpx : p x with
  | none =>
    have hnone : update p v (some c) x = none := by rwa [update_of_ne hxv]
    exact hx.eq_root_of_none hnone ▸ h.rooted_root
  | some q => exact h.rooted x q hpx

/-- A node without parent is hung below the source of an edge. -/
lemma Approx.attach (h : Approx E r p) (he : E u v) (hu : Rooted p r u) (hv : p v = none)
    (hvr : v ≠ r) : Approx E r (update p v (some u)) := by
  have hkeep : ∀ x, Rooted p r x → Rooted (update p v (some u)) r x := fun x hx =>
    rooted_attach hv hvr hx u
  have hself : update p v (some u) v = some u := update_self ..
  have hvroot : Rooted (update p v (some u)) r v := by
    obtain ⟨k, hk⟩ := hkeep u hu
    exact ⟨k + 1, .step hself hk⟩
  -- the ways of the nodes that were in the tree are the old ones
  have hanc : ∀ x y, Rooted p r x → (Anc (update p v (some u)) x y ↔ Anc p x y) := by
    intro x y hx
    refine ⟨fun ha => ?_, fun ha => anc_update_of_not_anc (not_anc_of_none hv hvr hx) ha u⟩
    induction ha using Relation.ReflTransGen.head_induction_on with
    | refl => exact .refl
    | @head x z hxz _ ih =>
      have hxv : x ≠ v := by
        rintro rfl
        exact hvr (hx.eq_root_of_none hv)
      rw [update_of_ne hxv] at hxz
      exact (ih (hx.parent hxz)).head hxz
  refine ⟨by rw [update_of_ne hvr.symm, h.root], fun x q hx => ?_, fun x q hx => ?_, fun x hx a ha => ?_⟩
  · by_cases hxv : x = v
    · exact hxv ▸ hvroot
    · rw [update_of_ne hxv] at hx
      exact hkeep x (h.rooted x q hx)
  · by_cases hxv : x = v
    · subst hxv
      obtain rfl := Option.some.inj (hself.symm.trans hx)
      refine .single ⟨he, fun hab => ?_⟩
      exact not_anc_of_none hv hvr hu ((hanc u x hu).1 hab.1)
    · rw [update_of_ne hxv] at hx
      refine (h.reached x q hx).mono fun z hz => ⟨?_, hz.2⟩
      exact (hanc q z ((h.rooted x q hx).parent hx)).1 hz.1
  · by_cases hxv : x = v
    · subst hxv
      by_cases hax : a = x
      · exact hax ▸ .refl
      · exact Anc.head hself ((hanc u a hu).2 (h.anc u hu a (ha.of_edge he hax)))
    · have hx' := h.rooted_of_update hxv hx
      exact (hanc x a hx').2 (h.anc x hx' a ha)

/-- A node is hung below the common ancestor of its parent and the source of an edge. -/
lemma Approx.raise (h : Approx E r p) (he : E u v) (hu : Rooted p r u) (hv : p v = some q)
    (hc : ∀ y, Anc p c y ↔ Anc p q y ∧ Anc p u y) : Approx E r (update p v (some c)) := by
  obtain ⟨hqc, -⟩ := (hc c).1 .refl
  have hvroot := h.rooted v q hv
  have hself : update p v (some c) v = some c := update_self ..
  have hvr : v ≠ r := by
    rintro rfl
    rw [h.root] at hv
    cases hv
  have hkeep : ∀ x, Rooted p r x → Rooted (update p v (some c)) r x := fun x ⟨k, hk⟩ => by
    obtain ⟨k', hk', -⟩ := hk.update hv hqc
    exact ⟨k', hk'⟩
  have hold : ∀ x, Rooted (update p v (some c)) r x → Rooted p r x := fun x hx => by
    by_cases hxv : x = v
    · exact hxv ▸ hvroot
    · exact h.rooted_of_update hxv hx
  have hshrink : ∀ x y, Anc (update p v (some c)) x y → Anc p x y := fun x y ha =>
    anc_of_anc_update hv hqc ha
  refine ⟨by rw [update_of_ne hvr.symm, h.root], fun x q' hx => ?_, fun x q' hx => ?_, fun x hx a ha => ?_⟩
  · by_cases hxv : x = v
    · exact hxv ▸ hkeep v hvroot
    · rw [update_of_ne hxv] at hx
      exact hkeep x (h.rooted x q' hx)
  · by_cases hxv : x = v
    · subst hxv
      obtain rfl := Option.some.inj (hself.symm.trans hx)
      exact (h.reached_of_anc hvroot (hqc.head hv)).mono fun z hz => ⟨hshrink _ _ hz.1, hz.2⟩
    · rw [update_of_ne hxv] at hx
      exact (h.reached x q' hx).mono fun z hz => ⟨hshrink _ _ hz.1, hz.2⟩
  · rcases anc_update_or (c := c) hv (h.anc x (hold x hx) a ha) with hanc | ⟨hxv, hqa⟩
    · exact hanc
    -- a dominator of `x` above `v` dominates `v`, since `x` is reached from `v` without passing it
    have hne : a ≠ v := by
      rintro rfl
      exact hvroot.not_anc_of_parent hv hqa
    have hav : Dominates E r a v := ha.of_avoids
      ((h.reached_of_anc (hold x hx) (hshrink x v hxv)).mono fun z hz => by
        obtain rfl := hz
        exact ⟨hqa.head hv, hne⟩)
    have hca : Anc p c a := (hc a).2 ⟨hqa, h.anc u hu a (hav.of_edge he hne)⟩
    have hcv : ¬ Anc p c v := fun hcv => hvroot.not_anc_of_parent hv (hqc.trans hcv)
    exact hxv.trans (Anc.head hself (anc_update_of_not_anc hcv hca c))

end

end Dominance
