import Art.Lib.Dominance

/-!
# Natural loops

A flow graph is reducible if it has no cycle of forward edges, that is, of edges whose target does not
dominate their source. The loop of a header is then what leads to a back edge without passing the header.

* `Reducible.reaches_of_dominates`: a dominator leads forward to what it dominates;
-/

namespace NaturalLoops

open Dominance Relation

variable {α : Type*} {E : α → α → Prop} {r a b c e h u v x y z : α}

/-- An edge to a dominator. -/
def IsBackEdge (E : α → α → Prop) (r u v : α) : Prop := E u v ∧ Dominates E r v u

/-- An edge that is no back edge. -/
def Forward (E : α → α → Prop) (r u v : α) : Prop := E u v ∧ ¬Dominates E r v u

/-- All nodes can be reached, and the forward edges have no cycle. -/
structure Reducible (E : α → α → Prop) (r : α) : Prop where
  reachable (b : α) : ReflTransGen E r b
  wellFounded : WellFounded (Forward E r)

/-- The node has a back edge. -/
def IsHeader (E : α → α → Prop) (r h : α) : Prop := ∃ e, IsBackEdge E r e h

/-- The node is in the loop of `h`. -/
def InLoop (E : α → α → Prop) (r h b : α) : Prop := b = h ∨ ∃ e, IsBackEdge E r e h ∧ Avoids E (· = h) b e

/-- There is a walk of forward edges. -/
abbrev Reaches (E : α → α → Prop) (r : α) : α → α → Prop := ReflTransGen (Forward E r)

/-! ## Forward edges -/

lemma exists_path (h : ReflTransGen E r b) : ∃ l, Path E r b l := by
  induction h with
  | refl => exact ⟨_, .start⟩
  | tail _ he ih =>
    obtain ⟨l, hl⟩ := ih
    exact ⟨_, hl.snoc he⟩

lemma Path.exists_of_mem {l : List α} (hl : Path E r b l) (ha : a ∈ l) :
    ∃ l', Path E r a l' ∧ l'.length ≤ l.length := by
  induction hl with
  | start =>
    obtain rfl := List.mem_singleton.1 ha
    exact ⟨_, .start, le_rfl⟩
  | snoc hl he ih =>
    rcases List.mem_cons.1 ha with rfl | ha
    · exact ⟨_, hl.snoc he, le_rfl⟩
    · obtain ⟨l', hl', hle⟩ := ih ha
      exact ⟨l', hl', hle.trans (Nat.le_succ _)⟩

/-- The last edge of a shortest path is a forward edge. -/
lemma exists_forward {l : List α} (hl : Path E r b l) (hb : b ≠ r) : ∃ u, Forward E r u b := by
  induction hn : l.length using Nat.strong_induction_on generalizing l with
  | _ n ih =>
    subst hn
    cases hl with
    | start => exact absurd rfl hb
    | snoc hl he =>
      rename_i u l
      by_cases hdom : Dominates E r b u
      · obtain ⟨l', hl', hle⟩ := Path.exists_of_mem hl (hdom l hl)
        exact ih l'.length (Nat.lt_succ_of_le hle) hl' rfl
      · exact ⟨u, he, hdom⟩

namespace Reducible

variable (g : Reducible E r)

include g

lemma reaches (b : α) : Reaches E r r b := by
  induction b using g.wellFounded.induction with
  | _ b ih =>
    by_cases hb : b = r
    · rw [hb]
    · obtain ⟨l, hl⟩ := exists_path (g.reachable b)
      obtain ⟨u, hu⟩ := exists_forward hl hb
      exact (ih u hu).tail hu

lemma not_forward_of_reaches (hab : Reaches E r a b) : ¬Forward E r b a := fun hba =>
  have hcycle := TransGen.tail' hab hba
  g.wellFounded.transGen.asymmetric _ _ hcycle hcycle

lemma reaches_antisymm (hab : Reaches E r a b) (hba : Reaches E r b a) : a = b := by
  rcases ReflTransGen.cases_tail hba with h | ⟨c, hbc, hca⟩
  · exact h
  · exact absurd hca (g.not_forward_of_reaches (hab.trans hbc))

end Reducible

/-- A walk of forward edges as a path: all its nodes lead to the end, and any two of them lead to each
    other in one direction. -/
lemma exists_path_of_reaches (hb : Reaches E r r b) : ∃ l, Path E r b l ∧
    (∀ x ∈ l, Reaches E r x b) ∧ ∀ x ∈ l, ∀ y ∈ l, Reaches E r x y ∨ Reaches E r y x := by
  induction hb with
  | refl =>
    refine ⟨_, .start, fun x hx => ?_, fun x hx y hy => ?_⟩
    · rw [List.mem_singleton.1 hx]
    · rw [List.mem_singleton.1 hx, List.mem_singleton.1 hy]
      exact .inl .refl
  | tail _ he ih =>
    obtain ⟨l, hl, hend, htotal⟩ := ih
    have hend' := fun x hx => (hend x hx).tail he
    refine ⟨_, hl.snoc he.1, fun x hx => ?_, fun x hx y hy => ?_⟩
    · rcases List.mem_cons.1 hx with rfl | hx
      · exact .refl
      · exact hend' x hx
    · rcases List.mem_cons.1 hx with hx | hx <;> rcases List.mem_cons.1 hy with hy | hy
      · rw [hx, hy]
        exact .inl .refl
      · rw [hx]
        exact .inr (hend' y hy)
      · rw [hy]
        exact .inl (hend' x hx)
      · exact htotal x hx y hy

namespace Reducible

variable (g : Reducible E r)

include g

lemma reaches_of_dominates (h : Dominates E r a b) : Reaches E r a b := by
  obtain ⟨l, hl, hend, -⟩ := exists_path_of_reaches (g.reaches b)
  exact hend a (h l hl)

lemma reaches_or_reaches (ha : Dominates E r a c) (hb : Dominates E r b c) :
    Reaches E r a b ∨ Reaches E r b a := by
  obtain ⟨l, hl, -, htotal⟩ := exists_path_of_reaches (g.reaches c)
  exact htotal a (ha l hl) b (hb l hl)

/-- Forward edges do not lead back. -/
lemma avoids_of_reaches (hhx : Reaches E r h x) (hxc : Reaches E r x c) : Avoids E (· = h) x c := by
  induction hxc with
  | refl => exact .refl
  | tail hxb hbc ih =>
    refine ih.tail ⟨hbc.1, ?_⟩
    rintro rfl
    exact g.not_forward_of_reaches (hhx.trans hxb) hbc

end Reducible

/-! ## Loops -/

lemma InLoop.header : InLoop E r h h := .inl rfl

lemma InLoop.dominates (hb : InLoop E r h b) : Dominates E r h b := by
  rcases hb with rfl | ⟨e, he, hbe⟩
  · intro l hl
    cases hl <;> exact List.mem_cons_self
  · exact he.2.of_avoids hbe

/-- A loop is entered at its header only. -/
lemma InLoop.of_edge (hv : InLoop E r h v) (he : E u v) (hne : v ≠ h) : InLoop E r h u := by
  rcases hv with rfl | ⟨e, hback, hve⟩
  · exact absurd rfl hne
  · exact .inr ⟨e, hback, .head ⟨he, hne⟩ hve⟩

variable (g : Reducible E r)
include g

/-- A node of a loop with one successor only does not leave the loop. -/
lemma InLoop.of_single (hh : IsHeader E r h) (hy : InLoop E r h y)
    (hz : ∀ x, E y x → x = z) : InLoop E r h z := by
  rcases hy with rfl | ⟨e, hback, hye⟩
  · obtain ⟨e, hback⟩ := hh
    rcases ReflTransGen.cases_head (g.reaches_of_dominates hback.2) with rfl | ⟨x, hyx, hxe⟩
    · exact .inl (hz _ hback.1).symm
    · obtain rfl := hz x hyx.1
      exact .inr ⟨e, hback, g.avoids_of_reaches (.single hyx) hxe⟩
  · rcases ReflTransGen.cases_head hye with rfl | ⟨x, hyx, hxe⟩
    · exact .inl (hz _ hback.1).symm
    · obtain rfl := hz x hyx.1
      exact .inr ⟨e, hback, hxe⟩

lemma InLoop.antisymm (hab : InLoop E r a b) (hba : InLoop E r b a) : a = b :=
  g.reaches_antisymm (g.reaches_of_dominates hab.dominates) (g.reaches_of_dominates hba.dominates)

/-- If loops meet, one has the header of the other. -/
lemma InLoop.nested (ha : InLoop E r a c) (hb : InLoop E r b c) : InLoop E r a b ∨ InLoop E r b a := by
  have key : ∀ {a b}, InLoop E r a c → InLoop E r b c → Reaches E r a b → InLoop E r a b := by
    intro a b ha hb hab
    have hbc := g.reaches_of_dominates hb.dominates
    rcases ha with rfl | ⟨e, hback, hce⟩
    · exact .inl (g.reaches_antisymm hbc hab)
    · exact .inr ⟨e, hback, (g.avoids_of_reaches hab hbc).trans hce⟩
  exact (g.reaches_or_reaches ha.dominates hb.dominates).imp (key ha hb) (key hb ha)

/-- The loop of a header in a loop is a part of it. -/
lemma InLoop.trans (hb : InLoop E r a b) (hc : InLoop E r b c) : InLoop E r a c := by
  rcases hc with rfl | ⟨e, hback, hce⟩
  · exact hb
  · by_cases hab : b = a
    · rw [← hab]
      exact .inr ⟨e, hback, hce⟩
    -- going back on the walk to the back edge of the inner loop does not meet the outer header
    · induction hce using ReflTransGen.head_induction_on with
      | refl => exact hb.of_edge hback.1 hab
      | head hstep hrest ih =>
        refine ih.of_edge hstep.1 ?_
        rintro rfl
        exact hab (InLoop.antisymm g (.inr ⟨e, hback, hrest⟩) hb)

end NaturalLoops
