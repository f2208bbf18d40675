import Art.Dominators.Tree

/-!
# Dominators are exact

`ComputeDominanceInformation` on a graph in which all blocks can be reached.
-/

namespace Art

open Finset (mem_univ sum_congr univ univ)
open Option (bind_eq_bind bind_some some)

namespace HGraph

open ParentTree Dominance Function List Nat

variable {n : ℕ} {g : HGraph n} {B : Fin n → List (Fin n)}

/-! ## Forward edges -/

section

local instance lawfulBEq_block : LawfulBEq (Fin n) := inferInstance

/-- The number of edges to a block that are no back edges. -/
def forwardEdges (g : HGraph n) (B : Fin n → List (Fin n)) (v : Fin n) : ℕ :=
  ∑ u, if u ∈ B v then 0 else (g.successors u).count v

end

lemma BackEdges.numberOfPredecessors_sub (hB : BackEdges g B) (v : Fin n) :
    g.numberOfPredecessors v - (B v).length = g.forwardEdges B v := by
  have hlen : (B v).length = ∑ u, if u ∈ B v then (g.successors u).count v else 0 := by
    rw [← Multiset.coe_card, ← Multiset.sum_count_eq_card (s := univ) fun a _ => mem_univ a]
    refine sum_congr rfl fun u _ => ?_
    rw [Multiset.coe_count]
    split_ifs with hu
    · exact hB.count u v hu
    · exact count_eq_zero_of_not_mem hu
  rw [hlen, forwardEdges, Nat.sub_eq_iff_eq_add, ← Finset.sum_add_distrib]
  · refine sum_congr rfl fun u _ => ?_
    split_ifs <;> omega
  · refine Finset.sum_le_sum fun u _ => ?_
    split_ifs <;> omega

lemma BackEdges.forwardEdges_pos (hB : BackEdges g B) {v : Fin n} (hv : v ≠ g.entryBlock) :
    0 < g.forwardEdges B v := by
  obtain ⟨u, hu, hb⟩ := hB.parent v hv
  refine Finset.sum_pos' (fun _ _ => zero_le _) ⟨u, mem_univ u, ?_⟩
  rw [if_neg hb]
  exact count_pos_iff.2 hu

/-! ## The order -/

/-- The invariant of the first loop, for the order of the blocks. -/
structure OrderInv (g : HGraph n) (B : Fin n → List (Fin n)) (s : DominanceSearch n) : Prop where
  nodup : s.reversePostOrder.Nodup
  entry : g.entryBlock ∈ s.reversePostOrder
  worklist : ∀ b ∈ s.worklist, b ∈ s.reversePostOrder
  finished : ∀ b ∈ s.reversePostOrder, b ∈ s.worklist ∨ s.successorsVisited b = (g.successors b).length
  bound : ∀ b, s.successorsVisited b ≤ (g.successors b).length
  unvisited : ∀ b, b ∉ s.reversePostOrder → s.successorsVisited b = 0
  visits : ∀ v, s.visits v = ∑ u, (g.seen s.successorsVisited u).count v
  completed : ∀ v ≠ g.entryBlock, (v ∈ s.reversePostOrder ↔ g.forwardEdges B v ≤ s.visits v)
  closed : ∀ v ∈ s.reversePostOrder, ∀ u, g.Edge u v → u ∉ B v → [u, v].Sublist s.reversePostOrder ∧
      (g.seen s.successorsVisited u).count v = (g.successors u).count v

section

variable {s : DominanceSearch n} {u v : Fin n}

lemma OrderInv.mem_of_seen (h : OrderInv g B s) (hv : v ∈ g.seen s.successorsVisited u) :
    u ∈ s.reversePostOrder := by
  by_contra hu
  rw [seen_of_eq_zero (h.unvisited u hu)] at hv
  exact not_mem_nil hv

/-- The header of a back edge from a block of the order is in the order. -/
lemma OrderInv.mem_of_back (h : OrderInv g B s) (hB : BackEdges g B)
    (hu : u ∈ s.reversePostOrder) (hb : u ∈ B v) : v ∈ s.reversePostOrder := by
  have hreach := hB.reach u v hb
  clear hb
  induction hreach using Relation.ReflTransGen.head_induction_on with
  | refl => exact hu
  | @head a b hab _ ih => exact (h.closed b ih a hab.1 hab.2).1.subset (by simp)

lemma OrderInv.exists_seen (h : OrderInv g B s) (hB : BackEdges g B)
    (hv : v ∈ s.reversePostOrder) (hne : v ≠ g.entryBlock) : ∃ u, v ∈ g.seen s.successorsVisited u := by
  have hpos := (hB.forwardEdges_pos hne).trans_le ((h.completed v hne).1 hv)
  rw [h.visits v] at hpos
  obtain ⟨u, -, hu⟩ := Finset.exists_ne_zero_of_sum_ne_zero hpos.ne'
  exact ⟨u, count_pos_iff.1 (pos_of_ne_zero hu)⟩

lemma count_seen_le (k : Fin n → ℕ) (u v : Fin n) : (g.seen k u).count v ≤ (g.successors u).count v :=
  (take_sublist ..).count_le v

/-- A block whose successors have been visited leaves the worklist. -/
lemma OrderInv.pop (h : OrderInv g B s) {current : Fin n} {rest : List (Fin n)}
    (hw : s.worklist = current :: rest)
    (hk : (g.successors current)[s.successorsVisited current]? = none) :
    OrderInv g B { s with worklist := rest } := by
  refine { h with
    worklist := fun b hb => h.worklist b (hw ▸ mem_cons_of_mem _ hb)
    finished := fun b hb => ?_ }
  rcases h.finished b hb with hb' | hb'
  · rw [hw] at hb'
    rcases mem_cons.1 hb' with rfl | hb'
    · exact .inr (le_antisymm (h.bound b) (getElem?_eq_none_iff.1 hk))
    · exact .inl hb'
  · exact .inr hb'

section

variable {current successor : Fin n} {p' : Fin n → Option (Fin n)}

/-- What visiting an edge changes. -/
structure Visited (g : HGraph n) (B : Fin n → List (Fin n)) (current successor : Fin n)
    (s s' : DominanceSearch n) : Prop where
  visits : s'.visits = update s.visits successor (s.visits successor + 1)
  order : (s.visits successor + 1 = g.numberOfPredecessors successor - (B successor).length ∧
      s'.reversePostOrder = s.reversePostOrder ++ [successor] ∧ s'.worklist = successor :: s.worklist) ∨
    (s.visits successor + 1 ≠ g.numberOfPredecessors successor - (B successor).length ∧
      s'.reversePostOrder = s.reversePostOrder ∧ s'.worklist = s.worklist)

lemma visited_visitEdge (s : DominanceSearch n) (current successor : Fin n) (p' : Fin n → Option (Fin n)) :
    Visited g B current successor s (g.visitEdge B s current successor p') := by
  rw [visitEdge]
  dsimp only
  split_ifs with hcond <;> rw [update_self] at hcond
  · exact ⟨rfl, .inl ⟨hcond, rfl, rfl⟩⟩
  · exact ⟨rfl, .inr ⟨hcond, rfl, rfl⟩⟩

variable (p' : Fin n → Option (Fin n))

lemma looked_visitEdge (hk : (g.successors current)[s.successorsVisited current]? = some successor) :
    Looked g s.successorsVisited (g.visitEdge B s current successor p').successorsVisited
      current successor := by
  refine ⟨hk, ?_⟩
  rw [visitEdge]
  split_ifs <;> rfl

lemma dominator_visitEdge : (g.visitEdge B s current successor p').dominator = p' := by
  rw [visitEdge]
  split_ifs <;> rfl

variable {s' : DominanceSearch n} (h : OrderInv g B s)
  (hl : Looked g s.successorsVisited s'.successorsVisited current successor)
  (hv : Visited g B current successor s s')

include h hl hv in
/-- The visits count the edges that have been looked at. -/
lemma OrderInv.visits_looked (v : Fin n) : s'.visits v = ∑ u, (g.seen s'.successorsVisited u).count v := by
  rw [hv.visits]
  by_cases hvs : v = successor
  · subst hvs
    have hrest : ∑ u ∈ univ.erase current, (g.seen s'.successorsVisited u).count v =
        ∑ u ∈ univ.erase current, (g.seen s.successorsVisited u).count v :=
      sum_congr rfl fun u hu => by rw [hl.seen_of_ne (Finset.mem_erase.1 hu).1]
    rw [update_self, h.visits v, ← Finset.add_sum_erase _ _ (mem_univ current),
      ← Finset.add_sum_erase _ _ (mem_univ current), hrest, hl.seen_current,
      count_append, count_singleton_self]
    omega
  · rw [update_of_ne hvs, h.visits v]
    exact sum_congr rfl fun u _ => (hl.count_seen_of_ne fun h => hvs h.2).symm

/-- An edge to a block of the order is a back edge. -/
lemma OrderInv.back_of_mem (h : OrderInv g B s) {k' : Fin n → ℕ}
    (hl : Looked g s.successorsVisited k' current successor)
    (hv : successor ∈ s.reversePostOrder) : current ∈ B successor := by
  by_contra hb
  have hedge : g.Edge current successor := mem_of_getElem? hl.some
  have hall := (h.closed successor hv current hedge hb).2
  have hle := count_seen_le (g := g) k' current successor
  rw [hl.seen_current, count_append, count_singleton_self, hall] at hle
  omega

include h hl hv in
/-- When the last forward edge to a block is visited, all forward edges to it have been. -/
lemma OrderInv.count_seen_of_completed (hB : BackEdges g B) (hcur : current ∈ s.reversePostOrder)
    (hnot : successor ∉ s.reversePostOrder)
    (hall : s.visits successor + 1 = g.forwardEdges B successor) (hb : u ∉ B successor) :
    (g.seen s'.successorsVisited u).count successor = (g.successors u).count successor := by
  have hsum := h.visits_looked hl hv successor
  rw [hv.visits, update_self, hall, forwardEdges] at hsum
  have hle : ∀ u ∈ univ, (g.seen s'.successorsVisited u).count successor ≤
      if u ∈ B successor then 0 else (g.successors u).count successor := fun u _ => by
    split_ifs with hu
    · -- no back edge has been visited before its header
      refine (count_eq_zero_of_not_mem fun hmem => hnot (h.mem_of_back hB ?_ hu)).le
      rcases hl.mem_seen.1 hmem with hmem | ⟨rfl, -⟩
      · exact h.mem_of_seen hmem
      · exact hcur
    · exact count_seen_le _ u successor
  have heq := (Finset.sum_eq_sum_iff_of_le hle).1 hsum.symm u (mem_univ u)
  rwa [if_neg hb] at heq

include h hl hv in
lemma OrderInv.visit (hB : BackEdges g B) {rest : List (Fin n)} (hw : s.worklist = current :: rest) :
    OrderInv g B s' := by
  have hcur : current ∈ s.reversePostOrder := h.worklist current (hw ▸ mem_cons_self ..)
  have hne := hl.ne_entryBlock
  have hvisits : ∀ v ≠ successor, s'.visits v = s.visits v := fun v hvs => by
    rw [hv.visits, update_of_ne hvs]
  have hself : s'.visits successor = s.visits successor + 1 := by rw [hv.visits, update_self]
  have hcount : ∀ u v, (g.seen s.successorsVisited u).count v =
      (g.successors u).count v → (g.seen s'.successorsVisited u).count v =
        (g.successors u).count v := fun u v heq => by
    refine le_antisymm (count_seen_le _ u v) (heq ▸ ?_)
    by_cases hu : u = current
    · rw [hu, hl.seen_current]
      exact (sublist_append_left ..).count_le v
    · rw [hl.seen_of_ne hu]
  have hfinished : ∀ b, s.successorsVisited b = (g.successors b).length →
      s'.successorsVisited b = (g.successors b).length := fun b hb => by
    have hle := hl.bound h.bound b
    by_cases hbc : b = current
    · rw [hbc] at hb hle
      rw [hl.visits_current] at hle
      omega
    · rw [hl.visits_of_ne hbc, hb]
  have hunvisited : ∀ b, b ∉ s.reversePostOrder → s'.successorsVisited b = 0 := fun b hb => by
    have hbc : b ≠ current := by
      rintro rfl
      exact hb hcur
    rw [hl.visits_of_ne hbc]
    exact h.unvisited b hb
  have hvisited := h.visits_looked hl hv
  have horder := hv.order
  rw [hB.numberOfPredecessors_sub] at horder
  -- the successor is ordered if this was the last edge to it that is no back edge
  rcases horder with ⟨hcond, hrpo, hwork⟩ | ⟨hcond, hrpo, hwork⟩
  · have hnot : successor ∉ s.reversePostOrder := fun hmem => by
      have := (h.completed successor hne).1 hmem
      omega
    have hsub := hrpo ▸ sublist_append_left ..
    have hmem : ∀ b, b ∈ s'.reversePostOrder ↔ b ∈ s.reversePostOrder ∨ b = successor := fun b => by
      rw [hrpo, mem_append, mem_singleton]
    refine ⟨?_, hsub.subset h.entry, fun b hb => ?_, fun b hb => ?_, hl.bound h.bound,
      fun b hb => hunvisited b fun hb' => hb (hsub.subset hb'), hvisited, fun v hve => ?_,
      fun v hv' u he hb => ?_⟩
    · rw [hrpo]
      exact nodup_append.2 ⟨h.nodup, nodup_singleton _, fun a ha b hb => by
        rw [mem_singleton.1 hb]
        rintro rfl
        exact hnot ha⟩
    · rw [hwork] at hb
      rcases mem_cons.1 hb with rfl | hb
      · exact (hmem b).2 (.inr rfl)
      · exact hsub.subset (h.worklist b hb)
    · rw [hwork]
      rcases (hmem b).1 hb with hb | rfl
      · rcases h.finished b hb with hb' | hb'
        · exact .inl (mem_cons_of_mem _ hb')
        · exact .inr (hfinished b hb')
      · exact .inl (mem_cons_self ..)
    · rw [hmem]
      by_cases hvs : v = successor
      · subst hvs
        rw [hself]
        exact ⟨fun _ => hcond.ge, fun _ => .inr rfl⟩
      · rw [hvisits v hvs, ← h.completed v hve]
        exact ⟨fun h => h.resolve_right hvs, .inl⟩
    · rcases (hmem v).1 hv' with hv' | rfl
      · obtain ⟨hsub', heq⟩ := h.closed v hv' u he hb
        exact ⟨hsub'.trans hsub, hcount u v heq⟩
      · have heq := h.count_seen_of_completed hl hv hB hcur hnot hcond hb
        have hseen : v ∈ g.seen s'.successorsVisited u := count_pos_iff.1 (heq ▸ count_pos_iff.2 he)
        have hu : u ∈ s.reversePostOrder := by
          rcases hl.mem_seen.1 hseen with hmem' | ⟨rfl, -⟩
          · exact h.mem_of_seen hmem'
          · exact hcur
        refine ⟨?_, heq⟩
        rw [hrpo]
        exact (singleton_sublist.2 hu).append (List.Sublist.refl [v])
  · refine ⟨hrpo ▸ h.nodup, hrpo ▸ h.entry, fun b hb => ?_, fun b hb => ?_, hl.bound h.bound,
      fun b hb => hunvisited b (hrpo ▸ hb), hvisited, fun v hve => ?_, fun v hv' u he hb => ?_⟩
    · rw [hwork] at hb
      exact hrpo ▸ h.worklist b hb
    · rw [hrpo] at hb
      rw [hwork]
      exact (h.finished b hb).imp_right (hfinished b)
    · rw [hrpo, h.completed v hve]
      by_cases hvs : v = successor
      · subst hvs
        rw [hself]
        omega
      · rw [hvisits v hvs]
    · rw [hrpo] at hv' ⊢
      obtain ⟨hsub', heq⟩ := h.closed v hv' u he hb
      exact ⟨hsub', hcount u v heq⟩

end

end

/-! ## The tree -/

/-- No edge that has been looked at asks for a change. -/
def Consistent (g : HGraph n) (k : Fin n → ℕ) (p : Fin n → Option (Fin n)) : Prop :=
  ∀ u v q, v ∈ g.seen k u → p v = some q → Anc p u q

/-- The invariant of the first loop, for the dominators. -/
structure TreeInv (g : HGraph n) (B : Fin n → List (Fin n)) (order : List (Fin n)) (k : Fin n → ℕ)
    (p : Fin n → Option (Fin n)) : Prop where
  approx : Approx g.Edge g.entryBlock p
  parents : ∀ v q, p v = some q → q ∈ order
  assigned : ∀ u v, v ∈ g.seen k u → ∃ q, p v = some q
  consistent : Consistent g k p ∨ ∃ u v, u ∈ B v ∧ v ∈ g.seen k u ∧ ¬ Anc p u v

section

variable {order : List (Fin n)} {k k' : Fin n → ℕ} {p p' : Fin n → Option (Fin n)}
  {current successor u v x y : Fin n} {updated : Bool}

lemma TreeInv.mem_of_anc (h : TreeInv g B order k p) (hx : x ∈ order) (ha : Anc p x y) : y ∈ order := by
  induction ha with
  | refl => exact hx
  | tail _ hbc _ => exact h.parents _ _ hbc

/-- An update changes no ancestors but takes away some. -/
lemma Updated.anc_of_anc (h : Updated p current successor p' updated)
    (hne : successor ≠ g.entryBlock) (hu : Rooted p g.entryBlock u) (ha : Anc p' u y) : Anc p u y := by
  cases h with
  | attach hv =>
    induction ha using Relation.ReflTransGen.head_induction_on with
    | refl => exact .refl
    | @head a b hab _ ih =>
      have hav : a ≠ successor := by
        rintro rfl
        exact hne (hu.eq_root_of_none hv)
      rw [update_of_ne hav] at hab
      exact (ih (hu.parent hab)).head hab
  | raise hv hc _ => exact anc_of_anc_update hv ((hc _).1 .refl).1 ha
  | keep => exact ha

/-- A block that is not below the successor keeps its ancestors. -/
lemma Updated.anc_of_not_anc (h : Updated p current successor p' updated)
    (hu : ¬ Anc p u successor) (ha : Anc p u y) : Anc p' u y := by
  cases h with
  | attach | raise => exact anc_update_of_not_anc hu ha _
  | keep => exact ha

/-- The dominators after an edge from `current` has been visited. -/
lemma TreeInv.update (h : TreeInv g B order k p)
    (hl : Looked g k k' current successor) (hup : Updated p current successor p' updated)
    (happ : Approx g.Edge g.entryBlock p') (hcur : current ∈ order)
    (hseen : ∀ u v, v ∈ g.seen k u → u ∈ order)
    (hroot : ∀ x ∈ order, Rooted p g.entryBlock x)
    (hback : successor ∈ order → current ∈ B successor) : TreeInv g B order k' p' := by
  have hne := hl.ne_entryBlock
  have hother : ∀ v ≠ successor, p' v = p v := fun v hv => by
    cases hup with
    | attach | raise => exact update_of_ne hv ..
    | keep => rfl
  have hseen' : ∀ u v, v ∈ g.seen k' u → u ∈ order := fun u v hv => by
    rcases hl.mem_seen.1 hv with hv | ⟨rfl, -⟩
    · exact hseen u v hv
    · exact hcur
  -- the new parent, for a successor that has been hung or hangs already
  obtain ⟨c, hc, hcurc, hcorder⟩ : ∃ c, p' successor = some c ∧ Anc p current c ∧ c ∈ order := by
    cases hup with
    | attach => exact ⟨current, update_self .., .refl, hcur⟩
    | @raise q c hv hc _ =>
      obtain ⟨hqc, hcc⟩ := (hc c).1 .refl
      exact ⟨c, update_self .., hcc, h.mem_of_anc hcur hcc⟩
    | keep hv ha => exact ⟨_, hv, ha, h.parents _ _ hv⟩
  refine ⟨happ, fun v q hv => ?_, fun u v hv => ?_, ?_⟩
  · by_cases hvs : v = successor
    · rw [hvs, hc] at hv
      cases hv
      exact hcorder
    · exact h.parents v q (hother v hvs ▸ hv)
  · by_cases hvs : v = successor
    · exact ⟨c, hvs ▸ hc⟩
    · rw [hother v hvs]
      exact h.assigned u v ((hl.mem_seen.1 hv).resolve_right fun h => hvs h.2)
  rcases h.consistent with hcons | ⟨u, v, hb, hv, hanc⟩
  · by_cases hin : successor ∈ order
    · by_cases hanc : Anc p current successor
      · -- the header of a back edge is above its source: nothing changes
        refine .inl fun u v q hv hq => ?_
        cases hup with
        | attach hnone => exact absurd ((hroot _ hin).eq_root_of_none hnone) hne
        | raise hs hanc' hcq =>
          have hqroot := (hroot _ hin).parent hs
          exact absurd (hqroot.antisymm ((hanc' _).1 .refl).1 ((hanc' _).2 ⟨.refl, hanc.tail hs⟩)).symm hcq
        | keep hs ha =>
          rcases hl.mem_seen.1 hv with hv | ⟨rfl, rfl⟩
          · exact hcons u v q hv hq
          · obtain rfl := some.inj (hs.symm.trans hq)
            exact ha
      · exact .inr ⟨current, successor, hback hin, hl.mem_seen.2 (.inr ⟨rfl, rfl⟩), fun ha =>
          hanc (hup.anc_of_anc hne (hroot _ hcur) ha)⟩
    · -- the successor is nobody's ancestor yet
      refine .inl fun u v q hv hq => ?_
      have hu := hseen' u v hv
      refine hup.anc_of_not_anc (fun ha => hin (h.mem_of_anc hu ha)) ?_
      by_cases hvs : v = successor
      · subst hvs
        obtain rfl := some.inj (hc.symm.trans hq)
        rcases hl.mem_seen.1 hv with hv | ⟨rfl, -⟩
        · obtain ⟨q, hq'⟩ := h.assigned u v hv
          refine (hcons u v q hv hq').trans ?_
          cases hup with
          | attach hnone =>
            rw [hnone] at hq'
            cases hq'
          | raise hs hanc' _ =>
            rw [update_self] at hc
            cases hc
            obtain rfl := some.inj (hs.symm.trans hq')
            exact ((hanc' _).1 .refl).1
          | keep =>
            obtain rfl := some.inj (hc.symm.trans hq')
            exact .refl
        · exact hcurc
      · rw [hother v hvs] at hq
        exact hcons u v q ((hl.mem_seen.1 hv).resolve_right fun h => hvs h.2) hq
  · exact .inr ⟨u, v, hb, hl.mem_seen.2 (.inl hv), fun ha =>
      hanc (hup.anc_of_anc hne (hroot u (hseen u v hv)) ha)⟩

end

/-! ## The first loop -/

/-- The invariant of the first loop. -/
structure PassInv (g : HGraph n) (B : Fin n → List (Fin n)) (s : DominanceSearch n) : Prop where
  order : OrderInv g B s
  tree : TreeInv g B s.reversePostOrder s.successorsVisited s.dominator

section

variable {s : DominanceSearch n}

lemma PassInv.rooted (h : PassInv g B s) (hB : BackEdges g B) {x : Fin n}
    (hx : x ∈ s.reversePostOrder) : Rooted s.dominator g.entryBlock x := by
  by_cases hne : x = g.entryBlock
  · exact hne ▸ h.tree.approx.rooted_root
  · obtain ⟨u, hu⟩ := h.order.exists_seen hB hx hne
    obtain ⟨q, hq⟩ := h.tree.assigned u x hu
    exact h.tree.approx.rooted x q hq

/-- A round of the first loop. -/
lemma PassInv.step (h : PassInv g B s) (hB : BackEdges g B) (hw : s.worklist.isEmpty = false) :
    ∃ s', g.dominanceStep B s = some s' ∧ PassInv g B s' ∧
      2 * g.remaining s'.successorsVisited + s'.worklist.length <
        2 * g.remaining s.successorsVisited + s.worklist.length := by
  rw [dominanceStep]
  cases hwork : s.worklist with
  | nil =>
    rw [hwork] at hw
    cases hw
  | cons current rest =>
    dsimp only
    have hcur := h.order.worklist current (hwork ▸ mem_cons_self ..)
    cases hk : (g.successors current)[s.successorsVisited current]? with
    | none => exact ⟨_, rfl, ⟨h.order.pop hwork hk, h.tree⟩, Nat.add_lt_add_left (Nat.lt_succ_self _) _⟩
    | some successor =>
      have hedge : g.Edge current successor := mem_of_getElem? hk
      have hne : successor ≠ g.entryBlock := by
        rintro rfl
        exact g.entryBlock_notMem current hedge
      obtain ⟨p', updated, hup, hupd, happ⟩ :=
        updateDominatorOfSuccessor_spec h.tree.approx hedge (h.rooted hB hcur) hne
      have hl := looked_visitEdge (B := B) p' hk
      have hv := visited_visitEdge (g := g) (B := B) s current successor p'
      have htree := h.tree.update hl hupd happ hcur (fun u v => h.order.mem_of_seen)
        (fun x => h.rooted hB) (h.order.back_of_mem hl)
      have hrem := hl.remaining
      simp only [hup, bind_eq_bind, bind_some]
      refine ⟨_, rfl, ⟨h.order.visit hl hv hB hwork, ?_⟩, ?_⟩
      · rw [dominator_visitEdge]
        refine { htree with parents := fun v q hq => ?_ }
        rcases hv.order with ⟨-, hrpo, -⟩ | ⟨-, hrpo, -⟩ <;> rw [hrpo]
        · exact mem_append_left _ (htree.parents v q hq)
        · exact htree.parents v q hq
      · rcases hv.order with ⟨-, -, hwork'⟩ | ⟨-, -, hwork'⟩ <;>
          rw [hwork', hwork] <;> simp only [length_cons] <;> omega

lemma passInv_start (hB : BackEdges g B) : PassInv g B g.dominanceStart := by
  have hzero : ∀ u, g.seen (fun _ => 0) u = [] := fun u => seen_of_eq_zero rfl
  have hnone : ∀ u v, v ∉ g.seen (fun _ => 0) u := fun u v hv => by exact not_mem_nil hv
  have hno : ∀ x q, g.dominanceStart.dominator x ≠ some q := fun _ _ h => by cases h
  refine ⟨⟨nodup_singleton _, mem_singleton_self _, fun _ hb => hb, fun _ hb => .inl hb,
    fun _ => Nat.zero_le _, fun _ _ => rfl, fun v => ?_, fun v hv => ?_, fun v hv u he => ?_⟩,
    ⟨rfl, fun x q h => absurd h (hno x q), fun x q h => absurd h (hno x q), fun x hx a ha => ?_⟩,
      fun x q h => absurd h (hno x q), fun u v hv => absurd hv (hnone u v),
      .inl fun u v _ hv => absurd hv (hnone u v)⟩
  · refine (Finset.sum_eq_zero fun u _ => ?_).symm
    show (g.seen (fun _ => 0) u).count v = 0
    rw [hzero, count_nil]
  · have hpos := hB.forwardEdges_pos hv
    refine ⟨fun hmem => absurd (mem_singleton.1 hmem) hv, fun hle => ?_⟩
    exact absurd (Nat.le_zero.1 hle) hpos.ne'
  · rw [mem_singleton.1 hv] at he
    exact absurd he (g.entryBlock_notMem u)
  · -- only the entry block is in the tree, and it has no dominator but itself
    obtain rfl := hx.eq_root_of_none rfl
    rw [mem_singleton.1 (ha _ .start)]
    exact .refl

/-- At the end of the first loop all blocks are in the order. -/
lemma PassInv.mem (h : PassInv g B s) (hB : BackEdges g B) (hw : s.worklist = []) (v : Fin n) :
    v ∈ s.reversePostOrder := by
  obtain ⟨ρ, hρ⟩ := hB.rank
  induction hm : ρ v using Nat.strong_induction_on generalizing v with
  | _ m ih =>
    by_cases hne : v = g.entryBlock
    · exact hne ▸ h.order.entry
    rw [h.order.completed v hne, h.order.visits v]
    refine Finset.sum_le_sum fun u _ => ?_
    split_ifs with hb
    · exact Nat.zero_le _
    · by_cases he : g.Edge u v
      · -- the sources of forward edges have a lower rank
        have hu := ih (ρ u) (hm ▸ hρ u v he hb) u rfl
        have hlen := (h.order.finished u hu).resolve_left fun hmem => by
          rw [hw] at hmem
          exact not_mem_nil hmem
        rw [seen_of_eq_length hlen]
      · rw [count_eq_zero_of_not_mem he]
        exact Nat.zero_le _

end

/-! ## The fix point -/

section

variable {p p' : Fin n → Option (Fin n)} {u v : Fin n} {updated : Bool}

/-- All blocks but the entry block have a dominator. -/
def Total (g : HGraph n) (p : Fin n → Option (Fin n)) : Prop := ∀ v ≠ g.entryBlock, ∃ q, p v = some q

lemma Total.rooted (h : Total g p) (happ : Approx g.Edge g.entryBlock p) (x : Fin n) :
    Rooted p g.entryBlock x := by
  by_cases hne : x = g.entryBlock
  · exact hne ▸ happ.rooted_root
  · obtain ⟨q, hq⟩ := h x hne
    exact happ.rooted x q hq

lemma Updated.total (h : Updated p u v p' updated) (htotal : Total g p) : Total g p' := by
  intro x hx
  obtain ⟨q, hq⟩ := htotal x hx
  have hupd : ∀ c, ∃ q, update p v (some c) x = some q := fun c => by
    by_cases hxv : x = v
    · exact ⟨c, hxv ▸ update_self ..⟩
    · exact ⟨q, by rwa [update_of_ne hxv]⟩
  cases h with
  | attach => exact hupd _
  | raise => exact hupd _
  | keep => exact ⟨q, hq⟩

open Classical in
/-- The number of ancestors of all blocks. -/
noncomputable def size (p : Fin n → Option (Fin n)) : ℕ :=
  (univ.filter fun x : Fin n × Fin n => Anc p x.1 x.2).card

lemma size_le (p : Fin n → Option (Fin n)) : size p ≤ n * n := by
  classical
  refine (Finset.card_filter_le ..).trans_eq ?_
  rw [Finset.card_univ, Fintype.card_prod, Fintype.card_fin]

/-- An update that changes something takes away an ancestor. -/
lemma Updated.size_lt (h : Updated p u v p' true) (htotal : Total g p) (hne : v ≠ g.entryBlock)
    (happ : Approx g.Edge g.entryBlock p) : size p' < size p := by
  classical
  have hroot := htotal.rooted happ v
  have hsub : ∀ x y, Anc p' x y → Anc p x y := fun x y ha =>
    h.anc_of_anc hne (htotal.rooted happ x) ha
  cases h with
  | attach hv =>
    obtain ⟨q, hq⟩ := htotal v hne
    rw [hv] at hq
    cases hq
  | @raise q c hv hc hcq =>
    refine Finset.card_lt_card ⟨fun x hx => ?_, fun hsup => ?_⟩
    · rw [Finset.mem_filter] at hx ⊢
      exact ⟨hx.1, hsub _ _ hx.2⟩
    · -- the old dominator is lost
      have hvq : Anc (update p v (some c)) v q := (Finset.mem_filter.1
        (hsup (Finset.mem_filter.2 ⟨mem_univ (v, q), .single hv⟩))).2
      rcases anc_cases hvq with rfl | ⟨c', hc', ha⟩
      · exact hroot.not_anc_of_parent hv .refl
      · rw [update_self] at hc'
        obtain rfl := some.inj hc'
        exact hcq ((hroot.parent hv).antisymm ((hc c).1 .refl).1 (hsub c q ha)).symm

/-- Updates for a list of edges. -/
lemma foldlM_update_spec (happ : Approx g.Edge g.entryBlock p) (htotal : Total g p)
    (L : List (Fin n × Fin n)) (hL : ∀ e ∈ L, g.Edge e.1 e.2) (b : Bool) :
    ∃ p' b', L.foldlM (fun (dominator, updateOccurred) (block, successor) => do
        let (dominator, updated) ← updateDominatorOfSuccessor dominator block successor
        return (dominator, updateOccurred || updated)) (p, b) = some (p', b') ∧
      Approx g.Edge g.entryBlock p' ∧ Total g p' ∧ size p' ≤ size p ∧
      (b' = true → b = true ∨ size p' < size p) ∧
      (b' = false → b = false ∧ p' = p ∧ ∀ e ∈ L, ∀ q, p e.2 = some q → Anc p e.1 q) := by
  induction L generalizing p b with
  | nil => exact ⟨p, b, rfl, happ, htotal, le_rfl, .inl, fun hb => ⟨hb, rfl, by simp⟩⟩
  | cons e L ih =>
    obtain ⟨u, v⟩ := e
    have he : g.Edge u v := hL _ (mem_cons_self ..)
    have hne : v ≠ g.entryBlock := by
      rintro rfl
      exact g.entryBlock_notMem u he
    obtain ⟨p1, updated, hup, hupd, happ1⟩ :=
      updateDominatorOfSuccessor_spec happ he (htotal.rooted happ u) hne
    obtain ⟨p', b', hfold, happ', htotal', hsize, htrue, hfalse⟩ :=
      ih happ1 (hupd.total htotal) (fun e he => hL e (mem_cons_of_mem _ he)) _
    refine ⟨p', b', ?_, happ', htotal', ?_, fun hb => ?_, fun hb => ?_⟩
    · rw [foldlM_cons]
      simp only [hup, bind_eq_bind, bind_some]
      exact hfold
    · cases updated with
      | true => exact hsize.trans (hupd.size_lt htotal hne happ).le
      | false =>
        cases hupd
        exact hsize
    · cases updated with
      | true => exact .inr (hsize.trans_lt (hupd.size_lt htotal hne happ))
      | false =>
        cases hupd
        rw [Bool.or_false] at htrue
        exact htrue hb
    · obtain ⟨hbu, rfl, hall⟩ := hfalse hb
      rw [Bool.or_eq_false_iff] at hbu
      obtain ⟨rfl, rfl⟩ := hbu
      cases hupd with
      | @keep q hv ha =>
        refine ⟨rfl, rfl, fun e he => ?_⟩
        rcases mem_cons.1 he with rfl | he
        · intro q' hq'
          obtain rfl := some.inj (hv.symm.trans hq')
          exact ha
        · exact hall e he

/-- `HasBackEdgeNotDominatedByHeader` and `must_run_fix_point`. -/
lemma hasBackEdgeNotDominatedByHeader_spec (hroot : ∀ x, Rooted p g.entryBlock x) (header : Fin n)
    (L : List (Fin n)) : ∃ b, hasBackEdgeNotDominatedByHeader p header L = some b ∧
      (b = false → ∀ u ∈ L, Anc p u header) := by
  induction L with
  | nil => exact ⟨false, rfl, fun _ _ hu => absurd hu not_mem_nil⟩
  | cons u L ih =>
    obtain ⟨b, hb, hall⟩ := ih
    obtain ⟨res, hres, hiff⟩ := dominates_of_rooted (hroot u) header
    rw [hasBackEdgeNotDominatedByHeader]
    simp only [hres, bind_eq_bind, bind_some]
    split_ifs with hdom
    · refine ⟨b, hb, fun hb' u' hu' => ?_⟩
      rcases mem_cons.1 hu' with rfl | hu'
      · exact hiff.1 hdom
      · exact hall hb' u' hu'
    · exact ⟨true, rfl, Bool.noConfusion⟩

lemma mustRunFixPoint_spec (hroot : ∀ x, Rooted p g.entryBlock x) (L : List (Fin n)) :
    ∃ b, mustRunFixPoint B p L = some b ∧ (b = false → ∀ v ∈ L, ∀ u ∈ B v, Anc p u v) := by
  induction L with
  | nil => exact ⟨false, rfl, fun _ _ hv => absurd hv not_mem_nil⟩
  | cons v L ih =>
    obtain ⟨b, hb, hall⟩ := ih
    obtain ⟨b', hb', hall'⟩ := hasBackEdgeNotDominatedByHeader_spec hroot v (B v)
    rw [mustRunFixPoint]
    simp only [hb', bind_eq_bind, bind_some]
    split_ifs with hrun
    · exact ⟨true, rfl, Bool.noConfusion⟩
    · refine ⟨b, hb, fun hbf v' hv' => ?_⟩
      rcases mem_cons.1 hv' with rfl | hv'
      · exact hall' (by simpa using hrun)
      · exact hall hbf v' hv'

/-- The fix point ends with dominators that no edge asks to change. -/
lemma fixPoint_spec (happ : Approx g.Edge g.entryBlock p) (htotal : Total g p)
    {order : List (Fin n)} (horder : ∀ b, b ∈ order) :
    ∃ p', (Loop.whileM (·.2) (fun p => g.fixPointRound order p.1) (n * n + 1) (p, true)).map (·.1) =
        some p' ∧ Approx g.Edge g.entryBlock p' ∧ Total g p' ∧
      ∀ u v q, g.Edge u v → p' v = some q → Anc p' u q := by
  obtain ⟨⟨p', b⟩, hloop, ⟨happ', htotal', hcons⟩, hb⟩ := Loop.whileM_rule
    (·.2) (fun p => g.fixPointRound order p.1)
    (P := fun x : (Fin n → Option (Fin n)) × Bool => Approx g.Edge _ x.1 ∧
      Total g x.1 ∧ (x.2 = false → ∀ u v q, g.Edge u v → x.1 v = some q → Anc x.1 u q))
    (fun x => if x.2 then size x.1 + 1 else 0)
    (fun ⟨p, b⟩ ⟨happ, htotal, _⟩ hb => by
      obtain ⟨p', b', hfold, happ', htotal', -, htrue, hfalse⟩ := foldlM_update_spec happ htotal
        (order.flatMap fun block => (g.successors block).map (block, ·)) (fun e he => by
          obtain ⟨block, -, he⟩ := mem_flatMap.1 he
          obtain ⟨successor, hs, rfl⟩ := mem_map.1 he
          exact hs) false
      refine ⟨(p', b'), hfold, ⟨happ', htotal', fun hb' u v q he hq => ?_⟩, ?_⟩
      · obtain ⟨-, rfl, hall⟩ := hfalse hb'
        exact hall (u, v) (mem_flatMap.2 ⟨u, horder u, mem_map.2 ⟨v, he, rfl⟩⟩) q hq
      · split_ifs with hb'
        · exact succ_lt_succ ((htrue hb').resolve_left Bool.false_ne_true)
        · exact succ_pos _)
    ⟨happ, htotal, Bool.noConfusion⟩
    (show (if (p, true).2 then size (p, true).1 + 1 else 0) ≤ n * n + 1 from
      succ_le_succ (size_le p))
  exact ⟨p', by rw [hloop]; rfl, happ', htotal', hcons hb⟩

end

/-! ## The result -/

/-- For every graph in which all blocks can be reached, `ComputeDominanceInformation` returns; the
    order lists every block once, after the sources of the forward edges to it, the dominators are
    immediate dominators, and `Dominates` says whether a block is on all paths. -/
theorem computeDominanceInformation_exact (hreach : ∀ b, g.Reachable b) :
    ∃ backEdges info, g.findBackEdges = some backEdges ∧ g.computeDominanceInformation backEdges = some info ∧
      info.reversePostOrder.Nodup ∧ (∀ b, b ∈ info.reversePostOrder) ∧
      (∀ u v, g.Edge u v → u ∉ backEdges v → [u, v].Sublist info.reversePostOrder) ∧
      (∀ b ≠ g.entryBlock, ∃ d, info.dominator b = some d ∧ ImmediatelyDominates g.Edge g.entryBlock d b) ∧
      ∀ a b, ∃ res, dominates info.dominator a n b = some res ∧
        (res = true ↔ ∀ path, Path g.Edge g.entryBlock b path → a ∈ path) := by
  obtain ⟨B, hfind, hB⟩ := findBackEdges_spec hreach
  obtain ⟨s, hs, hpass, hw⟩ := Loop.whileM_rule (!·.worklist.isEmpty) _
    (P := PassInv g B) (fun s => 2 * g.remaining _ + s.worklist.length)
    (fun s h hw => h.step hB (Bool.not_eq_true' _ ▸ hw)) (passInv_start hB)
    (show 2 * g.remaining (fun _ => 0) + 1 ≤ 2 * g.numberOfEdges + 1 from le_rfl)
  rw [Bool.not_eq_false', List.isEmpty_iff] at hw
  have hmem := hpass.mem hB hw
  have htotal : Total g s.dominator := fun v hv => by
    obtain ⟨u, hu⟩ := hpass.order.exists_seen hB (hmem v) hv
    exact hpass.tree.assigned u v hu
  have happ := hpass.tree.approx
  obtain ⟨run, hrun, hall⟩ := mustRunFixPoint_spec (B := B) (htotal.rooted happ) _
  -- the dominators after the fix point, if it is run
  obtain ⟨p', hp', happ', htotal', hcons⟩ : ∃ p', (if run then
      (Loop.whileM (·.2) (fun p => g.fixPointRound _ p.1) (n * n + 1)
        (s.dominator, true)).map (·.1) else some s.dominator) = some p' ∧
      Approx g.Edge _ p' ∧ Total g p' ∧ ∀ u v q, g.Edge u v → p' v = some q → Anc p' u q := by
    cases run with
    | true => exact fixPoint_spec happ htotal hmem
    | false =>
      refine ⟨s.dominator, rfl, happ, htotal, fun u v q he hq => ?_⟩
      have hseen : ∀ u v, g.Edge u v → v ∈ g.seen s.successorsVisited u := fun u v he => by
        rw [seen_of_eq_length ((hpass.order.finished u (hmem u)).resolve_left (by simp [hw]))]
        exact he
      rcases hpass.tree.consistent with hcons | ⟨u, v, hb, -, hanc⟩
      · exact hcons u v q (hseen u v he) hq
      · exact absurd (hall rfl v (mem_finRange v) u hb) hanc
  refine ⟨B, ⟨_, p'⟩, hfind, ?_, hpass.order.nodup, hmem,
    fun u v he hb => (hpass.order.closed v (hmem v) u he hb).1, fun b hb => ?_, fun a b => ?_⟩
  · rw [computeDominanceInformation, hs]
    simp only [bind_eq_bind, bind_some, hrun]
    cases run with
    | true =>
      rw [if_pos rfl] at hp' ⊢
      rw [hp']
      rfl
    | false =>
      obtain rfl := some.inj hp'
      rfl
  · obtain ⟨d, hd⟩ := htotal' b hb
    exact ⟨d, hd, happ'.immediatelyDominates hcons hd⟩
  · obtain ⟨res, hres, hiff⟩ := dominates_of_rooted (htotal'.rooted happ' b) a
    exact ⟨res, hres, hiff.trans (happ'.dominates_iff hcons (htotal'.rooted happ' b)).symm⟩

/-- A loop with two entries, and a block after it. -/
def irreducible : HGraph 4 where
  entryBlock := 0
  successors
    | 0 => [1, 2]
    | 1 => [2, 3]
    | 2 => [1]
    | 3 => []
  entryBlock_notMem := by decide

theorem computeDominanceInformation_exact_irreducible :
    (∀ b, irreducible.Reachable b) ∧ ∃ backEdges info, irreducible.findBackEdges = some backEdges ∧
      irreducible.computeDominanceInformation backEdges = some info ∧
      ∀ b ≠ irreducible.entryBlock, ∃ d, info.dominator b = some d ∧
        ImmediatelyDominates irreducible.Edge irreducible.entryBlock d b := by
  have hedge : ∀ u v, v ∈ irreducible.successors u → irreducible.Edge u v := fun _ _ h => h
  have h1 : irreducible.Reachable 1 := .single (hedge 0 1 (by decide))
  have hreach : ∀ b, irreducible.Reachable b := by
    intro b
    match b with
    | 0 => exact .refl
    | 1 => exact h1
    | 2 => exact .single (hedge 0 2 (by decide))
    | 3 => exact h1.tail (hedge 1 3 (by decide))
  obtain ⟨B, info, hB, hinfo, -, -, -, hdom, -⟩ := computeDominanceInformation_exact hreach
  exact ⟨hreach, B, info, hB, hinfo, hdom⟩

end HGraph

end Art
