import Art.Dominators.Graph

/-!
# What the search for back edges finds
-/

namespace Art

namespace HGraph

open List
open Function (update update_of_ne update_self)

variable {n : ℕ} {g : HGraph n}

/-- What is known of the back edges of a graph. -/
structure BackEdges (g : HGraph n) (backEdges : Fin n → List (Fin n)) : Prop where
  /-- The edges that are no back edges go from lower to higher ranks. -/
  rank : ∃ ρ : Fin n → ℕ, ∀ u v, g.Edge u v → u ∉ backEdges v → ρ u < ρ v
  reach : ∀ u v, u ∈ backEdges v → Relation.ReflTransGen (fun a b => g.Edge a b ∧ a ∉ backEdges b) v u
  count : ∀ u v, u ∈ backEdges v → (backEdges v).count u = (g.successors u).count v
  parent : ∀ v ≠ g.entryBlock, ∃ u, g.Edge u v ∧ u ∉ backEdges v

/-! ## Looking at edges -/

/-- The successors of a block that have been looked at, for the numbers of them. -/
def seen (g : HGraph n) (k : Fin n → ℕ) (u : Fin n) : List (Fin n) := (g.successors u).take (k u)

/-- The number of edges that have not been looked at. -/
def remaining (g : HGraph n) (k : Fin n → ℕ) : ℕ := ∑ u, ((g.successors u).length - k u)

/-- The next successor of a block is looked at. -/
structure Looked (g : HGraph n) (k k' : Fin n → ℕ) (current successor : Fin n) : Prop where
  some : (g.successors current)[k current]? = some successor
  visits : k' = update k current (k current + 1)

section

variable {k k' : Fin n → ℕ} {u v current successor : Fin n}
  (h : Looked g k k' current successor)
include h

lemma Looked.ne_entryBlock : successor ≠ g.entryBlock := by
  rintro rfl
  exact g.entryBlock_notMem current (List.mem_of_getElem? h.some)

lemma Looked.visits_of_ne (hu : u ≠ current) : k' u = k u := by
  rw [h.visits, update_of_ne hu]

lemma Looked.visits_current : k' current = k current + 1 := by
  rw [h.visits, update_self]

lemma Looked.seen_current : g.seen k' current = g.seen k current ++ [successor] := by
  rw [seen, h.visits_current, take_add_one, h.some]
  rfl

lemma Looked.seen_of_ne (hu : u ≠ current) : g.seen k' u = g.seen k u := by
  rw [seen, h.visits_of_ne hu, seen]

lemma Looked.mem_seen : v ∈ g.seen k' u ↔ v ∈ g.seen k u ∨ u = current ∧ v = successor := by
  by_cases hu : u = current
  · subst hu
    rw [h.seen_current, mem_append]
    simp
  · rw [h.seen_of_ne hu]
    exact ⟨.inl, fun h => h.elim id fun h => absurd h.1 hu⟩

lemma Looked.count_seen_of_ne (hne : ¬ (u = current ∧ v = successor)) :
    (g.seen k' u).count v = (g.seen k u).count v := by
  by_cases hu : u = current
  · subst hu
    rw [h.seen_current, count_append, count_singleton,
      if_neg (by simpa using fun hv => hne ⟨rfl, hv.symm⟩), add_zero]
  · rw [h.seen_of_ne hu]

lemma Looked.bound (hk : ∀ b, k b ≤ (g.successors b).length) (b : Fin n) :
    k' b ≤ (g.successors b).length := by
  by_cases hb : b = current
  · subst hb
    rw [h.visits_current]
    exact (List.getElem?_eq_some_iff.1 h.some).1
  · rw [h.visits_of_ne hb]
    exact hk b

lemma Looked.remaining : g.remaining k' + 1 = g.remaining k := by
  have hlt := (List.getElem?_eq_some_iff.1 h.some).1
  have hrest : ∑ u ∈ Finset.univ.erase current, ((g.successors u).length - k' u) =
      ∑ u ∈ Finset.univ.erase current, ((g.successors u).length - k u) :=
    Finset.sum_congr rfl fun u hu => by rw [h.visits_of_ne (Finset.mem_erase.1 hu).1]
  rw [HGraph.remaining, HGraph.remaining, ← Finset.add_sum_erase _ _ (Finset.mem_univ current),
    ← Finset.add_sum_erase _ _ (Finset.mem_univ current), hrest, h.visits_current]
  omega

end

variable {k : Fin n → ℕ}

lemma seen_of_eq_length {u : Fin n} (h : k u = (g.successors u).length) :
    g.seen k u = g.successors u := by
  rw [seen, h, take_length]

lemma seen_of_eq_zero {u : Fin n} (h : k u = 0) : g.seen k u = [] := by
  rw [seen, h, take_zero]

/-! ## The invariant -/

namespace BackEdgeSearch

variable {s s' : BackEdgeSearch n} {u v current successor : Fin n} {F rest : List (Fin n)}

/-- The edge has been looked at. -/
def Processed (g : HGraph n) (s : BackEdgeSearch n) (u v : Fin n) : Prop := v ∈ g.seen s.successorsVisited u

/-- The edge has been looked at, and is no back edge. -/
def Forward (g : HGraph n) (s : BackEdgeSearch n) (u v : Fin n) : Prop :=
  Processed g s u v ∧ u ∉ s.backEdges v

/-- The invariant of the search, with the finished blocks `F`, the first finished first. -/
structure Search (g : HGraph n) (F : List (Fin n)) (s : BackEdgeSearch n) : Prop where
  nodup : (F ++ s.worklist).Nodup
  visiting : ∀ b, s.visiting b = true ↔ b ∈ s.worklist
  visited : ∀ b, s.visited b = true ↔ b ∈ F ++ s.worklist
  entry : g.entryBlock ∈ F ++ s.worklist
  bound : ∀ b, s.successorsVisited b ≤ (g.successors b).length
  finished : ∀ b ∈ F, s.successorsVisited b = (g.successors b).length
  unvisited : ∀ b, b ∉ F ++ s.worklist → s.successorsVisited b = 0
  mem : ∀ u v, Processed g s u v → v ∈ F ++ s.worklist
  forward : ∀ u v, Forward g s u v → [v, u].Sublist (F ++ s.worklist)
  back : ∀ u v, u ∈ s.backEdges v → Processed g s u v ∧ Relation.ReflTransGen (Forward g s) v u ∧
      (u ∈ s.worklist → u = v ∨ [u, v].Sublist s.worklist)
  count : ∀ u v, u ∈ s.backEdges v → (s.backEdges v).count u = (g.seen s.successorsVisited u).count v
  chain : s.worklist.IsChain fun a b => Forward g s b a
  parent : ∀ b ∈ F ++ s.worklist, b = g.entryBlock ∨ ∃ u, Forward g s u b

/-! ## Steps -/

/-- In a list without duplicates, what comes after a block cannot come before it. -/
lemma not_sublist_of_mem (hnodup : (F ++ u :: rest).Nodup) (hv : v ∈ u :: rest) :
    ¬ [v, u].Sublist (F ++ u :: rest) := by
  intro hsub
  obtain ⟨-, hnodup', hdisj⟩ := nodup_append.1 hnodup
  obtain ⟨l1, l2, heq, h1, h2⟩ := sublist_append_iff.1 hsub
  cases l1 with
  | cons a t =>
    obtain rfl := (cons.inj heq).1
    exact hdisj v (h1.subset (mem_cons_self ..)) v hv rfl
  | nil =>
    rw [nil_append] at heq
    rw [← heq] at h2
    cases h2 with
    | cons _ h | cons_cons _ h => exact (nodup_cons.1 hnodup').1 (h.subset (by simp))

/-- Along a chain, its members lead to the first. -/
lemma reflTransGen_of_isChain {R : Fin n → Fin n → Prop} {x : Fin n} {l : List (Fin n)}
    (h : (x :: l).IsChain fun a b => R b a) (hv : v ∈ x :: l) : Relation.ReflTransGen R v x := by
  induction l generalizing x with
  | nil =>
    obtain rfl := mem_singleton.1 hv
    exact .refl
  | cons y l ih =>
    rcases mem_cons.1 hv with rfl | hv
    · exact .refl
    · obtain ⟨hyx, hl⟩ := isChain_cons_cons.1 h
      exact (ih hl hv).tail hyx

section

variable (h : Search g F s) (hw : s.worklist = current :: rest)
include h hw

/-- A block all of whose successors have been visited is finished; the order does not change. -/
lemma Search.finish (hk : (g.successors current)[s.successorsVisited current]? = none) :
    Search g (F ++ [current]) (s.finish current rest) := by
  have horder : F ++ [current] ++ rest = F ++ s.worklist := by
    rw [hw, append_assoc]
    rfl
  have hnodup := h.nodup
  rw [hw] at hnodup
  have hnot : current ∉ rest := (nodup_cons.1 (nodup_append.1 hnodup).2.1).1
  refine ⟨horder ▸ h.nodup, fun b => ?_, fun b => horder ▸ h.visited b, horder ▸ h.entry, h.bound,
    fun b hb => ?_, fun b => horder ▸ h.unvisited b, fun u v => horder ▸ h.mem u v,
    fun u v => horder ▸ h.forward u v, fun u v huv => ?_, h.count, ?_, fun b => horder ▸ h.parent b⟩
  · show update s.visiting current false b = true ↔ b ∈ rest
    by_cases hb : b = current
    · subst hb
      rw [update_self]
      exact ⟨nofun, fun h => absurd h hnot⟩
    · rw [update_of_ne hb, h.visiting, hw, mem_cons, or_iff_right hb]
  · rcases mem_append.1 hb with hb | hb
    · exact h.finished b hb
    · rw [mem_singleton.1 hb]
      exact le_antisymm (h.bound _) (getElem?_eq_none_iff.1 hk)
  · obtain ⟨hp, hreach, hbelow⟩ := h.back u v huv
    rw [hw] at hbelow
    refine ⟨hp, hreach, fun hu => (hbelow (mem_cons_of_mem _ hu)).imp_right fun hsub => ?_⟩
    cases hsub with
    | cons _ hsub => exact hsub
    | cons_cons => exact absurd hu hnot
  · have := h.chain
    rw [hw] at this
    exact this.tail

variable (hl : Looked g s.successorsVisited s'.successorsVisited current successor)

include hl in
lemma Search.finished_of_looked (b : Fin n) (hb : b ∈ F) :
    s'.successorsVisited b = (g.successors b).length := by
  have hne : b ≠ current := by
    rintro rfl
    have := h.nodup
    rw [hw] at this
    exact (nodup_append.1 this).2.2 b hb b (mem_cons_self ..) rfl
  rw [hl.visits_of_ne hne, h.finished b hb]

include hl in
lemma Search.unvisited_of_looked (b : Fin n) (hb : b ∉ F ++ s.worklist) : s'.successorsVisited b = 0 := by
  have hne : b ≠ current := by
    rintro rfl
    exact hb (hw ▸ mem_append_right _ (mem_cons_self ..))
  rw [hl.visits_of_ne hne, h.unvisited b hb]

/-- An edge to a block of the worklist has not been looked at as a forward edge. -/
lemma Search.not_forward (hv : successor ∈ s.worklist) : ¬ Forward g s current successor := by
  intro hf
  have hnodup := h.nodup
  have hsub := h.forward _ _ hf
  rw [hw] at hv hnodup hsub
  exact not_sublist_of_mem hnodup hv hsub

/-- An edge to a block that is not on the worklist has not been looked at as a back edge. -/
lemma Search.not_mem_backEdges (hv : successor ∉ s.worklist) : current ∉ s.backEdges successor := by
  intro hb
  have hcur : current ∈ s.worklist := hw ▸ mem_cons_self ..
  rcases (h.back _ _ hb).2.2 hcur with rfl | hsub
  · exact hv hcur
  · exact hv (hsub.subset (by simp))

variable (hk : (g.successors current)[s.successorsVisited current]? = some successor)

include hk in
/-- The successor is on the worklist: a back edge. -/
lemma Search.addBackEdge (hv : successor ∈ s.worklist) :
    Search g F ((s.advance current).addBackEdge current successor) := by
  have hl : Looked g s.successorsVisited
      ((s.advance current).addBackEdge current successor).successorsVisited current successor :=
    ⟨hk, rfl⟩
  have hedges : ((s.advance current).addBackEdge current successor).backEdges =
      update s.backEdges successor (s.backEdges successor ++ [current]) := rfl
  have hnot := h.not_forward hw hv
  have hmem : ∀ u v, u ∈ ((s.advance current).addBackEdge current successor).backEdges v ↔
      u ∈ s.backEdges v ∨ u = current ∧ v = successor := fun u v => by
    rw [hedges]
    by_cases hvs : v = successor
    · subst hvs
      rw [update_self, mem_append, mem_singleton]
      simp
    · rw [update_of_ne hvs]
      exact ⟨.inl, fun h => h.elim id fun h => absurd h.2 hvs⟩
  -- the forward edges stay the same, and with them all that is said of paths
  have hforward : ∀ u v, Forward g ((s.advance current).addBackEdge current successor) u v ↔
      Forward g s u v := fun u v => by
    rw [Forward, Processed, hl.mem_seen, hmem, Forward, Processed]
    constructor
    · rintro ⟨hp | hp, hb⟩
      · exact ⟨hp, fun hb' => hb (.inl hb')⟩
      · exact absurd (.inr hp) hb
    · rintro ⟨hp, hb⟩
      refine ⟨.inl hp, fun hb' => hb'.elim hb ?_⟩
      rintro ⟨rfl, rfl⟩
      exact hnot ⟨hp, hb⟩
  have hforward' := funext₂ fun u v => propext (hforward u v)
  refine ⟨h.nodup, h.visiting, h.visited, h.entry, hl.bound h.bound, h.finished_of_looked hw hl,
    fun b hb => h.unvisited_of_looked hw hl b hb, fun u v hp => ?_,
    fun u v hf => h.forward u v ((hforward u v).1 hf), fun u v hb => ?_, fun u v hb => ?_,
    hforward' ▸ h.chain, fun b hb => ?_⟩
  · rcases hl.mem_seen.1 hp with hp | ⟨-, rfl⟩
    · exact h.mem u v hp
    · exact mem_append_right _ hv
  · rw [hforward']
    rcases (hmem u v).1 hb with hb | ⟨rfl, rfl⟩
    · obtain ⟨hp, hreach, hbelow⟩ := h.back u v hb
      exact ⟨hl.mem_seen.2 (.inl hp), hreach, hbelow⟩
    · refine ⟨hl.mem_seen.2 (.inr ⟨rfl, rfl⟩), ?_, fun _ => ?_⟩
      · have hchain := h.chain
        rw [hw] at hchain hv
        exact reflTransGen_of_isChain hchain hv
      · show u = v ∨ [u, v].Sublist s.worklist
        rw [hw] at hv ⊢
        exact (mem_cons.1 hv).imp Eq.symm fun hv =>
          (singleton_sublist.2 hv).cons_cons u
  · rw [hedges]
    by_cases huv : u = current ∧ v = successor
    · obtain ⟨rfl, rfl⟩ := huv
      rw [update_self, hl.seen_current, count_append, count_append,
        count_singleton_self, count_singleton_self]
      by_cases hb' : u ∈ s.backEdges v
      · rw [h.count u v hb']
      · rw [count_eq_zero_of_not_mem hb', count_eq_zero_of_not_mem fun hp => hnot ⟨hp, hb'⟩]
    · have hb' := ((hmem u v).1 hb).resolve_right huv
      rw [hl.count_seen_of_ne huv, ← h.count u v hb']
      by_cases hvs : v = successor
      · subst hvs
        rw [update_self, count_append, count_singleton,
          if_neg (by simpa using fun hu => huv ⟨hu.symm, rfl⟩), add_zero]
      · rw [update_of_ne hvs]
  · rw [hforward']
    exact h.parent b hb

variable (hb : s'.backEdges = s.backEdges)

include hl hb in
/-- The successor has been visited before and is finished, or it is put on the worklist: a forward
    edge. -/
lemma Search.forward_iff (hv : successor ∉ s.worklist) :
    Forward g s' u v ↔ Forward g s u v ∨ u = current ∧ v = successor := by
  rw [Forward, Processed, hl.mem_seen, hb, Forward, Processed]
  constructor
  · rintro ⟨hp | hp, hnot⟩
    · exact .inl ⟨hp, hnot⟩
    · exact .inr hp
  · rintro (⟨hp, hnot⟩ | ⟨rfl, rfl⟩)
    · exact ⟨.inl hp, hnot⟩
    · exact ⟨.inr ⟨rfl, rfl⟩, h.not_mem_backEdges hw hv⟩

include hl hb in
lemma Search.back_forward (hv : successor ∉ s.worklist) (hwork : s.worklist.Sublist s'.worklist)
    (hnew : ∀ u ∈ s'.worklist, u ∉ s.worklist → ∀ v, u ∉ s.backEdges v) (u v : Fin n)
    (huv : u ∈ s'.backEdges v) : Processed g s' u v ∧ Relation.ReflTransGen (Forward g s') v u ∧
      (u ∈ s'.worklist → u = v ∨ [u, v].Sublist s'.worklist) := by
  rw [hb] at huv
  obtain ⟨hp, hreach, hbelow⟩ := h.back u v huv
  refine ⟨hl.mem_seen.2 (.inl hp), ?_, fun hu => ?_⟩
  · exact Relation.ReflTransGen.mono (fun a b hab => (h.forward_iff hw hl hb hv).2 (.inl hab)) _ _ hreach
  · by_cases hus : u ∈ s.worklist
    · exact (hbelow hus).imp_right fun hsub => hsub.trans hwork
    · exact absurd huv (hnew u hu hus v)

include hl hb in
lemma Search.count_forward (hv : successor ∉ s.worklist) (u v : Fin n) (huv : u ∈ s'.backEdges v) :
    (s'.backEdges v).count u = (g.seen s'.successorsVisited u).count v := by
  rw [hb] at huv ⊢
  rw [h.count u v huv, hl.count_seen_of_ne]
  rintro ⟨rfl, rfl⟩
  exact h.not_mem_backEdges hw hv huv

include hk in
/-- The successor is finished. -/
lemma Search.skip (hv : successor ∉ s.worklist) (hF : successor ∈ F ++ s.worklist) :
    Search g F (s.advance current) := by
  have hl : Looked g s.successorsVisited (s.advance current).successorsVisited current successor :=
    ⟨hk, rfl⟩
  have hforward := fun u v => h.forward_iff (u := u) (v := v) hw hl rfl hv
  refine ⟨h.nodup, h.visiting, h.visited, h.entry, hl.bound h.bound, h.finished_of_looked hw hl,
    fun b hb => h.unvisited_of_looked hw hl b hb, fun u v hp => ?_, fun u v hf => ?_,
    h.back_forward hw hl rfl hv (List.Sublist.refl _) fun u hu hus => absurd hu hus,
    h.count_forward hw hl rfl hv, ?_, fun b hb => ?_⟩
  · rcases hl.mem_seen.1 hp with hp | ⟨-, rfl⟩
    · exact h.mem u v hp
    · exact hF
  · rcases (hforward u v).1 hf with hf | ⟨rfl, rfl⟩
    · exact h.forward u v hf
    · -- finished blocks come before the worklist
      have hv' : v ∈ F := (mem_append.1 hF).resolve_right hv
      show [v, u].Sublist (F ++ s.worklist)
      rw [hw]
      exact (singleton_sublist.2 hv').append (singleton_sublist.2 (mem_cons_self ..))
  · exact h.chain.imp fun a b hab => (hforward b a).2 (.inl hab)
  · exact (h.parent b hb).imp_right fun ⟨u, hu⟩ => ⟨u, (hforward u b).2 (.inl hu)⟩

include hk in
/-- The successor is visited for the first time. -/
lemma Search.push (hv : successor ∉ F ++ s.worklist) : Search g F ((s.advance current).push successor) := by
  have hl : Looked g s.successorsVisited ((s.advance current).push successor).successorsVisited
      current successor := ⟨hk, rfl⟩
  have hv' : successor ∉ s.worklist := fun hmem => hv (mem_append_right _ hmem)
  have hforward := fun u v => h.forward_iff (u := u) (v := v) hw hl rfl hv'
  have hsub : (F ++ s.worklist).Sublist (F ++ successor :: s.worklist) :=
    List.Sublist.append_left (sublist_cons_self ..) F
  have hmem : ∀ b, b ∈ F ++ successor :: s.worklist ↔ b = successor ∨ b ∈ F ++ s.worklist := by
    intro b
    simp only [mem_append, mem_cons]
    exact or_left_comm
  refine ⟨nodup_middle.2 (nodup_cons.2 ⟨hv, h.nodup⟩), fun b => ?_, fun b => ?_,
    hsub.subset h.entry, hl.bound h.bound, h.finished_of_looked hw hl,
    fun b hb => h.unvisited_of_looked hw hl b fun hb' => hb (hsub.subset hb'), fun u v hp => ?_,
    fun u v hf => ?_, h.back_forward hw hl rfl hv' (sublist_cons_self ..) fun u hu hus v huv => ?_,
    h.count_forward hw hl rfl hv', ?_, fun b hb => ?_⟩
  · show update s.visiting successor true b = true ↔ b ∈ successor :: s.worklist
    by_cases hb : b = successor
    · subst hb
      rw [update_self]
      exact ⟨fun _ => mem_cons_self .., fun _ => rfl⟩
    · rw [update_of_ne hb, h.visiting, mem_cons, or_iff_right hb]
  · show update s.visited successor true b = true ↔ b ∈ F ++ successor :: s.worklist
    rw [hmem]
    by_cases hb : b = successor
    · subst hb
      rw [update_self]
      exact ⟨fun _ => .inl rfl, fun _ => rfl⟩
    · rw [update_of_ne hb, h.visited, or_iff_right hb]
  · rcases hl.mem_seen.1 hp with hp | ⟨-, rfl⟩
    · exact hsub.subset (h.mem u v hp)
    · exact (hmem v).2 (.inl rfl)
  · rcases (hforward u v).1 hf with hf | ⟨rfl, rfl⟩
    · exact (h.forward u v hf).trans hsub
    · show [v, u].Sublist (F ++ v :: s.worklist)
      rw [hw]
      refine List.Sublist.trans ?_ (sublist_append_right ..)
      exact (singleton_sublist.2 (mem_cons_self ..)).cons_cons v
  · -- the successor is new, so that no edge from it has been looked at
    obtain rfl : u = successor := (mem_cons.1 hu).resolve_right hus
    have hp := (h.back u v huv).1
    rw [Processed, seen_of_eq_zero (h.unvisited u hv)] at hp
    exact not_mem_nil hp
  · show (successor :: s.worklist).IsChain _
    rw [hw]
    refine isChain_cons_cons.2 ⟨(hforward _ _).2 (.inr ⟨rfl, rfl⟩), ?_⟩
    exact (hw ▸ h.chain).imp fun a b hab => (hforward b a).2 (.inl hab)
  · rcases (hmem b).1 hb with rfl | hb
    · exact .inr ⟨current, (hforward _ _).2 (.inr ⟨rfl, rfl⟩)⟩
    · exact (h.parent b hb).imp_right fun ⟨u, hu⟩ => ⟨u, (hforward u b).2 (.inl hu)⟩

end

/-! ## The whole search -/

/-- Each step of the search keeps the invariant, and there are fewer edges or blocks left. -/
lemma Search.step (h : Search g F s) (hs : g.findBackEdgesStep s = some s') : (∃ F', Search g F' s') ∧
      2 * g.remaining s'.successorsVisited + s'.worklist.length <
        2 * g.remaining s.successorsVisited + s.worklist.length := by
  rw [findBackEdgesStep] at hs
  cases hw : s.worklist with
  | nil =>
    rw [hw] at hs
    cases hs
  | cons current rest =>
    rw [hw] at hs
    dsimp only at hs
    cases hk : (g.successors current)[s.successorsVisited current]? with
    | none =>
      rw [hk] at hs
      cases hs
      exact ⟨⟨_, h.finish hw hk⟩, Nat.add_lt_add_left (Nat.lt_succ_self _) _⟩
    | some successor =>
      rw [hk] at hs
      dsimp only at hs
      have hvisiting := h.visiting successor
      have hvisited : (s.advance current).visited successor = true ↔
          successor ∈ F ++ s.worklist := h.visited successor
      have hl : Looked g s.successorsVisited (s.advance current).successorsVisited current
          successor := ⟨hk, rfl⟩
      have hrem := hl.remaining
      -- an edge counts for two, since the block it leads to may be new on the worklist
      have hless : ∀ {l}, l ≤ s.worklist.length + 1 →
          2 * g.remaining (s.advance current).successorsVisited + l <
            2 * g.remaining s.successorsVisited + (current :: rest).length := fun hlen => by
        rw [hw] at hlen
        omega
      split_ifs at hs with hing hed
      · cases hs
        exact ⟨⟨F, h.addBackEdge hw hk (hvisiting.1 hing)⟩, hless (Nat.le_succ _)⟩
      · cases hs
        rw [Bool.not_eq_true', ← Bool.not_eq_true, hvisited] at hed
        exact ⟨⟨F, h.push hw hk hed⟩, hless le_rfl⟩
      · cases hs
        rw [Bool.not_eq_true', Bool.not_eq_false, hvisited] at hed
        exact ⟨⟨F, h.skip hw hk (mt hvisiting.2 hing) hed⟩, hless (Nat.le_succ _)⟩

lemma worklist_eq_nil (h : g.findBackEdgesStep s = none) : s.worklist = [] := by
  rw [findBackEdgesStep] at h
  cases hw : s.worklist with
  | nil => rfl
  | cons current rest =>
    rw [hw] at h
    dsimp only at h
    split at h
    · cases h
    · split_ifs at h

lemma search_start (g : HGraph n) : Search g [] g.findBackEdgesStart := by
  have hnone : ∀ u v, ¬ Processed g g.findBackEdgesStart u v := fun u v hp => by exact not_mem_nil hp
  have hbit : ∀ b, update (fun _ => false) g.entryBlock true b = true ↔ b ∈ [g.entryBlock] := fun b => by
    rw [mem_singleton]
    by_cases hb : b = g.entryBlock
    · rw [hb, update_self]
      exact ⟨fun _ => rfl, fun _ => rfl⟩
    · rw [update_of_ne hb]
      exact ⟨nofun, fun h => absurd h hb⟩
  exact ⟨nodup_singleton _, hbit, hbit, mem_singleton_self _, fun _ => Nat.zero_le _,
    fun _ hb => absurd hb not_mem_nil, fun _ _ => rfl, fun u v hp => absurd hp (hnone u v),
    fun u v hf => absurd hf.1 (hnone u v), fun _ _ hb => absurd hb not_mem_nil,
    fun _ _ hb => absurd hb not_mem_nil, isChain_singleton _, fun b hb => .inl (mem_singleton.1 hb)⟩

lemma idxOf_lt_of_sublist (hnodup : F.Nodup) (h : [v, u].Sublist F) : F.idxOf v < F.idxOf u := by
  obtain ⟨r1, r2, rfl, hv, hu⟩ := cons_sublist_iff.1 h
  have hu' := singleton_sublist.1 hu
  have hnot : u ∉ r1 := fun hmem => (nodup_append.1 hnodup).2.2 u hmem u hu' rfl
  rw [idxOf_append_of_mem hv, idxOf_append_of_notMem hnot]
  have := idxOf_lt_length_of_mem hv
  omega

/-- At the end all edges have been looked at. -/
lemma Search.processed_iff (h : Search g F s) (hw : s.worklist = [])
    (hreach : ∀ b, g.Reachable b) (u v : Fin n) : Processed g s u v ↔ g.Edge u v := by
  have hmem : ∀ b, b ∈ F := fun b => by
    have horder : F ++ s.worklist = F := by rw [hw, append_nil]
    induction hreach b with
    | refl => exact horder ▸ h.entry
    | @tail a c _ hac ih =>
      refine horder ▸ h.mem a c ?_
      rw [Processed, seen_of_eq_length (h.finished a ih)]
      exact hac
  rw [Processed, seen_of_eq_length (h.finished u (hmem u))]
  rfl

lemma Search.backEdges (h : Search g F s) (hw : s.worklist = [])
    (hreach : ∀ b, g.Reachable b) : BackEdges g s.backEdges := by
  have hprocessed := h.processed_iff hw hreach
  have hforward : Forward g s = fun a b => g.Edge a b ∧ a ∉ s.backEdges b :=
    funext₂ fun a b => propext (and_congr_left' (hprocessed a b))
  have horder : F ++ s.worklist = F := by rw [hw, append_nil]
  have hall : ∀ b, b ∈ F := fun b => by
    induction hreach b with
    | refl => exact horder ▸ h.entry
    | @tail a c _ hac _ => exact horder ▸ h.mem a c ((hprocessed a c).2 hac)
  refine ⟨⟨fun b => F.length - F.idxOf b, fun u v he hb => ?_⟩, fun u v hb => ?_, fun u v hb => ?_,
    fun v hv => ?_⟩
  · have hsub := h.forward u v ⟨(hprocessed u v).2 he, hb⟩
    rw [horder] at hsub
    have hlt := idxOf_lt_of_sublist (horder ▸ h.nodup) hsub
    have hu := idxOf_lt_length_of_mem (hall u)
    show F.length - F.idxOf u < F.length - F.idxOf v
    omega
  · exact hforward ▸ (h.back u v hb).2.1
  · rw [h.count u v hb, seen_of_eq_length (h.finished u (hall u))]
  · obtain ⟨u, hu⟩ := (h.parent v (horder.symm ▸ hall v)).resolve_left hv
    exact ⟨u, (hprocessed u v).1 hu.1, hu.2⟩

end BackEdgeSearch

open BackEdgeSearch in
/-- `FindBackEdges` returns, for a graph in which all blocks can be reached. -/
lemma findBackEdges_spec (hreach : ∀ b, g.Reachable b) :
    ∃ backEdges, g.findBackEdges = some backEdges ∧ BackEdges g backEdges := by
  obtain ⟨s, hs, ⟨F, h⟩, hw⟩ := Loop.whileM_rule (!·.worklist.isEmpty) g.findBackEdgesStep
    (P := fun s => ∃ F, Search g F s) (fun s => 2 * g.remaining s.successorsVisited + s.worklist.length)
    (fun s ⟨F, h⟩ hw => by
      cases hs : g.findBackEdgesStep s with
      | none =>
        rw [worklist_eq_nil hs] at hw
        cases hw
      | some s' => exact ⟨s', rfl, h.step hs⟩)
    ⟨[], search_start g⟩
    (show 2 * g.remaining (fun _ => 0) + 1 ≤ 2 * g.numberOfEdges + 1 from le_rfl)
  rw [Bool.not_eq_false', List.isEmpty_iff] at hw
  refine ⟨s.backEdges, ?_, h.backEdges hw hreach⟩
  rw [findBackEdges, hs]
  rfl

end HGraph

end Art
