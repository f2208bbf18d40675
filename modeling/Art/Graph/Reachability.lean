import Mathlib.Data.Fintype.Card
import Art.Lib.Loop

/-!
# Reachability of blocks

`ReachabilityAnalysisHelper` of `compiler/optimizing/nodes.cc`: the row of each block is computed by a
depth-first search that stops at blocks with a finished row and takes over that row.
-/

namespace Art

open List
open Finset (mem_insert notMem_empty univ)

/-- The blocks of an `HGraph`: `blocks_` may have null entries, the successors of a block are blocks, and
    `GetPostOrder()` has no block twice. -/
structure BlockGraph (n : ℕ) where
  /-- `blocks_[i]->GetSuccessors()`, or `none` for a null entry. -/
  blocks : Fin n → Option (List (Fin n))
  postOrder : List (Option (Fin n))
  isSome_of_mem {u v : Fin n} {l : List (Fin n)} : blocks u = some l → v ∈ l → (blocks v).isSome = true
  postOrder_nodup : (postOrder.filterMap id).Nodup
  isSome_of_mem_postOrder {v : Fin n} : some v ∈ postOrder → (blocks v).isSome = true

namespace BlockGraph

variable {n : ℕ} (g : BlockGraph n)

def successors (u : Fin n) : List (Fin n) := (g.blocks u).getD []

/-- There is an edge between the blocks. -/
def Edge (u v : Fin n) : Prop := v ∈ g.successors u

/-- The variables of `CalculateConnectednessOn`, with the row of the target block. The last block of the
    work stack comes first. -/
structure Connectedness (n : ℕ) where
  discovered : Finset (Fin n)
  workStack : List (Fin n)
  row : Finset (Fin n)

namespace Connectedness

/-- `AddEdge`, and the successor is pushed if it is new. -/
def addEdge (s : Connectedness n) (succ : Fin n) : Connectedness n where
  discovered := insert succ s.discovered
  workStack := if succ ∈ s.discovered then s.workStack else succ :: s.workStack
  row := insert succ s.row

end Connectedness

variable (rows : Fin n → Finset (Fin n)) (allVisited : Finset (Fin n))

/-- One round of the loop of `CalculateConnectednessOn`. -/
def connectednessStep (s : Connectedness n) : Option (Connectedness n) :=
  match s.workStack with
  | [] => none
  | cur :: rest =>
    if cur ∈ allVisited then some { s with workStack := rest, row := s.row ∪ rows cur }
    else some ((g.successors cur).foldl Connectedness.addEdge { s with workStack := rest })

/-- `CalculateConnectednessOn(target_block)`: the row of the target block. -/
def connectedness (target : Fin n) : Option (Finset (Fin n)) :=
  (Loop.whileM (fun s : Connectedness n => !s.workStack.isEmpty) (g.connectednessStep rows allVisited) n
    { discovered := {target}, workStack := [target], row := rows target }).map (·.row)

/-- The rows of `reachability_graph_`, and `all_visited_nodes_`. -/
structure ReachabilityState (n : ℕ) where
  rows : Fin n → Finset (Fin n)
  allVisited : Finset (Fin n)

/-- The row of a block is computed and the block is marked; null entries are left out. -/
def visit (s : ReachabilityState n) (blk : Option (Fin n)) : Option (ReachabilityState n) :=
  match blk with
  | none => some s
  | some b => (g.connectedness s.rows s.allVisited b).map fun row =>
    { rows := Function.update s.rows b row, allVisited := insert b s.allVisited }

/-- The blocks of `not_post_order_visited_`, with null entries. -/
def notPostOrderVisited : List (Option (Fin n)) :=
  ((List.finRange n).filter fun b => some b ∉ g.postOrder).map fun b => (g.blocks b).map fun _ => b

def computeReachability : Option (Fin n → Finset (Fin n)) :=
  ((g.postOrder ++ g.notPostOrderVisited).foldlM g.visit { rows := fun _ => ∅, allVisited := ∅ }).map
    (·.rows)

/-- `PathBetween(source, dest)`, for pointers that may be null. -/
def pathBetween (source dest : Option (Fin n)) : Bool :=
  match source, dest with
  | some s, some d => d ∈ rows s
  | _, _ => false

/-! ## One search -/

variable {g}

/-- A row holds what can be reached by one edge or more. -/
def IsExact (g : BlockGraph n) (row : Finset (Fin n)) (u : Fin n) : Prop :=
  ∀ v, v ∈ row ↔ Relation.TransGen g.Edge u v

/-- From a block everything next was found. -/
def IsDone (g : BlockGraph n) (rows : Fin n → Finset (Fin n)) (allVisited : Finset (Fin n))
    (s : Connectedness n) (p : Fin n) : Prop :=
  if p ∈ allVisited then rows p ⊆ s.row
  else ∀ v, g.Edge p v → v ∈ s.row ∧ v ∈ s.discovered

/-- The invariant of the search from a target block, while `pending` are the blocks that are not done. -/
structure Search (g : BlockGraph n) (rows : Fin n → Finset (Fin n)) (allVisited : Finset (Fin n))
    (target : Fin n) (s : Connectedness n) (pending : List (Fin n)) : Prop where
  nodup : s.workStack.Nodup
  subset : ∀ v ∈ s.workStack, v ∈ s.discovered
  target_mem : target ∈ s.discovered
  reachable : ∀ v ∈ s.discovered, v = target ∨ Relation.TransGen g.Edge target v
  sound : ∀ v ∈ s.row, Relation.TransGen g.Edge target v
  done : ∀ p ∈ s.discovered, p ∉ pending → IsDone g rows allVisited s p

/-- The number of rounds that are left, at most. -/
def rounds (s : Connectedness n) : ℕ := (univ \ s.discovered).card + s.workStack.length

section

variable {rows : Fin n → Finset (Fin n)} {allVisited : Finset (Fin n)} {target cur : Fin n}
  {s : Connectedness n}

lemma IsDone.mono {s' : Connectedness n} (hrow : s.row ⊆ s'.row) (hdisc : s.discovered ⊆ s'.discovered)
    {p : Fin n} (h : IsDone g rows allVisited s p) : IsDone g rows allVisited s' p := by
  unfold IsDone at h ⊢
  split_ifs at h ⊢ with hp
  · exact h.trans hrow
  · exact fun v hv => ⟨hrow (h v hv).1, hdisc (h v hv).2⟩

/-- An edge of the current block keeps the invariant. -/
lemma Search.addEdge {pending : List (Fin n)} {succ : Fin n}
    (hcur : ∀ v, g.Edge cur v → Relation.TransGen g.Edge target v) (he : g.Edge cur succ)
    (h : Search g rows allVisited target s (pending ++ s.workStack)) :
    Search g rows allVisited target (s.addEdge succ) (pending ++ (s.addEdge succ).workStack) := by
  have hrow : s.row ⊆ (s.addEdge succ).row := Finset.subset_insert _ _
  have hdisc : s.discovered ⊆ (s.addEdge succ).discovered := Finset.subset_insert _ _
  have hwork : ∀ v, v ∈ (s.addEdge succ).workStack ↔ v ∈ s.workStack ∨ v = succ ∧ succ ∉ s.discovered := by
    intro v
    unfold Connectedness.addEdge
    split_ifs with hmem
    · simp [hmem]
    · simp [hmem, or_comm]
  refine ⟨?_, ?_, hdisc h.target_mem, ?_, ?_, ?_⟩
  · unfold Connectedness.addEdge
    split_ifs with hmem
    · exact h.nodup
    · exact nodup_cons.2 ⟨fun hin => hmem (h.subset succ hin), h.nodup⟩
  · intro v hv
    rcases (hwork v).1 hv with hv | ⟨rfl, -⟩
    · exact hdisc (h.subset v hv)
    · exact Finset.mem_insert_self _ _
  · intro v hv
    rcases mem_insert.1 hv with rfl | hv
    · exact .inr (hcur v he)
    · exact h.reachable v hv
  · intro v hv
    rcases mem_insert.1 hv with rfl | hv
    · exact hcur v he
    · exact h.sound v hv
  · intro p hp hpending
    rw [mem_append, not_or, hwork] at hpending
    have hpd : p ∈ s.discovered := by
      rcases mem_insert.1 hp with rfl | hp
      · by_contra hnot
        exact hpending.2 (.inr ⟨rfl, hnot⟩)
      · exact hp
    refine (h.done p hpd ?_).mono hrow hdisc
    rw [mem_append, not_or]
    exact ⟨hpending.1, fun hin => hpending.2 (.inl hin)⟩

lemma rounds_addEdge (s : Connectedness n) (succ : Fin n) : rounds (s.addEdge succ) = rounds s := by
  unfold rounds Connectedness.addEdge
  split_ifs with hmem
  · rw [Finset.insert_eq_of_mem hmem]
  · have hsdiff : univ \ insert succ s.discovered = (univ \ s.discovered).erase succ := by
      ext v
      simp [not_or]
    have hin : succ ∈ univ \ s.discovered := by simp [hmem]
    have hpos := Finset.card_pos.2 ⟨succ, hin⟩
    rw [hsdiff, Finset.card_erase_of_mem hin, length_cons]
    omega

/-- All edges of the current block. -/
lemma Search.addEdges (pending : List (Fin n)) {l : List (Fin n)}
    (hcur : ∀ v, g.Edge cur v → Relation.TransGen g.Edge target v) (hl : ∀ v ∈ l, g.Edge cur v)
    (h : Search g rows allVisited target s (pending ++ s.workStack)) :
    Search g rows allVisited target (l.foldl Connectedness.addEdge s)
        (pending ++ (l.foldl Connectedness.addEdge s).workStack) ∧
      rounds (l.foldl Connectedness.addEdge s) = rounds s ∧
      (∀ v ∈ l, v ∈ (l.foldl Connectedness.addEdge s).row ∧
        v ∈ (l.foldl Connectedness.addEdge s).discovered) ∧ s.row ⊆ (l.foldl Connectedness.addEdge s).row ∧
      s.discovered ⊆ (l.foldl Connectedness.addEdge s).discovered := by
  induction l generalizing s with
  | nil => exact ⟨h, rfl, fun v hv => absurd hv not_mem_nil, Finset.Subset.refl _, Finset.Subset.refl _⟩
  | cons succ l ih =>
    have he := hl succ mem_cons_self
    obtain ⟨hs, hrounds, hfound, hrow, hdisc⟩ :=
      ih (fun v hv => hl v (mem_cons_of_mem _ hv)) (h.addEdge hcur he)
    refine ⟨hs, hrounds.trans (rounds_addEdge s succ), fun v hv => ?_, ?_, ?_⟩
    · rcases mem_cons.1 hv with rfl | hv
      · exact ⟨hrow (Finset.mem_insert_self _ _), hdisc (Finset.mem_insert_self _ _)⟩
      · exact hfound v hv
    · exact (Finset.subset_insert _ _).trans hrow
    · exact (Finset.subset_insert _ _).trans hdisc

variable (hrows : ∀ p ∈ allVisited, IsExact g (rows p) p)

include hrows in
/-- One round of the search. -/
lemma Search.step (h : Search g rows allVisited target s s.workStack)
    (hne : (!s.workStack.isEmpty) = true) : ∃ s', g.connectednessStep rows allVisited s = some s' ∧
      Search g rows allVisited target s' s'.workStack ∧ rounds s' < rounds s := by
  unfold connectednessStep
  cases hstack : s.workStack with
  | nil => rw [hstack] at hne; cases hne
  | cons cur rest =>
  rw [hstack] at h
  have hnodup := h.nodup
  rw [hstack, nodup_cons] at hnodup
  have hcurd : cur ∈ s.discovered := h.subset cur (hstack ▸ mem_cons_self)
  have hreach := h.reachable cur hcurd
  have htrans : ∀ v, Relation.TransGen g.Edge cur v → Relation.TransGen g.Edge target v := by
    intro v hv
    rcases hreach with rfl | hreach
    · exact hv
    · exact hreach.trans hv
  have hrounds : rounds { s with workStack := rest } < rounds s := by
    unfold rounds
    rw [hstack, length_cons]
    exact Nat.lt_succ_self _
  -- without the current block, which is not done yet
  have hpop : Search g rows allVisited target { s with workStack := rest } (cur :: rest) :=
    ⟨hnodup.2, fun v hv => h.subset v (hstack ▸ mem_cons_of_mem _ hv), h.target_mem,
      h.reachable, h.sound, h.done⟩
  dsimp only
  split_ifs with hmem
  · refine ⟨_, rfl, ⟨hpop.nodup, hpop.subset, hpop.target_mem, hpop.reachable, ?_, ?_⟩, hrounds⟩
    · intro v hv
      rcases Finset.mem_union.1 hv with hv | hv
      · exact h.sound v hv
      · exact htrans v ((hrows cur hmem v).1 hv)
    · intro p hp hpending
      by_cases hpc : p = cur
      · subst hpc
        unfold IsDone
        rw [if_pos hmem]
        exact Finset.subset_union_right
      · refine IsDone.mono ?_ ?_ (hpop.done p hp fun hin => (mem_cons.1 hin).elim hpc hpending)
        · exact Finset.subset_union_left
        · exact Finset.Subset.refl _
  · obtain ⟨hs, hrounds', hfound, -, -⟩ := Search.addEdges [cur] (l := g.successors cur)
      (fun v hv => htrans v (.single hv)) (fun v hv => hv) hpop
    refine ⟨_, rfl, ⟨hs.nodup, hs.subset, hs.target_mem, hs.reachable, hs.sound, ?_⟩,
      hrounds'.trans_lt hrounds⟩
    intro p hp hpending
    by_cases hpc : p = cur
    · subst hpc
      unfold IsDone
      rw [if_neg hmem]
      exact hfound
    · exact hs.done p hp fun hin => (mem_cons.1 hin).elim hpc hpending

include hrows in
/-- At the end of the search everything reachable is in the row. -/
lemma Search.isExact (h : Search g rows allVisited target s []) : IsExact g s.row target := by
  intro v
  refine ⟨h.sound v, fun hv => ?_⟩
  have hdone {p} (hp : p ∈ s.discovered) (hpath : Relation.TransGen g.Edge p v) :
      v ∈ s.row ∨ ∀ q, g.Edge p q → q ∈ s.row ∧ q ∈ s.discovered := by
    have hdone := h.done _ hp not_mem_nil
    unfold IsDone at hdone
    split_ifs at hdone with hvisited
    · exact .inl (hdone ((hrows _ hvisited v).2 hpath))
    · exact .inr hdone
  have hall : ∀ p, Relation.TransGen g.Edge p v → p ∈ s.discovered → v ∈ s.row := by
    intro p hpath hp
    induction hpath using Relation.TransGen.head_induction_on with
    | single he => exact (hdone hp (.single he)).elim id fun h' => (h' _ he).1
    | head he hrest ih => exact (hdone hp (.head he hrest)).elim id fun h' => ih (h' _ he).2
  exact hall target hv h.target_mem

include hrows in
/-- If the finished rows are exact, the row of one more block is found and exact. -/
lemma connectedness_spec (hempty : rows target = ∅) :
    ∃ row, g.connectedness rows allVisited target = some row ∧ IsExact g row target := by
  let start : Connectedness n := { discovered := {target}, workStack := [target], row := rows target }
  have hstart : Search g rows allVisited target start start.workStack := by
    refine ⟨nodup_singleton _, ?_, Finset.mem_singleton_self _, ?_, ?_, ?_⟩
    · exact fun v hv => Finset.mem_singleton.2 (mem_singleton.1 hv)
    · exact fun v hv => .inl (Finset.mem_singleton.1 hv)
    · intro v hv
      have hv : v ∈ rows target := hv
      rw [hempty] at hv
      exact absurd hv (notMem_empty v)
    · exact fun p hp hnot => absurd (mem_singleton.2 (Finset.mem_singleton.1 hp)) hnot
  have hrounds : rounds start ≤ n := by
    have hcard := Finset.card_sdiff_add_card_eq_card (Finset.subset_univ ({target} : Finset (Fin n)))
    rw [Finset.card_singleton, Finset.card_univ, Fintype.card_fin] at hcard
    exact hcard.le
  obtain ⟨s, hs, hsearch, hend⟩ := Loop.whileM_rule (fun s : Connectedness n => !s.workStack.isEmpty)
    (g.connectednessStep rows allVisited) rounds (fun s hs hne => Search.step hrows hs hne) hstart hrounds
  have hnil : s.workStack = [] := by simpa using hend
  rw [hnil] at hsearch
  exact ⟨s.row, by rw [connectedness, hs]; rfl, hsearch.isExact hrows⟩

end

/-! ## All searches -/

/-- The rows of the marked blocks are exact, and the others are empty. -/
structure Rows (g : BlockGraph n) (s : ReachabilityState n) : Prop where
  exact : ∀ p ∈ s.allVisited, IsExact g (s.rows p) p
  empty : ∀ p ∉ s.allVisited, s.rows p = ∅

lemma Rows.visit {s : ReachabilityState n} (h : Rows g s) {b : Fin n} (hb : b ∉ s.allVisited) :
    ∃ s', g.visit s (some b) = some s' ∧ Rows g s' ∧ s'.allVisited = insert b s.allVisited := by
  obtain ⟨row, hrow, hexact⟩ := connectedness_spec h.exact (h.empty b hb)
  refine ⟨{ rows := Function.update s.rows b row, allVisited := insert b _ },
    by rw [BlockGraph.visit, hrow]; rfl, ⟨fun p hp => ?_, fun p hp => ?_⟩, rfl⟩
  · show IsExact g (Function.update s.rows b row p) p
    by_cases hpb : p = b
    · subst hpb
      rw [Function.update_self]
      exact hexact
    · rw [Function.update_of_ne hpb]
      exact h.exact p ((mem_insert.1 hp).resolve_left hpb)
  · have hp := mt mem_insert.2 hp
    rw [not_or] at hp
    exact (Function.update_of_ne hp.1 _ _).trans (h.empty p hp.2)

/-- Visiting blocks one after another, each once. -/
lemma Rows.visits {l : List (Option (Fin n))} {s : ReachabilityState n} (h : Rows g s)
    (hl : (l.filterMap id).Nodup) (hnew : ∀ b, some b ∈ l → b ∉ s.allVisited) :
    ∃ s', l.foldlM g.visit s = some s' ∧ Rows g s' ∧
      ∀ b, b ∈ s'.allVisited ↔ b ∈ s.allVisited ∨ some b ∈ l := by
  induction l generalizing s with
  | nil => exact ⟨s, rfl, h, fun b => by simp⟩
  | cons blk l ih =>
    cases blk with
    | none =>
      obtain ⟨s', hs', hrows, hall⟩ := ih h hl fun b hb => hnew b (mem_cons_of_mem _ hb)
      exact ⟨s', hs', hrows, fun b => by simp [hall]⟩
    | some b =>
      rw [show (some b :: l).filterMap id = b :: l.filterMap id from rfl, nodup_cons] at hl
      obtain ⟨t, ht, hrows, hvisited⟩ := h.visit (hnew b mem_cons_self)
      obtain ⟨s', hs', hrows', hall⟩ := ih hrows hl.2 fun c hc hct => by
        rw [hvisited, mem_insert] at hct
        rcases hct with rfl | hct
        · exact hl.1 (mem_filterMap.2 ⟨some c, hc, rfl⟩)
        · exact hnew c (mem_cons_of_mem _ hc) hct
      refine ⟨s', by rw [foldlM_cons, ht]; exact hs', hrows', fun c => ?_⟩
      rw [hall, hvisited, mem_insert, mem_cons, Option.some.injEq, or_assoc, or_left_comm]

lemma mem_notPostOrderVisited {b : Fin n} :
    some b ∈ g.notPostOrderVisited ↔ some b ∉ g.postOrder ∧ (g.blocks b).isSome = true := by
  unfold notPostOrderVisited
  rw [mem_map]
  constructor
  · rintro ⟨c, hc, hmap⟩
    obtain ⟨l, hl, rfl⟩ := Option.map_eq_some_iff.1 hmap
    exact ⟨by simpa using (mem_filter.1 hc).2, by rw [hl]; rfl⟩
  · rintro ⟨hnot, hsome⟩
    obtain ⟨l, hl⟩ := Option.isSome_iff_exists.1 hsome
    exact ⟨b, mem_filter.2 ⟨mem_finRange b, by simpa using hnot⟩, by rw [hl]; rfl⟩

lemma nodup_blocks (g : BlockGraph n) : ((g.postOrder ++ g.notPostOrderVisited).filterMap id).Nodup := by
  rw [filterMap_append, nodup_append']
  refine ⟨g.postOrder_nodup, ?_, ?_⟩
  · have hfilter := (nodup_finRange n).filter fun b => decide (some b ∉ g.postOrder)
    rw [notPostOrderVisited, filterMap_map]
    refine hfilter.filterMap fun b c x hb hc => ?_
    obtain ⟨-, -, rfl⟩ := Option.map_eq_some_iff.1 hb
    obtain ⟨-, -, rfl⟩ := Option.map_eq_some_iff.1 hc
    rfl
  · intro b hb hb'
    obtain ⟨x, hx, rfl⟩ := mem_filterMap.1 hb
    obtain ⟨y, hy, rfl⟩ := mem_filterMap.1 hb'
    exact (mem_notPostOrderVisited.1 hy).1 hx

lemma not_transGen_of_null {s d : Fin n} (hs : g.blocks s = none) : ¬Relation.TransGen g.Edge s d := by
  intro h
  obtain ⟨v, hv, -⟩ := Relation.TransGen.head'_iff.1 h
  rw [Edge, successors, hs] at hv
  exact absurd hv not_mem_nil

/-- The reachability information is computed, and `PathBetween` is true for blocks between which there
    is a path with at least one edge. -/
theorem pathBetween_computeReachability (g : BlockGraph n) :
    ∃ rows, g.computeReachability = some rows ∧ ∀ s d,
      (pathBetween rows (some s) (some d) = true ↔ Relation.TransGen g.Edge s d) := by
  have hstart : Rows g { rows := fun _ => ∅, allVisited := ∅ } :=
    ⟨fun p hp => absurd hp (notMem_empty p), fun _ _ => rfl⟩
  obtain ⟨t, ht, hrows, hall⟩ := hstart.visits (nodup_blocks g) fun b _ => notMem_empty b
  refine ⟨t.rows, by rw [computeReachability, ht]; rfl, fun s d => decide_eq_true_iff.trans ?_⟩
  by_cases hmem : s ∈ t.allVisited
  · exact hrows.exact s hmem d
  · -- a block that was not visited is a null entry
    have hnull : g.blocks s = none := by
      by_contra hsome
      refine hmem ((hall s).2 (.inr (mem_append.2 ?_)))
      by_cases hpost : some s ∈ g.postOrder
      · exact .inl hpost
      · exact .inr (mem_notPostOrderVisited.2 ⟨hpost, Option.isSome_iff_ne_none.2 hsome⟩)
    rw [hrows.empty s hmem]
    exact iff_of_false (notMem_empty d) (not_transGen_of_null hnull)

end BlockGraph
end Art
