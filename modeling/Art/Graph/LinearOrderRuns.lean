import Art.Graph.LinearOrder

/-!
# Loops in the linear order

The runs of `LinearizeGraphInternal` of `compiler/optimizing/linear_order.cc`.
-/

namespace Art

open NaturalLoops List
open Relation.ReflTransGen (cases_head cases_tail)
open BitVec (ofNat)

namespace HGraph

variable {n : ℕ} {g : HGraph n} {loops : LoopInformation n} (hg : g.ReducibleLoops loops)

include hg

/-! ## The main loop -/

/-- A block may come after the blocks of a list: its forward predecessors are there, and it is in all
    loops of which some but not all blocks are there. -/
structure Follows (g : HGraph n) (loops : LoopInformation n) (before : List (Fin n)) (v : Fin n) :
    Prop where
  forward : ∀ u, Forward g.Edge g.entryBlock u v → u ∈ before
  loop : ∀ h x y, loops.isLoopHeader h = true → x ∈ before → x ∈ loops.blocks h → y ∉ before →
    y ∈ loops.blocks h → v ∈ loops.blocks h

/-- All blocks of a list follow those before. -/
def Ordered (g : HGraph n) (loops : LoopInformation n) (order : List (Fin n)) : Prop :=
  ∀ before v after, order = before ++ v :: after → Follows g loops before v

variable {order : List (Fin n)} {v : Fin n}

omit hg in
lemma Ordered.snoc (h : Ordered g loops order) (hv : Follows g loops order v) :
    Ordered g loops (order ++ [v]) := by
  intro before x after heq
  rcases eq_nil_or_concat after with rfl | ⟨after, y, rfl⟩
  · obtain ⟨rfl, hx⟩ := append_inj' heq rfl
    obtain rfl := (cons.inj hx).1
    exact hv
  · rw [concat_eq_append, ← cons_append, ← append_assoc] at heq
    obtain ⟨rfl, -⟩ := append_inj' heq rfl
    exact h before x after rfl

omit hg in
lemma Ordered.closed (h : Ordered g loops order) : Closed g order.toFinset := by
  intro u v huv hv
  obtain ⟨before, after, rfl⟩ := append_of_mem (mem_toFinset.1 hv)
  exact mem_toFinset.2 (mem_append_left _ ((h before v after rfl).forward u huv))

/-- The invariant of the main loop. -/
structure Emitting (g : HGraph n) (loops : LoopInformation n) (s : Linearization n) : Prop where
  nodup : (s.order ++ s.worklist).Nodup
  counter : ∀ b, s.forwardPredecessors b = ofNat 32 (g.numberOfForwardPredecessors loops b) -
    ofNat 32 (g.edgesFrom s.order.toFinset b)
  mem_iff : ∀ b, b ∈ s.order ++ s.worklist ↔
    g.numberOfForwardPredecessors loops b ≤ g.edgesFrom s.order.toFinset b
  sorted : Sorted loops s.worklist
  ordered : Ordered g loops s.order

/-- The invariant of the loop over the successors of `c`, which comes after the blocks `before`: edges to
    the blocks `done` have been seen. -/
structure Visiting (g : HGraph n) (loops : LoopInformation n) (before : List (Fin n)) (c : Fin n)
    (done : List (Fin n)) (s : Linearization n) : Prop where
  order_eq : s.order = before ++ [c]
  nodup : (s.order ++ s.worklist).Nodup
  counter : ∀ b, s.forwardPredecessors b = ofNat 32 (g.numberOfForwardPredecessors loops b) -
    ofNat 32 (g.edgesFrom before.toFinset b + done.count b)
  mem_iff : ∀ b, b ∈ s.order ++ s.worklist ↔
    g.numberOfForwardPredecessors loops b ≤ g.edgesFrom before.toFinset b + done.count b
  sorted : Sorted loops s.worklist
  outer : ∀ x ∈ s.worklist, Outer loops (loops.loopOf x) (loops.loopOf c) ∨ g.successors c = [x]

/-- When the last edge to a block is seen, its counter is one. -/
lemma ReducibleLoops.counter_eq_one_iff {e : ℕ} (he : e + 1 ≤ g.numberOfPredecessors v) :
    ofNat 32 (g.numberOfForwardPredecessors loops v) - ofNat 32 e = 1 ↔
      g.numberOfForwardPredecessors loops v = e + 1 := by
  have hlt := hg.numberOfPredecessors_lt v
  have hle : g.numberOfForwardPredecessors loops v ≤ g.numberOfPredecessors v := by
    rw [hg.numberOfForwardPredecessors_eq]
    exact edgesFrom_le _ _
  rw [BitVec.sub_eq_iff_eq_add]
  constructor
  · intro h
    have h' := congrArg BitVec.toNat h
    rw [BitVec.toNat_ofNat] at h'
    change _ = (1 + e % 2 ^ 32) % 2 ^ 32 at h'
    omega
  · rintro h
    rw [h, add_comm, BitVec.ofNat_add]
    rfl

variable {before : List (Fin n)} {c : Fin n}

/-- A block that has been put in the order does not lead back to one that has not been seen. -/
lemma ReducibleLoops.forward_of_new (hbefore : Ordered g loops before)
    (hc : Follows g loops before c) (he : g.Edge c v) (hv : v ∉ before ++ [c]) :
    Forward g.Edge g.entryBlock c v := by
  refine ⟨he, fun hdom => hv ?_⟩
  have hclosed := (hbefore.snoc hc).closed
  exact mem_toFinset.1 (hclosed.mem_of_reaches (hg.reducible.reaches_of_dominates hdom)
    (mem_toFinset.2 (mem_append_right _ mem_cons_self)))

section

variable (hsplit : g.HeaderEdgesSplit loops) {before : List (Fin n)} {c : Fin n}

include hsplit

variable {done : List (Fin n)} {s : Linearization n} {v : Fin n}

/-- A new successor of `c` goes to its place on the worklist. -/
lemma Visiting.sorted_add (h : Visiting g loops before c done s) (hv : v ∉ s.order ++ s.worklist)
    (hforward : Forward g.Edge g.entryBlock c v) :
    Sorted loops (addToListForLinearization loops v s.worklist) ∧
      (Outer loops (loops.loopOf v) (loops.loopOf c) ∨ g.successors c = [v]) := by
  have houter : ∀ x ∈ s.worklist, Outer loops (loops.loopOf x) (loops.loopOf c) := by
    intro x hx
    refine (h.outer x hx).resolve_right fun hsingle => hv (mem_append_right _ ?_)
    have hmem : v ∈ g.successors c := hforward.1
    rw [hsingle, mem_singleton] at hmem
    rwa [hmem]
  cases hheader : loops.isLoopHeader v with
  | false =>
    have hcv := hg.outer_of_edge hforward.1 hheader
    exact ⟨hg.sorted_add h.sorted fun x hx => hg.outer_or_outer (houter x hx) hcv, .inl hcv⟩
  | true =>
    have hsingle := hsplit c v hheader hforward.1
    have hcv := hg.outer_of_single hsingle
    exact ⟨hg.sorted_add h.sorted fun x hx => .inl (hg.outer_trans (houter x hx) hcv), .inr hsingle⟩

lemma Visiting.step (hbefore : Ordered g loops before) (hc : Follows g loops before c)
    {todo : List (Fin n)} (hdone : g.successors c = done ++ v :: todo)
    (h : Visiting g loops before c done s) :
    Visiting g loops before c (done ++ [v]) (visitSuccessor loops s v) := by
  have hcbefore : c ∉ before.toFinset := by
    have hnodup := (nodup_append.1 h.nodup).1
    rw [h.order_eq] at hnodup
    intro hmem
    exact (nodup_append.1 hnodup).2.2 c (mem_toFinset.1 hmem) c mem_cons_self rfl
  have hcount : ∀ b, (done ++ [v]).count b = done.count b + if b = v then 1 else 0 := by
    intro b
    rw [count_append, count_singleton]
    by_cases hbv : b = v
    · rw [if_pos hbv, hbv]
      simp
    · rw [if_neg hbv, if_neg (by simpa using Ne.symm hbv)]
  have hle : g.edgesFrom before.toFinset v + done.count v + 1 ≤ g.numberOfPredecessors v := by
    have hfrom := edgesFrom_le (g := g) (insert c before.toFinset) v
    rw [edgesFrom_insert hcbefore, hdone, count_append, count_cons_self] at hfrom
    omega
  -- the counter is 1 exactly at the last forward edge to `v`, also if it has wrapped around
  have hone := hg.counter_eq_one_iff hle
  rw [← h.counter v] at hone
  have hedge : g.Edge c v := by
    rw [Edge, hdone]
    exact mem_append_right _ mem_cons_self
  have hcounter : ∀ b, (visitSuccessor loops s v).forwardPredecessors b =
      ofNat 32 (g.numberOfForwardPredecessors loops b) -
        ofNat 32 (g.edgesFrom before.toFinset b + (done ++ [v]).count b) := by
    intro b
    rw [hcount]
    change Function.update s.forwardPredecessors v (s.forwardPredecessors v - 1) b = _
    rcases eq_or_ne b v with rfl | hbv
    · rw [Function.update_self, h.counter, if_pos rfl, ← add_assoc, BitVec.ofNat_add _ 1, BitVec.sub_sub]
      rfl
    · rw [Function.update_of_ne hbv, h.counter, if_neg hbv, add_zero]
  by_cases hfp : s.forwardPredecessors v = 1
  · have hF := hone.1 hfp
    have hnew : v ∉ s.order ++ s.worklist := by
      rw [h.mem_iff]
      omega
    have hforward : Forward g.Edge g.entryBlock c v := by
      refine hg.forward_of_new hbefore hc hedge ?_
      rw [← h.order_eq]
      exact fun hmem => hnew (mem_append_left _ hmem)
    obtain ⟨hsorted, houter⟩ := h.sorted_add hg hsplit hnew hforward
    have hperm := addToListForLinearization_perm loops v s.worklist
    have hworklist : (visitSuccessor loops s v).worklist =
        addToListForLinearization loops v s.worklist := if_pos hfp
    have hall : ((visitSuccessor loops s v).order ++ (visitSuccessor loops s v).worklist).Perm
        (v :: (s.order ++ s.worklist)) := by
      rw [hworklist]
      exact (hperm.append_left s.order).trans perm_middle
    refine ⟨h.order_eq, hall.nodup_iff.2 (nodup_cons.2 ⟨hnew, h.nodup⟩), hcounter,
      fun b => ?_, by rw [hworklist]; exact hsorted, fun x hx => ?_⟩
    · rw [hall.mem_iff, mem_cons, h.mem_iff, hcount]
      rcases eq_or_ne b v with rfl | hbv
      · rw [if_pos rfl]
        exact iff_of_true (.inl rfl) (by omega)
      · rw [if_neg hbv, add_zero]
        exact or_iff_right hbv
    · rw [hworklist] at hx
      rcases mem_cons.1 (hperm.mem_iff.1 hx) with rfl | hx
      · exact houter
      · exact h.outer x hx
  · have hF := mt hone.2 hfp
    have hworklist : (visitSuccessor loops s v).worklist = s.worklist := if_neg hfp
    refine ⟨h.order_eq, by rw [hworklist]; exact h.nodup, hcounter, fun b => ?_,
      by rw [hworklist]; exact h.sorted, by rw [hworklist]; exact h.outer⟩
    rw [hworklist, hcount]
    refine (h.mem_iff b).trans ?_
    rcases eq_or_ne b v with rfl | hbv
    · rw [if_pos rfl]
      omega
    · rw [if_neg hbv, add_zero]

end

variable {s : Linearization n} {rest : List (Fin n)}

omit hg in
/-- The block that is taken from the worklist is the next one in the order. -/
lemma Emitting.visiting (h : Emitting g loops s) (hworklist : s.worklist = c :: rest) :
    Visiting g loops s.order c [] { s with worklist := rest, order := s.order ++ [c] } := by
  have happend : s.order ++ s.worklist = s.order ++ [c] ++ rest := by
    rw [hworklist, append_assoc, singleton_append]
  have hsorted := h.sorted
  rw [hworklist] at hsorted
  obtain ⟨houter, hrest⟩ := pairwise_cons.1 hsorted
  refine ⟨rfl, happend ▸ h.nodup, h.counter, fun b => ?_, hrest, fun x hx => .inl (houter x hx)⟩
  exact happend ▸ h.mem_iff b

/-- A block on the worklist follows the order, if it is on top. -/
lemma Emitting.follows (h : Emitting g loops s) (hworklist : s.worklist = c :: rest) :
    Follows g loops s.order c := by
  have hclosed := h.ordered.closed
  have hready : ∀ b, b ∈ s.order ++ s.worklist ↔
      ∀ u, Forward g.Edge g.entryBlock u b → u ∈ s.order := fun b =>
    ((h.mem_iff b).trans (hg.ready_iff hclosed b)).trans (forall₂_congr fun _ _ => mem_toFinset)
  refine ⟨(hready c).1 (mem_append_right _ (hworklist ▸ mem_cons_self)), ?_⟩
  intro h' x y hheader hx hxh hy hyh
  have hheaderMem : h' ∈ s.order := mem_toFinset.1 (hclosed.mem_of_reaches
    (hg.reducible.reaches_of_dominates ((hg.mem_blocks h' x hheader).1 hxh).dominates)
    (mem_toFinset.2 hx))
  -- the first block of the loop that is not in the order is ready
  obtain ⟨z, ⟨hz, hzh⟩, hmin⟩ := hg.reducible.wellFounded.has_min
    {z | z ∉ s.order ∧ z ∈ loops.blocks h'} ⟨y, hy, hyh⟩
  have hzmem : z ∈ s.worklist := by
    refine ((mem_append.1 ((hready z).2 fun u hu => ?_))).resolve_left hz
    by_contra hnot
    refine hmin u ⟨hnot, (hg.mem_blocks h' u hheader).2
      (((hg.mem_blocks h' z hheader).1 hzh).of_edge hu.1 ?_)⟩ hu
    rintro rfl
    exact hz hheaderMem
  have hsorted := h.sorted
  rw [hworklist] at hsorted hzmem
  rcases mem_cons.1 hzmem with rfl | hzrest
  · exact hzh
  -- the loop on top is inside of that of the ready block
  · have houter := hg.outer_iff.1 ((pairwise_cons.1 hsorted).1 z hzrest)
    cases hloop : loops.loopOf z with
    | none => exact absurd hzh (hg.loopOf_eq_none z hloop h' hheader)
    | some k =>
      obtain ⟨hk, -, hinner⟩ := hg.loopOf_eq_some z k hloop
      exact hg.blocks_trans hheader hk (hinner h' hheader hzh) (houter k hloop)

lemma Emitting.step (hsplit : g.HeaderEdgesSplit loops) (h : Emitting g loops s)
    (hcond : (!s.worklist.isEmpty) = true) : ∃ s', g.linearizeStep loops s = some s' ∧ Emitting g loops s' ∧
      n - s'.order.length < n - s.order.length := by
  obtain ⟨c, rest, hworklist⟩ : ∃ c rest, s.worklist = c :: rest := by
    cases hw : s.worklist with
    | nil => rw [hw] at hcond; cases hcond
    | cons c rest => exact ⟨c, rest, rfl⟩
  have hfollows := h.follows hg hworklist
  have hcnot : c ∉ s.order.toFinset := fun hmem =>
    (nodup_append.1 h.nodup).2.2 c (mem_toFinset.1 hmem) c (hworklist ▸ mem_cons_self) rfl
  -- the loop over the successors
  have hfold : ∀ todo done t, g.successors c = done ++ todo → Visiting g loops s.order c done t →
      Visiting g loops s.order c (g.successors c) (todo.foldl (visitSuccessor loops) t) := by
    intro todo
    induction todo with
    | nil =>
      intro done t hdone ht
      rw [hdone, append_nil]
      exact ht
    | cons v todo ih =>
      intro done t hdone ht
      refine ih (done ++ [v]) _ (by rw [hdone, append_assoc]; rfl) ?_
      exact ht.step hg hsplit h.ordered hfollows hdone
  have hlast := hfold _ [] _ rfl (h.visiting hworklist)
  have hedges : ∀ b, g.edgesFrom (s.order ++ [c]).toFinset b =
      g.edgesFrom s.order.toFinset b + (g.successors c).count b := by
    intro b
    rw [← edgesFrom_insert hcnot, toFinset_append, toFinset_cons, toFinset_nil,
      insert_empty_eq, Finset.union_singleton]
  refine ⟨_, by rw [linearizeStep, hworklist], ?_, ?_⟩
  · refine ⟨hlast.nodup, fun b => ?_, fun b => ?_, hlast.sorted, ?_⟩
    · rw [hlast.order_eq, hedges]
      exact hlast.counter b
    · rw [hlast.mem_iff, hlast.order_eq, hedges]
    · rw [hlast.order_eq]
      exact h.ordered.snoc hfollows
  · have hnodup := (nodup_append.1 hlast.nodup).1
    have hle := hnodup.length_le_card
    rw [hlast.order_eq, length_append, length_singleton, Fintype.card_fin] at hle
    rw [hlast.order_eq, length_append, length_singleton]
    omega

/-! ## The whole order -/

/-- The loop ends with all blocks in the order. -/
lemma ReducibleLoops.linearizeGraph_ordered (hsplit : g.HeaderEdgesSplit loops) :
    ∃ order, g.linearizeGraph loops = some order ∧ order.Nodup ∧ (∀ b, b ∈ order) ∧
      Ordered g loops order := by
  have hstart : Emitting g loops
      { forwardPredecessors := fun b => ofNat 32 (g.numberOfForwardPredecessors loops b)
        worklist := [g.entryBlock]
        order := [] } := by
    have hempty : Ordered g loops [] := fun before v after heq => by
      cases before <;> cases heq
    refine ⟨nodup_singleton _, fun b => (BitVec.sub_zero _).symm, fun b => ?_, pairwise_singleton _ _, hempty⟩
    rw [hg.ready_iff hempty.closed]
    constructor
    · intro hb u hu
      rw [nil_append, mem_singleton] at hb
      exact absurd (hb ▸ hu.1) (g.entryBlock_notMem u)
    · intro hall
      by_contra hb
      obtain ⟨l, hl⟩ := exists_path (hg.reducible.reachable b)
      obtain ⟨u, hu⟩ := exists_forward hl fun heq => hb (mem_singleton.2 heq)
      exact absurd (hall u hu) (Finset.notMem_empty u)
  obtain ⟨s, hs, h, hcond⟩ := Loop.whileM_rule (fun s : Linearization n => !s.worklist.isEmpty)
    _ (fun s => n - s.order.length) (fun s h hcond => h.step hg hsplit hcond)
    hstart (Nat.sub_le n 0)
  have hworklist : s.worklist = [] := by
    cases hw : s.worklist with
    | nil => rfl
    | cons c rest => rw [hw] at hcond; cases hcond
  have hnodup := h.nodup
  rw [hworklist, append_nil] at hnodup
  refine ⟨s.order, by rw [linearizeGraph, hs]; rfl, hnodup, fun b => ?_, h.ordered⟩
  induction b using hg.reducible.wellFounded.induction with
  | _ b ih =>
    have hmem := (h.mem_iff b).2 ((hg.ready_iff h.ordered.closed b).2 fun u hu =>
      mem_toFinset.2 (ih u hu))
    rwa [hworklist, append_nil] at hmem

omit hg in
/-- If nothing else stands between two elements with a property, these are a segment of the list. -/
lemma exists_segment {p : Fin n → Prop} {l : List (Fin n)}
    (h : ∀ before v after, l = before ++ v :: after → (∃ x ∈ before, p x) → (∃ y ∈ after, p y) → p v) :
    ∃ before segment after, l = before ++ segment ++ after ∧ (∀ x ∈ before, ¬p x) ∧
      (∀ x ∈ segment, p x) ∧ ∀ x ∈ after, ¬p x := by
  induction l with
  | nil => exact ⟨[], [], [], rfl, by simp, by simp, by simp⟩
  | cons a l ih =>
    obtain ⟨before, segment, after, rfl, hbefore, hsegment, hafter⟩ :=
      ih fun b v c heq ⟨x, hx, hpx⟩ => h (a :: b) v c (by rw [heq]; rfl) ⟨x, mem_cons_of_mem a hx, hpx⟩
    by_cases ha : p a
    · cases hseg : segment with
      | nil =>
        refine ⟨[], [a], before ++ after, by simp, by simp, by simpa using ha, fun x hx => ?_⟩
        exact (mem_append.1 hx).elim (hbefore x) (hafter x)
      | cons y rest =>
        -- an element before the segment would stand between
        have hnil : before = [] := by
          cases hb : before with
          | nil => rfl
          | cons v before' =>
            refine absurd (h [a] v (before' ++ segment ++ after) (by rw [hb]; rfl)
              ⟨a, mem_cons_self, ha⟩ ⟨y, ?_, hsegment y (hseg ▸ mem_cons_self)⟩)
              (hbefore v (hb ▸ mem_cons_self))
            rw [hseg]
            simp
        refine ⟨[], a :: y :: rest, after, by rw [hnil]; rfl, by simp, ?_, hafter⟩
        rw [← hseg]
        exact forall_mem_cons.2 ⟨ha, hsegment⟩
    · exact ⟨a :: before, segment, after, rfl, forall_mem_cons.2 ⟨ha, hbefore⟩, hsegment, hafter⟩

omit hg in
lemma Ordered.of_append {l1 l2 : List (Fin n)} (h : Ordered g loops (l1 ++ l2)) : Ordered g loops l1 := by
  rintro before v after rfl
  exact h before v (after ++ l2) (by rw [append_assoc, cons_append])

variable {after : List (Fin n)}

omit hg in
/-- A block comes after all that lead forward to it. -/
lemma Ordered.mem_before (h : Ordered g loops (before ++ v :: after)) {u : Fin n}
    (huv : Reaches g.Edge g.entryBlock u v) (hne : u ≠ v) : u ∈ before := by
  rcases cases_tail huv with rfl | ⟨x, hux, hxv⟩
  · exact absurd rfl hne
  · exact mem_toFinset.1 (h.of_append.closed.mem_of_reaches hux
      (mem_toFinset.2 ((h before v after rfl).forward x hxv)))

variable {h : Fin n}

/-- A walk that leaves a loop does so by a forward edge. -/
lemma ReducibleLoops.exists_exit (hsplit : g.HeaderEdgesSplit loops) {k e x : Fin n}
    (hk : loops.isLoopHeader k = true) (hx : x ∈ loops.blocks k) (he : e ∉ loops.blocks k)
    (hwalk : Dominance.Avoids g.Edge (· = h) x e) :
    ∃ y z, Forward g.Edge g.entryBlock y z ∧ y ∈ loops.blocks k ∧ z ∉ loops.blocks k ∧
      Dominance.Avoids g.Edge (· = h) z e := by
  induction hwalk using Relation.ReflTransGen.head_induction_on with
  | refl => exact absurd hx he
  | @head y z hstep hrest ih =>
    by_cases hz : z ∈ loops.blocks k
    · exact ih hz
    · refine ⟨y, z, ⟨hstep.1, fun hdom => hz ?_⟩, hx, hz, hrest⟩
      have hheader := (hg.isLoopHeader_iff z).2 ⟨y, hstep.1, hdom⟩
      exact hg.mem_blocks_of_single hk hx (hsplit y z hheader hstep.1)

/-- The last block of a loop in the order is a back edge. -/
lemma ReducibleLoops.mem_backEdges_of_last (hsplit : g.HeaderEdgesSplit loops) {b : Fin n}
    (hh : loops.isLoopHeader h = true) (hordered : Ordered g loops (before ++ b :: after))
    (hb : b ∉ before) (hbh : b ∈ loops.blocks h) (hlast : ∀ x ∈ loops.blocks h, x ∈ before ∨ x = b) :
    b ∈ loops.backEdges h := by
  have hmem : ∀ x, x ∈ loops.blocks h ↔ InLoop g.Edge g.entryBlock h x := fun x =>
    hg.mem_blocks h x hh
  -- a forward edge inside the loop leads to a later block
  have hforward : ∀ x, x ∈ loops.blocks h → ¬Forward g.Edge g.entryBlock b x := by
    intro x hx hbx
    rcases hlast x hx with hx | rfl
    · obtain ⟨l1, l2, rfl⟩ := append_of_mem hx
      exact hb (mem_append_left _ ((hordered.of_append l1 x l2 rfl).forward b hbx))
    · exact hg.reducible.not_forward_of_reaches .refl hbx
  rcases (hmem b).1 hbh with rfl | ⟨e, hback, hwalk⟩
  · obtain ⟨e, hback⟩ := (hg.isLoopHeader_iff b).1 hh
    rcases cases_head (hg.reducible.reaches_of_dominates hback.2) with
      rfl | ⟨x, hbx, hxe⟩
    · exact (hg.mem_backEdges b b).2 hback
    · refine absurd hbx (hforward x ((hmem x).2 (.inr ⟨e, hback, ?_⟩)))
      exact hg.reducible.avoids_of_reaches (.single hbx) hxe
  · rcases cases_head hwalk with rfl | ⟨k, hstep, hrest⟩
    · exact (hg.mem_backEdges h b).2 hback
    · -- the edge goes back to the header of an inner loop, which is left later
      have hkh : k ∈ loops.blocks h := (hmem k).2 (.inr ⟨e, hback, hrest⟩)
      have hbk : IsBackEdge g.Edge g.entryBlock b k :=
        ⟨hstep.1, by_contra fun hdom => hforward k hkh ⟨hstep.1, hdom⟩⟩
      have hk : loops.isLoopHeader k = true := (hg.isLoopHeader_iff k).2 ⟨b, hbk⟩
      have hbmem : b ∈ loops.blocks k := (hg.mem_blocks k b hk).2 (.inr ⟨b, hbk, .refl⟩)
      have he : e ∉ loops.blocks k := fun he => hstep.2 <| by
        have hhk := hg.mem_blocks_of_single hk he (hsplit e h hh hback.1)
        exact InLoop.antisymm hg.reducible ((hg.mem_blocks k h hk).1 hhk) ((hmem k).1 hkh)
      obtain ⟨y, z, hyz, hy, hz, hze⟩ := hg.exists_exit hsplit hk
        ((hg.mem_blocks k k hk).2 .header) he hrest
      rcases hlast z ((hmem z).2 (.inr ⟨e, hback, hze⟩)) with hzb | rfl
      · obtain ⟨l1, l2, rfl⟩ := append_of_mem hzb
        have hfollows := hordered.of_append l1 z l2 rfl
        exact absurd (hfollows.loop k y b hk (hfollows.forward y hyz) hy
          (fun hmem => hb (mem_append_left _ hmem)) hbmem) hz
      · exact absurd hbmem hz

omit hg in
/-- The linear order of a graph with reducible loops and split edges to headers: each block comes once,
    after its forward predecessors, and each loop is a segment from its header to a back edge. -/
theorem linearizeGraph_wellFormed (hg : g.ReducibleLoops loops) (hsplit : g.HeaderEdgesSplit loops) :
    ∃ order, g.linearizeGraph loops = some order ∧ order.Nodup ∧ (∀ b, b ∈ order) ∧
      (∀ before v after, order = before ++ v :: after → ∀ u, Forward g.Edge g.entryBlock u v → u ∈ before) ∧
      ∀ h, loops.isLoopHeader h = true → ∃ before segment after, order = before ++ segment ++ after ∧
        (∀ b, b ∈ segment ↔ b ∈ loops.blocks h) ∧ segment.head? = some h ∧
        ∃ e ∈ loops.backEdges h, segment.getLast? = some e := by
  obtain ⟨order, hrun, hnodup, hall, hordered⟩ := hg.linearizeGraph_ordered hsplit
  refine ⟨order, hrun, hnodup, hall, fun before v after heq => (hordered before v after heq).forward,
    fun h hh => ?_⟩
  obtain ⟨before, segment, after, rfl, hbefore, hsegment, hafter⟩ :=
    exists_segment (p := (· ∈ loops.blocks h)) (l := order) (by
      rintro before v after rfl ⟨x, hx, hxh⟩ ⟨y, hy, hyh⟩
      refine (hordered before v after rfl).loop h x y hh hx hxh (fun hmem => ?_) hyh
      exact (nodup_append.1 hnodup).2.2 y hmem y (mem_cons_of_mem v hy) rfl)
  have hiff : ∀ b, b ∈ segment ↔ b ∈ loops.blocks h := by
    refine fun b => ⟨hsegment b, fun hb => ?_⟩
    rcases mem_append.1 (hall b) with hmem | hmem
    · exact (mem_append.1 hmem).resolve_left fun hmem => hbefore b hmem hb
    · exact absurd hb (hafter b hmem)
  have hhmem : h ∈ segment := (hiff h).2 ((hg.mem_blocks h h hh).2 .header)
  refine ⟨before, segment, after, rfl, hiff, ?_, ?_⟩
  · obtain ⟨x, rest, rfl⟩ := exists_cons_of_ne_nil (ne_nil_of_mem hhmem)
    rw [append_assoc, cons_append] at hordered
    have hx := (hg.mem_blocks h x hh).1 (hsegment x mem_cons_self)
    by_contra hne
    have hne' : h ≠ x := fun heq => hne (by rw [heq]; rfl)
    exact hbefore h (hordered.mem_before (hg.reducible.reaches_of_dominates hx.dominates) hne')
      ((hiff h).1 hhmem)
  · obtain ⟨init, b, rfl⟩ := (eq_nil_or_concat segment).resolve_left (ne_nil_of_mem hhmem)
    rw [concat_eq_append] at *
    rw [← append_assoc, append_assoc (before ++ init), singleton_append]
      at hordered hnodup
    refine ⟨b, hg.mem_backEdges_of_last hsplit hh hordered (fun hmem => ?_)
      (hsegment b (mem_append_right _ mem_cons_self)) fun x hx => ?_, List.getLast?_concat⟩
    · exact (nodup_append.1 hnodup).2.2 b hmem b mem_cons_self rfl
    · rcases mem_append.1 ((hiff x).2 hx) with hmem | hmem
      · exact .inl (mem_append_right _ hmem)
      · exact .inr (mem_singleton.1 hmem)

omit hg

/-- The entry block and a block that is its own successor. -/
def selfLoop : HGraph 2 where
  entryBlock := 0
  successors _ := [1]
  entryBlock_notMem := by decide

/-- The loop of the second block. -/
def selfLoopInformation : LoopInformation 2 where
  isLoopHeader b := b == 1
  backEdges b := if b = 1 then [1] else []
  blocks b := if b = 1 then {1} else ∅
  loopOf b := if b = 1 then some 1 else none

lemma selfLoop_isBackEdge (u v : Fin 2) :
    IsBackEdge selfLoop.Edge selfLoop.entryBlock u v ↔ u = 1 ∧ v = 1 := by
  constructor
  · rintro ⟨he, hdom⟩
    obtain rfl := mem_singleton.1 he
    refine ⟨?_, rfl⟩
    by_contra hu
    obtain rfl : u = 0 := by omega
    exact absurd (hdom [0] .start) (by decide)
  · rintro ⟨rfl, rfl⟩
    refine ⟨mem_singleton.2 rfl, fun l hl => ?_⟩
    cases hl
    exact mem_cons_self

lemma selfLoop_reducibleLoops : selfLoop.ReducibleLoops selfLoopInformation where
  reducible := by
    refine ⟨fun b => ?_, Subrelation.wf (fun {u v} huv => ?_) (measure fun b : Fin 2 => b.val).wf⟩
    · by_cases hb : b = 0
      · rw [hb]
        exact .refl
      · exact .single (mem_singleton.2 (by omega))
    · obtain rfl : v = 1 := mem_singleton.1 huv.1
      have hu : u ≠ 1 := fun hu => huv.2 ((selfLoop_isBackEdge u 1).2 ⟨hu, rfl⟩).2
      change u.val < 1
      omega
  numberOfPredecessors_lt := by decide
  isLoopHeader_iff b := by
    simp only [IsHeader, selfLoop_isBackEdge, exists_eq_left]
    exact beq_iff_eq
  mem_backEdges h e := by
    rw [selfLoop_isBackEdge]
    revert h e
    decide
  count_backEdges := by decide
  mem_blocks h b hh := by
    obtain rfl : h = 1 := eq_of_beq hh
    constructor
    · intro hb
      exact .inl (Finset.mem_singleton.1 hb)
    · rintro (rfl | ⟨e, hback, hwalk⟩)
      · decide
      · rcases cases_head hwalk with rfl | ⟨x, hstep, -⟩
        · rw [((selfLoop_isBackEdge _ _).1 hback).1]
          decide
        · exact absurd (mem_singleton.1 hstep.1) hstep.2
  loopOf_eq_some := by decide
  loopOf_eq_none := by decide

theorem linearizeGraph_wellFormed_selfLoop :
    selfLoop.ReducibleLoops selfLoopInformation ∧ selfLoop.HeaderEdgesSplit selfLoopInformation ∧
    ∃ order, selfLoop.linearizeGraph selfLoopInformation = some order ∧ order.Nodup ∧ (∀ b, b ∈ order) ∧
      (∀ before v after, order = before ++ v :: after →
        ∀ u, Forward selfLoop.Edge selfLoop.entryBlock u v → u ∈ before) ∧
      ∀ h, selfLoopInformation.isLoopHeader h = true →
        ∃ before segment after, order = before ++ segment ++ after ∧
          (∀ b, b ∈ segment ↔ b ∈ selfLoopInformation.blocks h) ∧ segment.head? = some h ∧
          ∃ e ∈ selfLoopInformation.backEdges h, segment.getLast? = some e := by
  have hsplit : selfLoop.HeaderEdgesSplit selfLoopInformation := by
    intro u h hh _
    rw [eq_of_beq hh]
    rfl
  exact ⟨selfLoop_reducibleLoops, hsplit, linearizeGraph_wellFormed selfLoop_reducibleLoops hsplit⟩

/-! ## An edge that has not been split -/

/-- A loop with the header `1`, and in it a loop with the header `3`, which is also the source of the back
    edge to `1`. -/
def continueOuter : HGraph 6 where
  entryBlock := 0
  successors := ![[1], [2, 5], [3], [1, 4], [3], []]
  entryBlock_notMem := by decide

/-- The two loops. -/
def continueOuterInformation : LoopInformation 6 where
  isLoopHeader b := b == 1 || b == 3
  backEdges := ![[], [3], [], [4], [], []]
  blocks := ![∅, {1, 2, 3, 4}, ∅, {3, 4}, ∅, ∅]
  loopOf := ![none, some 1, some 1, some 3, some 3, none]

/-- A path to each block. -/
def continueOuterPath : Fin 6 → List (Fin 6) :=
  ![[0], [1, 0], [2, 1, 0], [3, 2, 1, 0], [4, 3, 2, 1, 0], [5, 1, 0]]

lemma continueOuter_path (b : Fin 6) :
    Dominance.Path continueOuter.Edge continueOuter.entryBlock b (continueOuterPath b) := by
  have h0 : Dominance.Path continueOuter.Edge 0 0 [0] := .start
  have h1 := h0.snoc (show continueOuter.Edge 0 1 by decide)
  have h2 := h1.snoc (show continueOuter.Edge 1 2 by decide)
  have h3 := h2.snoc (show continueOuter.Edge 2 3 by decide)
  fin_cases b
  · exact h0
  · exact h1
  · exact h2
  · exact h3
  · exact h3.snoc (show continueOuter.Edge 3 4 by decide)
  · exact h1.snoc (show continueOuter.Edge 1 5 by decide)

lemma continueOuter_isBackEdge (u v : Fin 6) :
    IsBackEdge continueOuter.Edge continueOuter.entryBlock u v ↔ v = 1 ∧ u = 3 ∨ v = 3 ∧ u = 4 := by
  constructor
  · rintro ⟨he, hdom⟩
    have hpath := hdom _ (continueOuter_path _)
    clear hdom
    revert u v
    decide
  · rintro (⟨rfl, rfl⟩ | ⟨rfl, rfl⟩)
    · -- all edges from the entry block go to the first header
      have hpath : ∀ b l, Dominance.Path continueOuter.Edge continueOuter.entryBlock b l → b ≠ 0 →
          (1 : Fin 6) ∈ l := by
        intro b l hl hb
        induction hl with
        | start => exact absurd rfl hb
        | @snoc b c l hl he ih =>
          by_cases hb' : b = 0
          · subst hb'
            obtain rfl := mem_singleton.1 he
            exact mem_cons_self
          · exact mem_cons_of_mem c (ih hb')
      exact ⟨by decide, fun l hl => hpath 3 l hl (by decide)⟩
    · refine ⟨by decide, fun l hl => ?_⟩
      cases hl with
      | @snoc b _ l hl he =>
        have honly : ∀ b, continueOuter.Edge b 4 → b = 3 := by decide
        obtain rfl := honly b he
        cases hl
        exact mem_cons_of_mem _ mem_cons_self

lemma continueOuter_reducibleLoops : continueOuter.ReducibleLoops continueOuterInformation where
  reducible := by
    refine ⟨fun b => ?_, Subrelation.wf (fun {u v} huv => ?_) (measure fun b : Fin 6 => b.val).wf⟩
    · have hpath : ∀ b l, Dominance.Path continueOuter.Edge continueOuter.entryBlock b l →
          Relation.ReflTransGen continueOuter.Edge continueOuter.entryBlock b := by
        intro b l hl
        induction hl with
        | start => exact .refl
        | snoc _ he ih => exact ih.tail he
      exact hpath b _ (continueOuter_path b)
    · have hedges : ∀ u v, continueOuter.Edge u v → u < v ∨ v = 1 ∧ u = 3 ∨ v = 3 ∧ u = 4 := by decide
      exact (hedges u v huv.1).resolve_right fun hback =>
        huv.2 ((continueOuter_isBackEdge u v).2 hback).2
  numberOfPredecessors_lt := by decide
  isLoopHeader_iff b := by
    simp only [IsHeader, continueOuter_isBackEdge]
    revert b
    decide
  mem_backEdges h e := by
    rw [continueOuter_isBackEdge]
    revert h e
    decide
  count_backEdges := by decide
  mem_blocks h b hh := by
    constructor
    · intro hb
      have hback : ∀ h e, e ∈ continueOuterInformation.backEdges h →
          IsBackEdge continueOuter.Edge continueOuter.entryBlock e h := fun h e he => by
        rw [continueOuter_isBackEdge]
        revert h e
        decide
      have hnext : ∀ h b, continueOuterInformation.isLoopHeader h = true →
          b ∈ continueOuterInformation.blocks h → b = h ∨ b ∈ continueOuterInformation.backEdges h ∨
            ∃ e ∈ continueOuterInformation.backEdges h, continueOuter.Edge b e ∧ e ≠ h := by
        decide
      rcases hnext h b hh hb with rfl | hb | ⟨e, he, hbe, hne⟩
      · exact .header
      · exact .inr ⟨b, hback h b hb, .refl⟩
      · exact .inr ⟨e, hback h e he, .single ⟨hbe, hne⟩⟩
    · intro hb
      have hpath := hb.dominates _ (continueOuter_path _)
      by_cases hb5 : b = 5
      · subst hb5
        -- nothing leaves the last block
        rcases hb with rfl | ⟨e, hback, hwalk⟩
        · exact absurd hh (by decide)
        · rcases cases_head hwalk with rfl | ⟨x, hstep, -⟩
          · rw [continueOuter_isBackEdge] at hback
            exact absurd hback (by omega)
          · exact absurd hstep.1 not_mem_nil
      · clear hb
        revert h b
        decide
  loopOf_eq_some := by decide
  loopOf_eq_none := by decide

/-- If a header has a predecessor with another successor, a loop may end in a block that is no back edge:
    both loops have one forward predecessor, the order is that of the numbers, and the block `4`, which
    is the last one of the outer loop, leads to the inner header only. -/
theorem linearizeGraph_continueOuter : continueOuter.ReducibleLoops continueOuterInformation ∧
      (∀ h, continueOuterInformation.isLoopHeader h = true →
        continueOuter.numberOfForwardPredecessors continueOuterInformation h = 1) ∧
      continueOuter.linearizeGraph continueOuterInformation = some [0, 1, 2, 3, 4, 5] ∧
      continueOuterInformation.isLoopHeader 1 = true ∧ continueOuterInformation.blocks 1 = {1, 2, 3, 4} ∧
      4 ∉ continueOuterInformation.backEdges 1 :=
  ⟨continueOuter_reducibleLoops, by decide, by decide, by decide, by decide, by decide⟩

end HGraph

end Art
