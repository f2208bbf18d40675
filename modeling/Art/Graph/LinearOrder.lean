import Art.Dominators.Graph
import Art.Lib.NaturalLoops

/-!
# Linear order of blocks

`LinearizeGraphInternal` of `compiler/optimizing/linear_order.cc`: a block is put on the worklist when all
its forward predecessors are in the order, above the blocks of the loops that contain it.
-/

namespace Art

open NaturalLoops List
open Finset (mem_sdiff univ)

/-- `HLoopInformation` of all loops, which are known by their headers. -/
structure LoopInformation (n : ℕ) where
  isLoopHeader : Fin n → Bool
  backEdges : Fin n → List (Fin n)
  blocks : Fin n → Finset (Fin n)
  /-- `GetLoopInformation()` of a block. -/
  loopOf : Fin n → Option (Fin n)

namespace HGraph

variable {n : ℕ} (g : HGraph n) (loops : LoopInformation n)

/-! ## The code -/

def isInnerLoop : Option (Fin n) → Option (Fin n) → Bool
  | some outer, some inner => decide (inner ≠ outer) && decide (inner ∈ loops.blocks outer)
  | _, _ => false

/-- `AddToListForLinearization`; the last block of the worklist comes first. -/
def addToListForLinearization (block : Fin n) : List (Fin n) → List (Fin n)
  | [] => [block]
  | current :: rest =>
    if decide (loops.loopOf block = loops.loopOf current) || (loops.loopOf current).isNone ||
        isInnerLoop loops (loops.loopOf current) (loops.loopOf block) then
      block :: current :: rest
    else current :: addToListForLinearization block rest

/-- The variables of `LinearizeGraphInternal`. -/
structure Linearization (n : ℕ) where
  forwardPredecessors : Fin n → BitVec 32
  worklist : List (Fin n)
  /-- `linear_order`, as far as it has been written. -/
  order : List (Fin n)

/-- `forward_predecessors` at the start. -/
def numberOfForwardPredecessors (b : Fin n) : ℕ :=
  if loops.isLoopHeader b then g.numberOfPredecessors b - (loops.backEdges b).length
  else g.numberOfPredecessors b

/-- The body of the loop over the successors. -/
def visitSuccessor (s : Linearization n) (successor : Fin n) : Linearization n :=
  { s with
    worklist :=
      if s.forwardPredecessors successor = 1 then
        addToListForLinearization loops successor s.worklist
      else s.worklist
    forwardPredecessors :=
      Function.update s.forwardPredecessors successor (s.forwardPredecessors successor - 1) }

/-- The body of the main loop. -/
def linearizeStep (s : Linearization n) : Option (Linearization n) :=
  match s.worklist with
  | [] => none
  | current :: rest =>
    some ((g.successors current).foldl (visitSuccessor loops)
      { s with worklist := rest, order := s.order ++ [current] })

def linearizeGraph : Option (List (Fin n)) :=
  (Loop.whileM (fun s => !s.worklist.isEmpty) (g.linearizeStep loops) n
    { forwardPredecessors := fun b => BitVec.ofNat 32 (g.numberOfForwardPredecessors loops b)
      worklist := [g.entryBlock]
      order := [] }).map Linearization.order

/-! ## Graphs with reducible loops -/

/-- All loops are natural loops, and the information on them is right. The number of predecessors of a
    block is a `uint32_t`. -/
structure ReducibleLoops : Prop where
  reducible : Reducible g.Edge g.entryBlock
  numberOfPredecessors_lt : ∀ b, g.numberOfPredecessors b < 2 ^ 32
  isLoopHeader_iff : ∀ b, loops.isLoopHeader b = true ↔ IsHeader g.Edge g.entryBlock b
  mem_backEdges : ∀ h e, e ∈ loops.backEdges h ↔ IsBackEdge g.Edge g.entryBlock e h
  count_backEdges : ∀ h, ∀ e ∈ loops.backEdges h, (loops.backEdges h).count e = (g.successors e).count h
  mem_blocks : ∀ h b, loops.isLoopHeader h = true → (b ∈ loops.blocks h ↔ InLoop g.Edge g.entryBlock h b)
  loopOf_eq_some : ∀ b h, loops.loopOf b = some h → loops.isLoopHeader h = true ∧
    b ∈ loops.blocks h ∧ ∀ k, loops.isLoopHeader k = true → b ∈ loops.blocks k → h ∈ loops.blocks k
  loopOf_eq_none : ∀ b, loops.loopOf b = none → ∀ h, loops.isLoopHeader h = true → b ∉ loops.blocks h

/-- A predecessor of a loop header has no other successor: critical edges have been split. -/
def HeaderEdgesSplit : Prop := ∀ u h, loops.isLoopHeader h = true → g.Edge u h → g.successors u = [h]

instance : DecidableRel g.Edge := fun u v => inferInstanceAs (Decidable (v ∈ g.successors u))

/-! ## The nesting of loops -/

/-- The first loop is the second one or contains it. -/
def Outer : Option (Fin n) → Option (Fin n) → Prop
  | none, _ => True
  | some _, none => False
  | some h, some k => k ∈ loops.blocks h

variable {g loops} (hg : g.ReducibleLoops loops)

include hg

variable {h b : Fin n}

lemma ReducibleLoops.blocks_trans {k : Fin n} (hh : loops.isLoopHeader h = true)
    (hk : loops.isLoopHeader k = true) (hkh : k ∈ loops.blocks h) (hb : b ∈ loops.blocks k) :
    b ∈ loops.blocks h :=
  (hg.mem_blocks h b hh).2 (((hg.mem_blocks h k hh).1 hkh).trans hg.reducible ((hg.mem_blocks k b hk).1 hb))

variable {a c : Fin n}

lemma ReducibleLoops.outer_trans (hab : Outer loops (loops.loopOf a) (loops.loopOf b))
    (hbc : Outer loops (loops.loopOf b) (loops.loopOf c)) :
    Outer loops (loops.loopOf a) (loops.loopOf c) := by
  cases ha : loops.loopOf a with
  | none => trivial
  | some h =>
    cases hb : loops.loopOf b with
    | none => rw [ha, hb] at hab; exact hab.elim
    | some k =>
      cases hc : loops.loopOf c with
      | none => rw [hb, hc] at hbc; exact hbc.elim
      | some m =>
        rw [ha, hb] at hab
        rw [hb, hc] at hbc
        exact hg.blocks_trans (hg.loopOf_eq_some a h ha).1 (hg.loopOf_eq_some b k hb).1 hab hbc

/-- The loops of a block contain the loop it is in. -/
lemma ReducibleLoops.outer_iff : Outer loops (loops.loopOf a) (loops.loopOf b) ↔
    ∀ h, loops.loopOf a = some h → b ∈ loops.blocks h := by
  cases ha : loops.loopOf a with
  | none => exact iff_of_true trivial fun h hh => by cases hh
  | some h =>
    have hheader := (hg.loopOf_eq_some a h ha).1
    have key : Outer loops (some h) (loops.loopOf b) ↔ b ∈ loops.blocks h := by
      cases hb : loops.loopOf b with
      | none => exact iff_of_false id (hg.loopOf_eq_none b hb h hheader)
      | some k =>
        obtain ⟨hk, hmem, hinner⟩ := hg.loopOf_eq_some b k hb
        exact ⟨fun hkh => hg.blocks_trans hheader hk hkh hmem, hinner h hheader⟩
    exact key.trans ⟨fun hb k hk => Option.some.inj hk ▸ hb, fun hb => hb h rfl⟩

/-- The loops around a block are nested. -/
lemma ReducibleLoops.outer_or_outer (hac : Outer loops (loops.loopOf a) (loops.loopOf c))
    (hbc : Outer loops (loops.loopOf b) (loops.loopOf c)) :
    Outer loops (loops.loopOf a) (loops.loopOf b) ∨ Outer loops (loops.loopOf b) (loops.loopOf a) := by
  rw [hg.outer_iff] at hac hbc
  cases ha : loops.loopOf a with
  | none => exact .inl trivial
  | some h =>
    cases hb : loops.loopOf b with
    | none => exact .inr trivial
    | some k =>
      have hh := (hg.loopOf_eq_some a h ha).1
      have hk := (hg.loopOf_eq_some b k hb).1
      exact (((hg.mem_blocks h c hh).1 (hac h ha)).nested hg.reducible
        ((hg.mem_blocks k c hk).1 (hbc k hb))).imp (hg.mem_blocks h k hh).2 (hg.mem_blocks k h hk).2

variable {v : Fin n}

/-- A forward edge to a block that is no header does not enter a loop. -/
lemma ReducibleLoops.outer_of_edge (he : g.Edge c v) (hv : loops.isLoopHeader v = false) :
    Outer loops (loops.loopOf v) (loops.loopOf c) := by
  refine hg.outer_iff.2 fun h hh => ?_
  obtain ⟨hheader, hmem, -⟩ := hg.loopOf_eq_some v h hh
  refine (hg.mem_blocks h c hheader).2 (((hg.mem_blocks h v hheader).1 hmem).of_edge he ?_)
  rintro rfl
  exact Bool.false_ne_true (hv.symm.trans hheader)

/-- A block with one successor leaves no loop. -/
lemma ReducibleLoops.mem_blocks_of_single (hh : loops.isLoopHeader h = true)
    (hc : c ∈ loops.blocks h) (hsingle : g.successors c = [v]) : v ∈ loops.blocks h := by
  refine (hg.mem_blocks h v hh).2 (((hg.mem_blocks h c hh).1 hc).of_single hg.reducible
    ((hg.isLoopHeader_iff h).1 hh) fun x hx => ?_)
  rw [Edge, hsingle] at hx
  exact mem_singleton.1 hx

lemma ReducibleLoops.outer_of_single (hsingle : g.successors c = [v]) :
    Outer loops (loops.loopOf c) (loops.loopOf v) :=
  hg.outer_iff.2 fun h hh =>
    have hc := hg.loopOf_eq_some c h hh
    hg.mem_blocks_of_single hc.1 hc.2.1 hsingle

/-! ## The worklist -/

/-- The comparison of `AddToListForLinearization`. -/
lemma ReducibleLoops.outer_iff_code (block current : Fin n) :
    (decide (loops.loopOf block = loops.loopOf current) || (loops.loopOf current).isNone ||
      isInnerLoop loops (loops.loopOf current) (loops.loopOf block)) = true ↔
        Outer loops (loops.loopOf current) (loops.loopOf block) := by
  cases hc : loops.loopOf current with
  | none => simp [Outer]
  | some h =>
    have hh := (hg.loopOf_eq_some current h hc).1
    have hself : h ∈ loops.blocks h := (hg.mem_blocks h h hh).2 .header
    cases hb : loops.loopOf block with
    | none => simp [Outer, isInnerLoop]
    | some k =>
      by_cases hkh : k = h
      · rw [hkh]
        simp [Outer, hself]
      · simp [Outer, isInnerLoop, hkh]

omit hg in
lemma addToListForLinearization_perm (loops : LoopInformation n) (block : Fin n) (worklist : List (Fin n)) :
    (addToListForLinearization loops block worklist).Perm (block :: worklist) := by
  induction worklist with
  | nil => exact .refl _
  | cons current rest ih =>
    rw [addToListForLinearization]
    split
    · exact .refl _
    · exact (ih.cons current).trans (.swap block current rest)

/-- Blocks of inner loops are on top of the worklist. -/
def Sorted (loops : LoopInformation n) (worklist : List (Fin n)) : Prop :=
  worklist.Pairwise fun x y => Outer loops (loops.loopOf y) (loops.loopOf x)

/-- A block whose loop is comparable to all on the worklist is put in its place. -/
lemma ReducibleLoops.sorted_add {block : Fin n} {worklist : List (Fin n)} (hsorted : Sorted loops worklist)
    (hcomparable : ∀ x ∈ worklist, Outer loops (loops.loopOf x) (loops.loopOf block) ∨
      Outer loops (loops.loopOf block) (loops.loopOf x)) :
    Sorted loops (addToListForLinearization loops block worklist) := by
  induction worklist with
  | nil => exact pairwise_singleton _ _
  | cons current rest ih =>
    obtain ⟨hcurrent, hrest⟩ := pairwise_cons.1 hsorted
    rw [addToListForLinearization]
    split
    next houter =>
      replace houter := (hg.outer_iff_code block current).1 houter
      refine pairwise_cons.2 ⟨fun x hx => ?_, hsorted⟩
      rcases mem_cons.1 hx with rfl | hx
      · exact houter
      · exact hg.outer_trans (hcurrent x hx) houter
    next hinner =>
      replace hinner := mt (hg.outer_iff_code block current).2 hinner
      refine pairwise_cons.2 ⟨fun x hx => ?_, ih hrest fun x hx => hcomparable x (mem_cons_of_mem current hx)⟩
      rcases mem_cons.1 ((addToListForLinearization_perm loops block rest).mem_iff.1 hx) with
        rfl | hx
      · exact (hcomparable current mem_cons_self).resolve_left hinner
      · exact hcurrent x hx

/-! ## Counting predecessors -/

/-- The number of edges from some blocks to a block. -/
def edgesFrom (g : HGraph n) (S : Finset (Fin n)) (b : Fin n) : ℕ := ∑ u ∈ S, (g.successors u).count b

variable {S : Finset (Fin n)}

omit hg in
lemma edgesFrom_insert (hc : c ∉ S) (b : Fin n) :
    g.edgesFrom (insert c S) b = g.edgesFrom S b + (g.successors c).count b := by
  rw [edgesFrom, Finset.sum_insert hc, add_comm]
  rfl

omit hg in
lemma edgesFrom_le (S : Finset (Fin n)) (b : Fin n) : g.edgesFrom S b ≤ g.numberOfPredecessors b :=
  Finset.sum_le_sum_of_subset (Finset.subset_univ S)

lemma ReducibleLoops.numberOfForwardPredecessors_eq (b : Fin n) : g.numberOfForwardPredecessors loops b =
      g.edgesFrom (univ \ (loops.backEdges b).toFinset) b := by
  have hback : (loops.backEdges b).length = g.edgesFrom (loops.backEdges b).toFinset b := by
    rw [edgesFrom, ← sum_toFinset_count_eq_length]
    exact Finset.sum_congr rfl fun e he =>
      hg.count_backEdges b e (mem_toFinset.1 he)
  have hsum : g.edgesFrom (univ \ (loops.backEdges b).toFinset) b +
      g.edgesFrom (loops.backEdges b).toFinset b = g.numberOfPredecessors b :=
    Finset.sum_sdiff (Finset.subset_univ _)
  rw [numberOfForwardPredecessors]
  split
  · omega
  next hheader =>
    have hnil : loops.backEdges b = [] := eq_nil_iff_forall_not_mem.2 fun e he =>
      hheader ((hg.isLoopHeader_iff b).2 ⟨e, (hg.mem_backEdges b e).1 he⟩)
    rw [hnil, toFinset_nil]
    rfl

/-- What is before a block of the set along forward edges is in the set. -/
def Closed (g : HGraph n) (S : Finset (Fin n)) : Prop :=
  ∀ u v, Forward g.Edge g.entryBlock u v → v ∈ S → u ∈ S

omit hg in
lemma Closed.mem_of_reaches (hS : Closed g S) {u : Fin n} (h : Reaches g.Edge g.entryBlock u v)
    (hv : v ∈ S) : u ∈ S := by
  induction h using Relation.ReflTransGen.head_induction_on with
  | refl => exact hv
  | head hstep _ ih => exact hS _ _ hstep ih

/-- Enough edges to a block have been seen when all its forward predecessors have. -/
lemma ReducibleLoops.ready_iff (hS : Closed g S) (b : Fin n) :
    g.numberOfForwardPredecessors loops b ≤ g.edgesFrom S b ↔
      ∀ u, Forward g.Edge g.entryBlock u b → u ∈ S := by
  rw [hg.numberOfForwardPredecessors_eq]
  constructor
  · intro hle u hu
    by_contra hnot
    -- no back edge has been seen either, since the block would be in the set
    have hsub : S ⊆ univ \ (loops.backEdges b).toFinset := by
      intro e he
      refine mem_sdiff.2 ⟨Finset.mem_univ e, fun hmem => hnot ?_⟩
      have hback := (hg.mem_backEdges b e).1 (mem_toFinset.1 hmem)
      exact hS u b hu (hS.mem_of_reaches (hg.reducible.reaches_of_dominates hback.2) he)
    have hu' : u ∈ univ \ (loops.backEdges b).toFinset := mem_sdiff.2 ⟨Finset.mem_univ u, fun hmem =>
        hu.2 ((hg.mem_backEdges b u).1 (mem_toFinset.1 hmem)).2⟩
    have hlt : g.edgesFrom S b < g.edgesFrom (univ \ (loops.backEdges b).toFinset) b :=
      Finset.sum_lt_sum_of_subset hsub hu' hnot (count_pos_iff.2 hu.1) fun _ _ _ => Nat.zero_le _
    omega
  · intro hall
    refine Finset.sum_le_sum_of_ne_zero fun u hu hcount => hall u ⟨?_, fun hdom => ?_⟩
    · exact count_pos_iff.1 (Nat.pos_of_ne_zero hcount)
    · have hedge : g.Edge u b := count_pos_iff.1 (Nat.pos_of_ne_zero hcount)
      exact (mem_sdiff.1 hu).2 (mem_toFinset.2 ((hg.mem_backEdges b u).2 ⟨hedge, hdom⟩))

end HGraph

end Art
