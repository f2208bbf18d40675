import Mathlib.Data.List.GetD
import Art.ParallelMove.NoSwap

/-!
# The recursion of the resolver

What `PerformMove` of the resolver with scratch locations does to the list of moves, and the rule
for its invariants: what holds across entering a move, dropping a redundant one and finishing
one holds across the recursion.
-/

namespace Art

open List MoveOperands
open Bool (and_eq_true not_eq_true')

variable {moves : List MoveOperands} {loc : Location} {m : MoveOperands}

namespace MoveOperands

lemma isEliminated_iff : m.isEliminated = true ↔ m.source = .invalid := by
  simp [isEliminated]

lemma not_isEliminated_iff : m.isEliminated = false ↔ m.source ≠ .invalid := by
  simp [isEliminated]

lemma isPending_iff : m.isPending = true ↔ m.destination = .invalid ∧ m.source ≠ .invalid := by
  simp [isPending]

lemma isActive_iff : m.isActive = true ↔ m.source ≠ .invalid ∧ m.destination ≠ .invalid := by
  simp only [isActive, isEliminated, isPending]
  by_cases hs : m.source = .invalid <;> by_cases hd : m.destination = .invalid <;> simp [hs, hd]

lemma blocks_iff : m.blocks loc = true ↔ m.source ≠ .invalid ∧ m.source.overlapsWith loc = true := by
  simp [blocks, isEliminated]

end MoveOperands

namespace ParallelMoveResolverNoSwap

variable {β : Type} {r r' r'' : ParallelMoveResolverNoSwap β}

/-! ## Primitive changes -/

/-- A move that has been entered has no destination until its blockers have been performed. -/
abbrev mark (r : ParallelMoveResolverNoSwap β) (i : ℕ) : ParallelMoveResolverNoSwap β :=
  r.modifyMove i (·.setDestination .invalid)

/-- `UpdateMoveSource`, for one move. -/
def updateSource (old new : Location) (m : MoveOperands) : MoveOperands :=
  if m.source = old then m.setSource new else m

lemma move_modifyMove (i j : ℕ) (f : MoveOperands → MoveOperands) :
    (r.modifyMove i f).move j = if j = i ∧ i < r.moves.length then f (r.move j) else r.move j := by
  rw [move, move, modifyMove, getD_eq_getElem?_getD, getElem?_modify, getD_eq_getElem?_getD]
  by_cases hji : j = i
  · subst hji
    by_cases hlt : j < r.moves.length
    · rw [if_pos ⟨rfl, hlt⟩, getElem?_eq_getElem hlt]
      simp
    · rw [if_neg fun h => hlt h.2, getElem?_eq_none (by omega)]
      rfl
  · rw [if_neg fun h => hji h.1]
    simp [Ne.symm hji]

variable {i j : ℕ}

lemma move_modifyMove_of_ne (h : j ≠ i) (f : MoveOperands → MoveOperands) :
    (r.modifyMove i f).move j = r.move j := by
  rw [move_modifyMove, if_neg fun h' => h h'.1]

lemma move_modifyMove_self (h : i < r.moves.length) (f : MoveOperands → MoveOperands) :
    (r.modifyMove i f).move i = f (r.move i) := by
  rw [move_modifyMove, if_pos ⟨rfl, h⟩]

lemma source_eliminate (h : i < r.moves.length) :
    ((r.modifyMove i (·.eliminate)).move i).source = .invalid := by
  rw [move_modifyMove_self h]
  rfl

lemma ne_of_source_ne (h : i < r.moves.length)
    (hj : ((r.modifyMove i (·.eliminate)).move j).source ≠ .invalid) : j ≠ i :=
  fun hji => hj (by rw [hji, source_eliminate h])

lemma blocks_setDestination (i : ℕ) (d loc : Location)
    (j : ℕ) : ((r.modifyMove i (·.setDestination d)).move j).blocks loc = (r.move j).blocks loc := by
  rw [move_modifyMove]
  split <;> rfl

lemma move_updateMoveSource {old : Location} (h : old ≠ .invalid) (new : Location) (j : ℕ) :
    (r.updateMoveSource old new).move j = updateSource old new (r.move j) := by
  rw [move, move, updateMoveSource, getD_eq_getElem?_getD, getElem?_map, getD_eq_getElem?_getD]
  rcases r.moves[j]? with _ | m
  · exact (if_neg (Ne.symm h)).symm
  · rfl

/-- A move beyond the list counts as eliminated. -/
lemma lt_of_not_isEliminated (h : (r.move j).isEliminated = false) : j < r.moves.length := by
  by_contra hj
  rw [move, getD_eq_default _ _ (by omega)] at h
  cases h

lemma mem_moves_iff : m ∈ r.moves ↔ ∃ j < r.moves.length, r.move j = m := by
  rw [mem_iff_getElem]
  refine ⟨fun ⟨j, hj, h⟩ => ⟨j, hj, ?_⟩, fun ⟨j, hj, h⟩ => ⟨j, hj, ?_⟩⟩
  · rw [move, getD_eq_getElem _ _ hj, h]
  · rw [← h, move, getD_eq_getElem]

lemma isBlockedByMoves_iff : r.isBlockedByMoves loc = true ↔
    (∃ p ∈ r.pendingMoves, p.blocks loc = true) ∨ ∃ j, (r.move j).blocks loc = true := by
  rw [isBlockedByMoves, Bool.or_eq_true, any_eq_true, any_eq_true]
  refine or_congr_right ⟨fun ⟨m, hm, hb⟩ => ?_, fun ⟨j, hb⟩ => ?_⟩
  · obtain ⟨j, -, rfl⟩ := mem_moves_iff.1 hm
    exact ⟨j, hb⟩
  · refine ⟨r.move j, mem_moves_iff.2 ⟨j, lt_of_not_isEliminated ?_, rfl⟩, hb⟩
    rw [blocks, and_eq_true, not_eq_true'] at hb
    exact hb.1

/-! ## What a part of the run keeps -/

/-- The moves that are in progress stay so, and the others are eliminated or keep their destination;
    sources are changed by location. -/
structure Frame (r r' : ParallelMoveResolverNoSwap β) : Prop where
  length : r'.moves.length = r.moves.length
  source : ∃ f : Location → Location, ∀ j, (r'.move j).source ≠ .invalid →
    (r'.move j).source = f (r.move j).source ∧ (r.move j).source ≠ .invalid
  destination : ∀ j, (r'.move j).source ≠ .invalid → (r'.move j).destination = (r.move j).destination
  pending : ∀ j, (r.move j).isPending = true → (r'.move j).source ≠ .invalid
  events : r.events <+: r'.events

lemma Frame.refl (r : ParallelMoveResolverNoSwap β) : Frame r r :=
  ⟨rfl, ⟨id, fun _ h => ⟨rfl, h⟩⟩, fun _ _ => rfl, fun _ h => (isPending_iff.1 h).2, prefix_rfl⟩

lemma Frame.isPending (h : Frame r r') (hj : (r.move j).isPending = true) : (r'.move j).isPending = true :=
  isPending_iff.2 ⟨(h.destination j (h.pending j hj)).trans (isPending_iff.1 hj).1, h.pending j hj⟩

lemma Frame.trans (h : Frame r r') (h' : Frame r' r'') : Frame r r'' := by
  obtain ⟨f, hf⟩ := h.source
  obtain ⟨g, hg⟩ := h'.source
  refine ⟨h'.length.trans h.length, ⟨g ∘ f, fun j hj => ?_⟩, fun j hj => ?_, fun j hj => ?_,
    h.events.trans h'.events⟩
  · obtain ⟨hgj, hj'⟩ := hg j hj
    obtain ⟨hfj, hj''⟩ := hf j hj'
    exact ⟨by rw [hgj, hfj]; rfl, hj''⟩
  · exact (h'.destination j hj).trans (h.destination j (hg j hj).2)
  · exact h'.pending j (h.isPending hj)

lemma Frame.isActive (h : Frame r r') (hj : (r'.move j).isActive = true) : (r.move j).isActive = true := by
  obtain ⟨f, hf⟩ := h.source
  obtain ⟨hs, hd⟩ := isActive_iff.1 hj
  exact isActive_iff.2 ⟨(hf j hs).2, h.destination j hs ▸ hd⟩

/-- The moves that are still to be done and not in progress. -/
def active (r : ParallelMoveResolverNoSwap β) : Finset ℕ :=
  (Finset.range r.moves.length).filter fun j => (r.move j).isActive = true

lemma mem_active : j ∈ r.active ↔ (r.move j).isActive = true := by
  rw [active, Finset.mem_filter, Finset.mem_range, and_iff_right_iff_imp]
  exact fun h => lt_of_not_isEliminated (not_isEliminated_iff.2 (isActive_iff.1 h).1)

lemma Frame.active_subset (h : Frame r r') : r'.active ⊆ r.active := fun _ hj =>
  mem_active.2 (h.isActive (mem_active.1 hj))

/-- What finishing a move does: it is eliminated, and sources are changed by location. -/
structure FinishFrame (i : ℕ) (r r' : ParallelMoveResolverNoSwap β) : Prop where
  length : r'.moves.length = r.moves.length
  eliminated : (r'.move i).source = .invalid
  other : ∃ f : Location → Location, (∀ loc, f loc = .invalid ↔ loc = .invalid) ∧
    ∀ j ≠ i, r'.move j = (r.move j).setSource (f (r.move j).source)
  events : r.events <+: r'.events

variable (hi : (r.move i).isActive = true)

include hi in
/-- A move that is marked as pending and finished is eliminated; the others are kept. -/
lemma frame_of_finishFrame (h : Frame (r.mark i) r') (hf : FinishFrame i r' r'') : Frame r r'' := by
  obtain ⟨g, hg⟩ := h.source
  obtain ⟨f, hfv, hf'⟩ := hf.other
  have hmark : ∀ j ≠ i, (r.mark i).move j = r.move j := fun j hj =>
    move_modifyMove_of_ne hj _
  have hne : ∀ j, (r''.move j).source ≠ .invalid → j ≠ i := fun j hj hji =>
    hj (hji ▸ hf.eliminated)
  have hvalid : ∀ j, (r''.move j).source ≠ .invalid → (r'.move j).source ≠ .invalid :=
    fun j hj h0 => hj (by rw [hf' j (hne j hj)]; exact (hfv _).2 h0)
  refine ⟨?_, ⟨f ∘ g, fun j hj => ?_⟩, fun j hj => ?_, fun j hj => ?_, ?_⟩
  · rw [hf.length, h.length]
    exact length_modify ..
  · obtain ⟨hgj, hj'⟩ := hg j (hvalid j hj)
    rw [hmark j (hne j hj)] at hgj hj'
    refine ⟨?_, hj'⟩
    rw [hf' j (hne j hj), Function.comp_apply, ← hgj]
    rfl
  · rw [hf' j (hne j hj), ← hmark j (hne j hj), ← h.destination j (hvalid j hj)]
    rfl
  · have hji : j ≠ i := by
      rintro rfl
      exact (isActive_iff.1 hi).2 (isPending_iff.1 hj).1
    have := h.pending j (by rwa [hmark j hji])
    rw [hf' j hji]
    exact fun h0 => this ((hfv _).1 h0)
  · exact h.events.trans hf.events

include hi in
/-- Dropping a move that is not in progress. -/
lemma frame_eliminate : Frame r (r.modifyMove i (·.eliminate)) := by
  have hlt := lt_of_not_isEliminated (not_isEliminated_iff.2 (isActive_iff.1 hi).1)
  have hne := fun j => ne_of_source_ne hlt (j := j)
  refine ⟨length_modify .., ⟨id, fun j hj => ?_⟩, fun j hj => ?_, fun j hj => ?_, prefix_rfl⟩
  · have hmove := move_modifyMove_of_ne (r := r) (hne j hj) (·.eliminate)
    rw [hmove] at hj ⊢
    exact ⟨rfl, hj⟩
  · rw [move_modifyMove_of_ne (hne j hj)]
  · obtain ⟨hd, hs⟩ := isPending_iff.1 hj
    have hji : j ≠ i := by
      rintro rfl
      exact (isActive_iff.1 hi).2 hd
    rwa [move_modifyMove_of_ne hji]

/-- The invariants of `PerformMove`, for the given destinations of the moves. -/
structure Invariant (alloc : ScratchAllocator β) (dest : ℕ → Location)
    (Inv : ParallelMoveResolverNoSwap β → Prop) : Prop where
  destination : ∀ r j, Inv r → (r.move j).isActive = true → (r.move j).destination = dest j ∧
    (dest j).isConstant = false
  drop : ∀ r i, Inv r → (r.move i).isActive = true → (r.move i).source = (r.move i).destination →
    Inv (r.modifyMove i (·.eliminate))
  mark : ∀ r i, Inv r → (r.move i).isActive = true → (r.move i).source.isConstant = false →
    (r.move i).source ≠ (r.move i).destination → Inv (r.modifyMove i (·.setDestination .invalid))
  finish : ∀ r i, Inv r → (r.move i).isPending = true → Inv (finishMove alloc i (dest i) r) ∧
    FinishFrame i r (finishMove alloc i (dest i) r)

lemma isRedundant_iff_of_isActive (h : m.isActive = true) :
    m.isRedundant = true ↔ m.source = m.destination := by
  obtain ⟨hs, hd⟩ := isActive_iff.1 h
  simp [isRedundant, isEliminated, hs, hd]

include hi in
lemma card_active_mark : (r.mark i).active.card < r.active.card := by
  refine Finset.card_lt_card ⟨fun j hj => ?_, fun hsub => ?_⟩
  · by_cases hji : j = i
    · exact mem_active.2 (hji ▸ hi)
    · rw [mem_active, move_modifyMove_of_ne hji] at hj
      exact mem_active.2 hj
  · have hmem := mem_active.1 (hsub (mem_active.2 hi))
    have hlt := lt_of_not_isEliminated (not_isEliminated_iff.2 (isActive_iff.1 hi).1)
    rw [move_modifyMove_self hlt] at hmem
    exact (isActive_iff.1 hmem).2 rfl

/-- The rule for the loop of `PerformMove`, for a move that is not redundant: it performs the active
    moves whose source is in the way, and the move is finished in the state after it. -/
lemma performMove_loop (alloc : ScratchAllocator β) (fuel : ℕ)
    {P : ℕ → ParallelMoveResolverNoSwap β → Prop} (hi : (r.move i).isActive = true)
    (hred : (r.move i).source ≠ (r.move i).destination)
    (h : P 0 (r.mark i))
    (hstep : ∀ k r1, P k r1 → (r1.move k).isActive = true →
      (r1.move k).source.overlapsWith (r.move i).destination = true →
      ∃ r2, performMove alloc fuel k r1 = some r2 ∧ P (k + 1) r2)
    (hskip : ∀ k r1, P k r1 → ((r1.move k).isActive = true →
      (r1.move k).source.overlapsWith (r.move i).destination = false) → P (k + 1) r1) :
    ∃ r1, performMove alloc (fuel + 1) i r =
      some (finishMove alloc i (r.move i).destination r1) ∧ P r.moves.length r1 := by
  rw [performMove, if_neg fun h => hred ((isRedundant_iff_of_isActive hi).1 h)]
  obtain ⟨r1, hloop, h1⟩ := Loop.foldlM_range (P := P)
    (f := fun r1 k => if (r1.move k).blocks _ && !(r1.move k).isPending then
      performMove alloc fuel k r1 else some r1)
    (n := (r.mark i).moves.length) h fun k _ r1 h1 => by
      split
      case isTrue hk =>
        rw [and_eq_true, blocks_iff] at hk
        refine hstep k r1 h1 ?_ hk.1.2
        rw [isActive, hk.2, Bool.and_true, not_eq_true', not_isEliminated_iff]
        exact hk.1.1
      case isFalse hk =>
        refine ⟨r1, rfl, hskip k r1 h1 fun hactive => ?_⟩
        rw [isActive, and_eq_true] at hactive
        rw [hactive.2, Bool.and_true, blocks, hactive.1] at hk
        exact Bool.not_eq_true _ ▸ hk
  have hlen : (r.mark i).moves.length = r.moves.length := length_modify ..
  exact ⟨r1, Option.bind_eq_some_iff.2 ⟨r1, hloop, rfl⟩, hlen ▸ h1⟩

variable {Inv : ParallelMoveResolverNoSwap β → Prop} {alloc : ScratchAllocator β} {dest : ℕ → Location}
  (hInv : Invariant alloc dest Inv)

include hInv in
/-- The state in which the loop of `PerformMove` starts. -/
lemma Invariant.mark_move (h : Inv r) (hi : (r.move i).isActive = true)
    (hc : (r.move i).source.isConstant = false) (hred : (r.move i).source ≠ (r.move i).destination) :


    Inv (r.mark i) ∧ ((r.mark i).move i).isPending = true := by
  refine ⟨hInv.mark r i h hi hc hred, ?_⟩
  rw [move_modifyMove_self (lt_of_not_isEliminated (not_isEliminated_iff.2 (isActive_iff.1 hi).1))]
  exact isPending_iff.2 ⟨rfl, (isActive_iff.1 hi).1⟩

include hInv in
/-- A move in the way of a destination is not from a constant. -/
lemma Invariant.isConstant_of_overlaps (h : Inv r) (hi : (r.move i).isActive = true)
    (hov : loc.overlapsWith (r.move i).destination = true) : loc.isConstant = false := by
  obtain ⟨hdest, hdc⟩ := hInv.destination r i h hi
  by_contra hconst
  rw [hdest, Location.overlapsWith_of_isConstant (by simpa using hconst) hdc] at hov
  cases hov

include hInv in
/-- `PerformMove` returns, eliminates its move and keeps the invariant. -/
lemma performMove_rule {fuel : ℕ} (h : Inv r) (hi : (r.move i).isActive = true)
    (hc : (r.move i).source.isConstant = false) (hfuel : r.active.card ≤ fuel) :
    ∃ r', performMove alloc fuel i r = some r' ∧ Inv r' ∧ Frame r r' ∧ (r'.move i).source = .invalid := by
  induction fuel generalizing i r with
  | zero =>
    exact absurd (mem_active.2 hi) (Finset.card_eq_zero.1 (Nat.le_zero.1 hfuel) ▸ Finset.notMem_empty i)
  | succ fuel ih =>
    by_cases hred : (r.move i).source = (r.move i).destination
    · have hlt := lt_of_not_isEliminated (not_isEliminated_iff.2 (isActive_iff.1 hi).1)
      rw [performMove, if_pos ((isRedundant_iff_of_isActive hi).2 hred)]
      refine ⟨_, rfl, hInv.drop r i h hi hred, frame_eliminate hi, ?_⟩
      exact source_eliminate hlt
    obtain ⟨hmark, hpending⟩ := hInv.mark_move h hi hc hred
    -- every move that the loop performs is active, and its fuel is enough
    obtain ⟨r1, hloop, h1, hframe⟩ := performMove_loop alloc fuel
      (P := fun _ r1 => Inv r1 ∧ Frame (r.mark i) r1) hi hred
      ⟨hmark, Frame.refl _⟩
      (fun k r1 h1 hk hov => by
        obtain ⟨r2, hr2, h2, hframe, -⟩ := ih h1.1 hk (hInv.isConstant_of_overlaps h hi hov)
          ((Finset.card_le_card h1.2.active_subset).trans
            (Nat.lt_succ_iff.1 ((card_active_mark hi).trans_le hfuel)))
        exact ⟨r2, hr2, h2, h1.2.trans hframe⟩)
      fun _ _ h1 _ => h1
    obtain ⟨hfin, hff⟩ := hInv.finish r1 i h1 (hframe.isPending hpending)
    rw [← (hInv.destination r i h hi).1] at hfin hff
    exact ⟨_, hloop, hfin, frame_of_finishFrame hi hframe hff, hff.eliminated⟩

/-! ## The loop over pending moves -/

section

variable (alloc : ScratchAllocator β)

/-- Freeing scratch locations changes nothing else. -/
lemma freeScratches_eq (pendingSource : Location) (fuel i : ℕ) (r : ParallelMoveResolverNoSwap β) :
    ∃ scratches backend, freeScratches alloc pendingSource fuel i r = { r with scratches, backend } ∧
      ∀ loc ∈ scratches, loc ∈ r.scratches := by
  induction fuel generalizing i r with
  | zero => exact ⟨_, _, rfl, fun _ h => h⟩
  | succ fuel ih =>
    rw [freeScratches]
    split
    · exact ⟨_, _, rfl, fun _ h => h⟩
    · split
      · obtain ⟨scratches, backend, heq, hsub⟩ := ih (i + 1) { r with
          scratches := if (alloc.freeScratchLocation r _).1 then
            r.scratches.erase _ else r.scratches
          backend := (alloc.freeScratchLocation r _).2 }
        refine ⟨scratches, backend, heq, fun loc hloc => ?_⟩
        have hmem := hsub loc hloc
        split at hmem
        · exact mem_of_mem_erase hmem
        · exact hmem
      · exact ih (i + 1) r

lemma performPendingMove_eq (m : MoveOperands) (r : ParallelMoveResolverNoSwap β) :
    ∃ scratches backend, performPendingMove alloc m r = { r.updateMoveSource m.source m.destination with
        pendingMoves := r.pendingMoves.erase m
        events := r.events ++ [.emitMove m.source m.destination]
        scratches, backend } ∧ ∀ loc ∈ scratches, loc ∈ r.scratches :=
  freeScratches_eq alloc m.source _ _ _

/-- The rule for the loop over pending moves: it stops when none can be performed. -/
lemma performPendingMoves_rule (source : Location) {P : ParallelMoveResolverNoSwap β → Prop}
    (hstep : ∀ r m, P r → r.getUnblockedPendingMove source = some m → P (performPendingMove alloc m r))
    {fuel : ℕ} (h : P r) (hfuel : r.pendingMoves.length ≤ fuel) :
    P (performPendingMoves alloc source fuel r) ∧
      (performPendingMoves alloc source fuel r).getUnblockedPendingMove source = none := by
  induction fuel generalizing r with
  | zero =>
    refine ⟨h, ?_⟩
    rw [performPendingMoves, getUnblockedPendingMove, length_eq_zero_iff.1 (Nat.le_zero.1 hfuel)]
    rfl
  | succ fuel ih =>
    rw [performPendingMoves]
    cases hm : r.getUnblockedPendingMove source with
    | none => exact ⟨h, hm⟩
    | some m =>
      refine ih (hstep r m h hm) ?_
      obtain ⟨_, _, heq, -⟩ := performPendingMove_eq alloc m r
      rw [heq]
      have hmem : m ∈ r.pendingMoves := mem_of_find?_eq_some hm
      have := length_erase_of_mem hmem
      show (r.pendingMoves.erase m).length ≤ fuel
      omega

end

/-! ## The parallel move -/

/-- The locations of a parallel move, as `AddMove` checks them. -/
structure WellFormed (parallelMove : List MoveOperands) : Prop where
  valid : ∀ m ∈ parallelMove, m.source ≠ .invalid ∧ m.destination ≠ .invalid
  notConstant : ∀ m ∈ parallelMove, m.destination.isConstant = false
  disjoint : parallelMove.Pairwise fun m m' => m.destination.overlapsWith m'.destination = false

/-- A location that has no part in the parallel move. -/
structure Outside (parallelMove : List MoveOperands) (loc : Location) : Prop where
  valid : loc ≠ .invalid
  notConstant : loc.isConstant = false
  source : ∀ m ∈ parallelMove, m.source.overlapsWith loc = false
  destination : ∀ m ∈ parallelMove, m.destination.overlapsWith loc = false

/-- `AllocateScratchLocationFor` returns a location of `GetScratchLocation` or one that has no part
    in the parallel move and is not in use; `AddScratchLocation` is called for the latter kind. -/
structure ScratchOk (parallelMove : List MoveOperands) (alloc : ScratchAllocator β) : Prop where
  location : ∀ r kind, (∃ kind', (alloc.allocateScratchLocationFor r kind).1 = r.getScratchLocation kind' ∧
        (alloc.allocateScratchLocationFor r kind).1 ≠ .invalid) ∨
    Outside parallelMove (alloc.allocateScratchLocationFor r kind).1 ∧
      r.isBlockedByMoves (alloc.allocateScratchLocationFor r kind).1 = false
  added : ∀ r kind, ∀ loc ∈ (alloc.allocateScratchLocationFor r kind).2.1, Outside parallelMove loc

/-- The operands of the moves at the start. -/
def operandsAt (moves : List MoveOperands) (j : ℕ) : MoveOperands := moves.getD j ⟨.invalid, .invalid, false⟩

/-- The destination of a move. -/
abbrev targetAt (moves : List MoveOperands) (i : ℕ) : Location := (operandsAt moves i).destination

/-- A move gets its destination back when it is emitted. -/
abbrev restore (moves : List MoveOperands) (r : ParallelMoveResolverNoSwap β) (i : ℕ) :
    ParallelMoveResolverNoSwap β :=
  r.modifyMove i (·.setDestination (targetAt moves i))

/-- What holds of the lists during the run, for the moves at the start. -/
structure Base (moves : List MoveOperands) (r : ParallelMoveResolverNoSwap β) : Prop where
  length : r.moves.length = moves.length
  eliminated : ∀ j, (r.move j).source = .invalid → (r.move j).destination = .invalid
  destination : ∀ j, (r.move j).destination ≠ .invalid →
    (r.move j).destination = (targetAt moves j)
  constant : ∀ j, (r.move j).source ≠ .invalid →
    (r.move j).source.isConstant = (operandsAt moves j).source.isConstant
  inProgress : ∀ j, (r.move j).isPending = true → (r.move j).source.isConstant = false
  pendingSource : ∀ p ∈ r.pendingMoves, p.source ≠ .invalid ∧ p.source.isConstant = false
  pendingDestination : ∀ p ∈ r.pendingMoves, ∃ j < moves.length, (r.move j).source = .invalid ∧
    p.destination = (targetAt moves j)
  scratches : ∀ loc ∈ r.scratches, Outside moves loc

lemma operandsAt_mem (hj : j < moves.length) : operandsAt moves j ∈ moves := by
  rw [operandsAt, getD_eq_getElem]
  exact getElem_mem hj

lemma exists_operandsAt (hm : m ∈ moves) : ∃ j < moves.length, operandsAt moves j = m := by
  obtain ⟨j, hj, hjm⟩ := mem_iff_getElem.1 hm
  exact ⟨j, hj, by rw [operandsAt, getD_eq_getElem _ _ hj, hjm]⟩

lemma WellFormed.operandsAt_disjoint (hw : WellFormed moves) {k : ℕ} (hj : j < moves.length)
    (hk : k < moves.length) (hjk : j ≠ k) :
    (targetAt moves j).overlapsWith (targetAt moves k) = false := by
  have hd := pairwise_iff_getElem.1 hw.disjoint
  rw [targetAt, targetAt, operandsAt, operandsAt, getD_eq_getElem, getD_eq_getElem]
  rcases lt_or_gt_of_ne hjk with h | h
  · exact hd j k hj hk h
  · rw [Location.overlapsWith_comm]
    exact hd k j hk hj h

section

variable {i : ℕ}

lemma Base.lt (h : Base moves r) (hi : (r.move i).source ≠ .invalid) : i < moves.length :=
  h.length ▸ lt_of_not_isEliminated (not_isEliminated_iff.2 hi)

variable {source : Location}

lemma move_emitAndUpdate (hi : i < r.moves.length) (hs : source ≠ .invalid) (target : Location)
    (j : ℕ) : (r.emitAndUpdate i source target).move j =
      if j = i then (r.move i).eliminate else updateSource source target (r.move j) := by
  rw [emitAndUpdate, move_updateMoveSource hs]
  by_cases hji : j = i
  · subst hji
    rw [if_pos rfl, move_modifyMove_self (r := r.emitMove source target) hi]
    exact if_neg (Ne.symm hs)
  · rw [if_neg hji, move_modifyMove_of_ne hji]
    rfl

variable {old new : Location} {alloc : ScratchAllocator β}

lemma updateSource_source (ho : old ≠ .invalid) (hn : new ≠ .invalid) :
    (updateSource old new m).source = .invalid ↔ m.source = .invalid := by
  rw [updateSource]
  split
  case isTrue h => exact ⟨fun h' => absurd h' hn, fun h' => absurd (h.symm.trans h') ho⟩
  case isFalse => rfl

@[simp] lemma updateSource_destination : (updateSource old new m).destination = m.destination := by
  rw [updateSource]
  split <;> rfl

/-- A change by which no move is revived and no pending move added. -/
lemma Base.of_move (h : Base moves r) (hlen : r'.moves.length = r.moves.length)
    (hpend : ∀ p ∈ r'.pendingMoves, p ∈ r.pendingMoves)
    (hscr : ∀ loc ∈ r'.scratches, Outside moves loc)
    (hs : ∀ j, (r'.move j).source ≠ .invalid → (r.move j).source ≠ .invalid ∧
      (r'.move j).source.isConstant = (r.move j).source.isConstant)
    (hd : ∀ j, (r'.move j).destination = .invalid ∨ (r'.move j).source ≠ .invalid ∧
      (r'.move j).destination = (targetAt moves j))
    (hp : ∀ j, (r'.move j).isPending = true → (r.move j).source.isConstant = false) : Base moves r' := by
  refine ⟨hlen.trans h.length, fun j hj => ?_, fun j hj => ?_, fun j hj => ?_, fun j hj => ?_,
    fun p hp => h.pendingSource p (hpend p hp), fun p hp => ?_, hscr⟩
  · exact (hd j).elim id fun h' => absurd hj h'.1
  · exact (hd j).elim (fun h' => absurd h' hj) And.right
  · exact (hs j hj).2.trans (h.constant j (hs j hj).1)
  · exact (hs j (isPending_iff.1 hj).2).2.trans (hp j hj)
  · obtain ⟨j, hj, hsj, hdest⟩ := h.pendingDestination p (hpend p hp)
    exact ⟨j, hj, not_not.1 fun hne => (hs j hne).1 hsj, hdest⟩

/-- A move shows its destination, or none. -/
lemma Base.destination_or (h : Base moves r) (j : ℕ) : (r.move j).destination = .invalid ∨
    (r.move j).source ≠ .invalid ∧ (r.move j).destination = (targetAt moves j) := by
  by_cases hd : (r.move j).destination = .invalid
  · exact .inl hd
  · exact .inr ⟨fun hs => hd (h.eliminated j hs), h.destination j hd⟩

/-- A change of one move. -/
lemma Base.modifyMove (h : Base moves r) (hi : i < r.moves.length) {f : MoveOperands → MoveOperands}
    (hs : (f (r.move i)).source ≠ .invalid → (r.move i).source ≠ .invalid ∧
      (f (r.move i)).source.isConstant = (r.move i).source.isConstant)
    (hd : (f (r.move i)).destination = .invalid ∨ (f (r.move i)).source ≠ .invalid ∧
      (f (r.move i)).destination = (targetAt moves i))
    (hp : (f (r.move i)).isPending = true → (r.move i).source.isConstant = false) :
    Base moves (r.modifyMove i f) := by
  rw [← move_modifyMove_self hi f] at hs hd hp
  have hother := fun j (hj : j ≠ i) => move_modifyMove_of_ne (r := r) hj f
  refine h.of_move (length_modify ..) (fun _ hp => hp) h.scratches (fun j hj => ?_)
    (fun j => ?_) fun j hj => ?_
  · by_cases hji : j = i
    · exact hji ▸ hs (hji ▸ hj)
    · rw [hother j hji] at hj ⊢
      exact ⟨hj, rfl⟩
  · by_cases hji : j = i
    · exact hji ▸ hd
    · rw [hother j hji]
      exact h.destination_or j
  · by_cases hji : j = i
    · exact hji ▸ hp (hji ▸ hj)
    · rw [hother j hji] at hj
      exact h.inProgress j hj

lemma Base.eliminate (h : Base moves r) (hi : i < r.moves.length) :
    Base moves (r.modifyMove i (·.eliminate)) :=
  h.modifyMove hi (absurd rfl) (.inl rfl) fun hp => absurd rfl (isPending_iff.1 hp).2

variable {d : Location}

/-- A move is marked as pending, or its destination restored. -/
lemma Base.setDestination (h : Base moves r) (hi : i < r.moves.length)
    (hs : (r.move i).source ≠ .invalid) (hc : (r.move i).source.isConstant = false)
    (hd : d = .invalid ∨ d = (targetAt moves i)) :
    Base moves (r.modifyMove i (·.setDestination d)) :=
  h.modifyMove hi (fun _ => ⟨hs, rfl⟩) (hd.imp id fun hd => ⟨hs, hd⟩) fun _ => hc

lemma updateSource_isConstant (ho : old.isConstant = false) (hn : new.isConstant = false) :
    (updateSource old new m).source.isConstant = m.source.isConstant := by
  rw [updateSource]
  split
  case isTrue h => rw [h, ho, ← hn, setSource]
  case isFalse => rfl

/-- Sources are updated. -/
lemma Base.updateMoveSource (h : Base moves r) (ho : old ≠ .invalid) (hn : new ≠ .invalid)
    (hoc : old.isConstant = false) (hnc : new.isConstant = false) :
    Base moves (r.updateMoveSource old new) := by
  have hmove := move_updateMoveSource (r := r) ho new
  refine h.of_move (length_map ..) (fun _ hp => hp) h.scratches (fun j hj => ?_) (fun j => ?_)
    fun j hj => ?_
  · rw [hmove] at hj ⊢
    exact ⟨mt (updateSource_source ho hn).2 hj, updateSource_isConstant hoc hnc⟩
  · rw [hmove, updateSource_destination]
    exact (h.destination_or j).imp id fun hd => ⟨mt (updateSource_source ho hn).1 hd.1, hd.2⟩
  · rw [hmove] at hj
    obtain ⟨hd, hs⟩ := isPending_iff.1 hj
    rw [updateSource_destination] at hd
    exact h.inProgress j (isPending_iff.2 ⟨hd, mt (updateSource_source ho hn).2 hs⟩)

/-- A state with the same moves and pending moves. -/
lemma Base.congr (h : Base moves r) (hm : r'.moves = r.moves)
    (hp : r'.pendingMoves = r.pendingMoves) (hscr : ∀ loc ∈ r'.scratches, Outside moves loc) :
    Base moves r' := by
  have hmove : ∀ j, r'.move j = r.move j := fun j => by rw [move, move, hm]
  exact ⟨hm ▸ h.length, fun j => hmove j ▸ h.eliminated j, fun j => hmove j ▸ h.destination j,
    fun j => hmove j ▸ h.constant j, fun j => hmove j ▸ h.inProgress j, hp ▸ h.pendingSource, fun p hp' => by
      obtain ⟨j, hj, hs, hd⟩ := h.pendingDestination p (hp ▸ hp')
      exact ⟨j, hj, hmove j ▸ hs, hd⟩, hscr⟩

variable {target : Location}

lemma Base.emitAndUpdate (h : Base moves r) (hi : i < r.moves.length) (hs : source ≠ .invalid)
    (ht : target ≠ .invalid) (hsc : source.isConstant = false) (htc : target.isConstant = false) :
    Base moves (r.emitAndUpdate i source target) := by
  have hemit : Base moves (r.emitMove source target) := h.congr rfl rfl h.scratches
  exact (hemit.eliminate hi).updateMoveSource hs ht hsc htc

variable {x : Location}

lemma Base.addPendingMove (h : Base moves r) {w : Bool} (hx : x ≠ .invalid)
    (hxc : x.isConstant = false) (hi : i < moves.length) (hs : (r.move i).source = .invalid)
    (hd : d = (targetAt moves i)) : Base moves (r.addPendingMove x d w) := by
  refine { h with pendingSource := fun p hp => ?_, pendingDestination := fun p hp => ?_ }
  · rcases mem_append.1 hp with hp | hp
    · exact h.pendingSource p hp
    · rw [mem_singleton.1 hp]
      exact ⟨hx, hxc⟩
  · rcases mem_append.1 hp with hp | hp
    · exact h.pendingDestination p hp
    · rw [mem_singleton.1 hp]
      exact ⟨i, hi, hs, hd⟩

variable (h : Base moves r) (hw : WellFormed moves)

include h hw in
/-- The destination of a pending move is that of an eliminated move. -/
lemma Base.pending_valid {p : MoveOperands} (hp : p ∈ r.pendingMoves) :
    p.destination ≠ .invalid ∧ p.destination.isConstant = false := by
  obtain ⟨j, hj, -, hd⟩ := h.pendingDestination p hp
  rw [hd]
  exact ⟨(hw.valid _ (operandsAt_mem hj)).2, hw.notConstant _ (operandsAt_mem hj)⟩

include h hw in
lemma Base.performPendingMove (alloc : ScratchAllocator β) (hm : m ∈ r.pendingMoves) :
    Base moves (performPendingMove alloc m r) := by
  obtain ⟨hs, hsc⟩ := h.pendingSource m hm
  obtain ⟨hd, hdc⟩ := h.pending_valid hw hm
  obtain ⟨scratches, b, heq, hsub⟩ := performPendingMove_eq alloc m r
  have hupd := h.updateMoveSource hs hd hsc hdc
  rw [heq]
  exact hupd.of_move rfl (fun _ hp => mem_of_mem_erase hp)
    (fun loc hloc => h.scratches loc (hsub loc hloc)) (fun j hj => ⟨hj, rfl⟩) hupd.destination_or
    hupd.inProgress

/-- What `AllocateScratchLocationFor` returns while the move `i` is finished. -/
structure ScratchFor (moves : List MoveOperands) (r : ParallelMoveResolverNoSwap β) (i : ℕ)
    (x : Location) : Prop where
  valid : x ≠ .invalid
  notConstant : x.isConstant = false
  notBlocked : r.isBlockedByMoves x = false
  disjoint : ∀ j < moves.length, (r.move j).destination = .invalid ∨ j = i →
    x.overlapsWith (targetAt moves j) = false

lemma Outside.scratchFor (h : Outside moves x) (hb : r.isBlockedByMoves x = false) (i : ℕ) :
    ScratchFor moves r i x :=
  ⟨h.valid, h.notConstant, hb, fun j hj _ => by
    rw [Location.overlapsWith_comm]
    exact h.destination _ (operandsAt_mem hj)⟩

/-- `GetScratchLocation` returns one of the scratch locations or the destination of a move. -/
lemma getScratchLocation_spec {kind : Location.Kind} (h : r.getScratchLocation kind ≠ .invalid) :
    (r.getScratchLocation kind).kind = kind ∧ r.isBlockedByMoves (r.getScratchLocation kind) = false ∧
      (r.getScratchLocation kind ∈ r.scratches ∨
        ∃ k < r.moves.length, (r.move k).destination = r.getScratchLocation kind) := by
  rw [getScratchLocation] at h ⊢
  rcases ho : (r.scratches.find? _).or _ with _ | x
  · rw [ho] at h
    exact absurd rfl h
  rcases Option.or_eq_some_iff.1 ho with ho | ⟨-, ho⟩ <;> have hsuits := find?_some ho <;>
    rw [and_eq_true, decide_eq_true_eq, not_eq_true'] at hsuits
  · exact ⟨hsuits.1, hsuits.2, .inl (mem_of_find?_eq_some ho)⟩
  · obtain ⟨m, hm, hmx⟩ := mem_map.1 (mem_of_find?_eq_some ho)
    obtain ⟨k, hk, rfl⟩ := mem_moves_iff.1 hm
    exact ⟨hsuits.1, hsuits.2, .inr ⟨k, hk, hmx⟩⟩

include h hw in
lemma Base.scratchFor (hok : ScratchOk moves alloc)
    (hb : r.isBlockedByMoves (targetAt moves i) = true) (kind : Location.Kind) :
    ScratchFor moves r i (alloc.allocateScratchLocationFor r kind).1 := by
  rcases hok.location r kind with ⟨kind', heq, hx⟩ | ⟨hout, hnb⟩
  · rw [heq] at hx ⊢
    obtain ⟨-, hnb, hscratch | ⟨k, hk, hkx⟩⟩ := getScratchLocation_spec hx
    · exact (h.scratches _ hscratch).scratchFor hnb i
    · -- the destination of a move that is neither performed nor in progress
      have hdk := h.destination k (hkx ▸ hx)
      rw [h.length] at hk
      rw [hkx] at hdk
      refine ⟨hx, ?_, hnb, fun j hj hjd => ?_⟩
      · rw [hdk]
        exact hw.notConstant _ (operandsAt_mem hk)
      · rw [hdk]
        refine hw.operandsAt_disjoint hk hj ?_
        rintro rfl
        rcases hjd with hjd | rfl
        · exact hx (hkx ▸ hjd)
        · rw [← hdk, hnb] at hb
          cases hb
  · exact hout.scratchFor hnb i

/-! ## Finishing a move -/

lemma updateSource_eq (old new : Location) (m : MoveOperands) :
    updateSource old new m = m.setSource (if m.source = old then new else m.source) := by
  rw [updateSource]
  split <;> rfl

/-- A change of sources by location keeps what finishing a move does. -/
lemma FinishFrame.update {r1 : ParallelMoveResolverNoSwap β} (h : FinishFrame i r r')
    (ho : old ≠ .invalid) (hn : new ≠ .invalid) (hlen : r1.moves.length = r'.moves.length)
    (hm : ∀ j, r1.move j = updateSource old new (r'.move j)) (he : r'.events <+: r1.events) :
    FinishFrame i r r1 := by
  obtain ⟨f, hf, hother⟩ := h.other
  refine ⟨hlen.trans h.length, ?_, ⟨fun loc => if f loc = old then new else f loc, fun loc => ?_,
    fun j hj => ?_⟩, h.events.trans he⟩
  · rw [hm, updateSource_source ho hn, h.eliminated]
  · dsimp only
    split
    case isTrue heq => exact ⟨fun h' => absurd h' hn, fun h' => absurd (heq ▸ (hf loc).2 h') ho⟩
    case isFalse => exact hf loc
  · rw [hm, hother j hj, updateSource_eq]
    rfl

/-- The moves after the move has been emitted to its destination or to a scratch location. -/
lemma move_emit_restored (d : Location) (scratches : List Location) (b : β)
    (hi : i < r.moves.length) (hs : source ≠ .invalid) (target : Location) (j : ℕ) :
    (emitAndUpdate { r.modifyMove i (·.setDestination d) with scratches, backend := b } i source
      target).move j = if j = i then (r.move i).eliminate else updateSource source target (r.move j) := by
  have hlen : (r.modifyMove i (·.setDestination d)).moves.length = r.moves.length := length_modify ..
  rw [move_emitAndUpdate (r := { r.modifyMove i (·.setDestination d) with
    scratches, backend := b }) (hlen.symm ▸ hi) hs target j]
  by_cases hj : j = i
  · rw [if_pos hj, if_pos hj]
    exact (congrArg _
      (move_modifyMove_self (r := r) hi (·.setDestination d))).trans rfl
  · rw [if_neg hj, if_neg hj]
    exact congrArg _ (move_modifyMove_of_ne (r := r) hj _)

/-- The move is emitted to its destination or to a scratch location. -/
lemma finishFrame_emitAndUpdate (d : Location) (scratches : List Location) (b : β)
    (hi : i < r.moves.length) (hs : source ≠ .invalid) (ht : target ≠ .invalid) :
    FinishFrame i r (emitAndUpdate { r.modifyMove i (·.setDestination d) with
      scratches, backend := b } i source target) := by
  have hmove := move_emit_restored (r := r) d scratches b hi hs target
  refine ⟨?_, ?_, ⟨fun loc => if loc = source then target else loc, fun loc => ?_, fun j hj => ?_⟩,
    prefix_append ..⟩
  · rw [emitAndUpdate, ParallelMoveResolverNoSwap.updateMoveSource, length_map]
    exact (length_modify ..).trans (length_modify ..)
  · rw [hmove, if_pos rfl]
    rfl
  · dsimp only
    split
    case isTrue heq => exact ⟨fun h => absurd h ht, fun h => absurd (heq ▸ h) hs⟩
    case isFalse => exact Iff.rfl
  · rw [hmove, if_neg hj, updateSource_eq]

include h hw in
/-- The rule for the end of `PerformMove`: the move is emitted to its destination, or to a scratch
    location if the destination is blocked; then the pending moves are performed that the source
    of the move has blocked. -/
lemma finishMove_rule (hok : ScratchOk moves alloc) (hi : (r.move i).isPending = true)
    (P : ParallelMoveResolverNoSwap β → Prop)
    (hemit : (r.restore moves i).isBlockedByMoves
        (targetAt moves i) = false →
      P ((r.restore moves i).emitAndUpdate i
        (r.move i).source (targetAt moves i)))
    (hsave : (r.restore moves i).isBlockedByMoves
        (targetAt moves i) = true → ∀ x scratches b w, ScratchFor moves
        (r.restore moves i) i x →
      x = (alloc.allocateScratchLocationFor
        (r.restore moves i) (r.move i).source.kind).1 →
      scratches = r.scratches ++ (alloc.allocateScratchLocationFor
        (r.restore moves i) (r.move i).source.kind).2.1 →
      P ((emitAndUpdate { r.restore moves i with
        scratches, backend  := b } i (r.move i).source x).addPendingMove x
          (targetAt moves i) w)) (hflush : ∀ r1 m, Base moves r1 → P r1 →
      r1.getUnblockedPendingMove (r.move i).source = some m → P (performPendingMove alloc m r1)) :
    P (finishMove alloc i (targetAt moves i) r) ∧
      Base moves (finishMove alloc i (targetAt moves i) r) ∧
      FinishFrame i r (finishMove alloc i (targetAt moves i) r) ∧
      (finishMove alloc i (targetAt moves i) r).getUnblockedPendingMove
        (r.move i).source = none := by
  obtain ⟨-, hs⟩ := isPending_iff.1 hi
  have hsc := h.inProgress i hi
  have him := h.lt hs
  have hi' : i < r.moves.length := h.length.symm ▸ him
  have hd := hw.valid _ (operandsAt_mem him)
  have hdc := hw.notConstant _ (operandsAt_mem him)
  have hrestore := h.setDestination hi' hs hsc (.inr rfl)
  have hlen : i < (r.restore moves i).moves.length := (length_modify ..).symm ▸ hi'
  have hsource : ((r.restore moves i).move i).source = (r.move i).source := by
    rw [move_modifyMove_self hi']
    rfl
  -- the state before the loop over pending moves
  obtain ⟨r2, hfin, hP, hbase, hframe⟩ : ∃ r2, finishMove alloc i (targetAt moves i) r =
      performPendingMoves alloc (r.move i).source r2.pendingMoves.length r2 ∧ P r2 ∧
        Base moves r2 ∧ FinishFrame i r r2 := by
    rw [finishMove]
    rw [hsource]
    split
    case isTrue hb =>
      have hx := hrestore.scratchFor hw hok hb (r.move i).source.kind
      have hb' : Base moves { r.restore moves i with
          scratches := r.scratches ++ (alloc.allocateScratchLocationFor (r.restore moves i) (r.move i).source.kind).2.1
          backend := (alloc.allocateScratchLocationFor (r.restore moves i) (r.move i).source.kind).2.2 } :=
        hrestore.congr rfl rfl fun loc hloc => (mem_append.1 hloc).elim
          (h.scratches loc) (hok.added _ _ loc)
      have helim := hb'.emitAndUpdate hlen hs hx.valid hsc hx.notConstant
      have hff := finishFrame_emitAndUpdate (targetAt moves i)
        (r.scratches ++ (alloc.allocateScratchLocationFor (r.restore moves i) (r.move i).source.kind).2.1)
        (alloc.allocateScratchLocationFor (r.restore moves i) (r.move i).source.kind).2.2
        hi' hs hx.valid
      exact ⟨_, rfl, hsave hb _ _ _ _ hx rfl rfl,
        helim.addPendingMove hx.valid hx.notConstant him hff.eliminated rfl,
        ⟨hff.length, hff.eliminated, hff.other, hff.events.trans (prefix_append ..)⟩⟩
    case isFalse hb =>
      exact ⟨_, rfl, hemit (by simpa using hb), hrestore.emitAndUpdate hlen hs hd.2 hsc hdc,
        finishFrame_emitAndUpdate _ _ _ hi' hs hd.2⟩
  rw [hfin]
  have hloop := performPendingMoves_rule alloc (r.move i).source
    (P := fun r1 => P r1 ∧ Base moves r1 ∧ FinishFrame i r r1) (fun r1 m h1 hm => ?_)
    ⟨hP, hbase, hframe⟩ le_rfl
  · exact ⟨hloop.1.1, hloop.1.2.1, hloop.1.2.2, hloop.2⟩
  · obtain ⟨hP1, hb1, hf1⟩ := h1
    have hmem : m ∈ r1.pendingMoves := mem_of_find?_eq_some hm
    refine ⟨hflush r1 m hb1 hP1 hm, hb1.performPendingMove hw alloc hmem, ?_⟩
    obtain ⟨scratches, b, heq, -⟩ := performPendingMove_eq alloc m r1
    have hsv := (hb1.pendingSource m hmem).1
    rw [heq]
    exact hf1.update hsv (hb1.pending_valid hw hmem).1 (length_map ..)
      (fun j => move_updateMoveSource (r := r1) hsv m.destination j) (prefix_append ..)

/-! ## The first loop -/

variable {moves' : List MoveOperands}

lemma Outside.mono {loc : Location} (h : Outside moves' loc) (hsub : ∀ m ∈ moves, m ∈ moves') :
    Outside moves loc :=
  { h with source := fun m hm => h.source m (hsub m hm)
           destination := fun m hm => h.destination m (hsub m hm) }

lemma ScratchOk.mono (h : ScratchOk moves' alloc) (hsub : ∀ m ∈ moves, m ∈ moves') :
    ScratchOk moves alloc :=
  ⟨fun r kind => (h.location r kind).imp_right fun h' => ⟨h'.1.mono hsub, h'.2⟩,
    fun r kind loc hloc => (h.added r kind loc hloc).mono hsub⟩

lemma WellFormed.filter {parallelMove : List MoveOperands} (h : WellFormed parallelMove)
    (q : MoveOperands → Bool) : WellFormed (parallelMove.filter q) :=
  ⟨fun m hm => h.valid m (mem_of_mem_filter hm),
    fun m hm => h.notConstant m (mem_of_mem_filter hm), h.disjoint.filter q⟩

include hw in
/-- The state in which `EmitNativeCode` enters its first loop. -/
lemma base_start (b : β) : Base moves ({ moves, backend := b } : ParallelMoveResolverNoSwap β) ∧
      ∀ j, (({ moves, backend := b } : ParallelMoveResolverNoSwap β).move j).isPending = false := by
  have hmove : ∀ j, ({ moves, backend := b } : ParallelMoveResolverNoSwap β).move j =
      operandsAt moves j := fun _ => rfl
  have hpending : ∀ j, (operandsAt moves j).isPending = false := fun j => by
    by_cases hj : j < moves.length
    · simp [isPending, (hw.valid _ (operandsAt_mem hj)).2]
    · rw [operandsAt, getD_eq_default _ _ (by omega)]
      rfl
  refine ⟨⟨rfl, fun j hj => ?_, fun _ _ => rfl, fun _ _ => rfl, fun j hj => ?_, fun p hp => ?_,
    fun p hp => ?_, fun loc hloc => ?_⟩, hpending⟩
  · by_cases hlt : j < moves.length
    · exact absurd hj (hw.valid _ (operandsAt_mem hlt)).1
    · rw [hmove, operandsAt, getD_eq_default _ _ (by omega)]
  · rw [hmove, hpending] at hj
    cases hj
  · cases hp
  · cases hp
  · cases hloc

/-- The first loop of `EmitNativeCode` performs every move whose source is not a constant. -/
lemma performAll_rule (hInv : Invariant alloc (targetAt moves) Inv)
    (hbase : ∀ r, Inv r → Base moves r) {Q : ParallelMoveResolverNoSwap β → Prop}
    (hQ : ∀ i r r', Inv r → Q r → (r.move i).isActive = true →
      (r.move i).source.isConstant = false → r.active.card ≤ moves.length →
      performMove alloc moves.length i r = some r' → (∀ j, (r'.move j).isPending = false) → Q r')
    (h : Inv r) (hq : Q r) (hp : ∀ j, (r.move j).isPending = false) :
    ∃ r', (List.range moves.length).foldlM (fun r i =>
        if !(r.move i).isEliminated && !(r.move i).source.isConstant then
          performMove alloc moves.length i r
        else some r) r = some r' ∧ Inv r' ∧ Q r' ∧ (∀ j, (r'.move j).isPending = false) ∧
      ∀ j, (r'.move j).source ≠ .invalid → (r'.move j).source.isConstant = true := by
  refine (Loop.foldlM_range
    (P := fun n r => Inv r ∧ Q r ∧ (∀ j, (r.move j).isPending = false) ∧
      ∀ j < n, (r.move j).source ≠ .invalid → (r.move j).source.isConstant = true)
    ⟨h, hq, hp, fun j hj => absurd hj (Nat.not_lt_zero j)⟩ ?_).imp fun r' ⟨hr', h', hq', hp', hdone⟩ =>
      ⟨hr', h', hq', hp', fun j hj => hdone j ((hbase r' h').lt hj) hj⟩
  rintro i - r ⟨h, hq, hp, hdone⟩
  by_cases hperform : (!(r.move i).isEliminated && !(r.move i).source.isConstant) = true
  · rw [if_pos hperform]
    rw [and_eq_true, not_eq_true', not_eq_true', not_isEliminated_iff] at hperform
    have hactive : (r.move i).isActive = true := by
      rw [isActive, hp i, not_isEliminated_iff.2 hperform.1]
      rfl
    have hcard : r.active.card ≤ moves.length := by
      rw [← (hbase r h).length, ← Finset.card_range r.moves.length]
      exact Finset.card_filter_le ..
    obtain ⟨r1, hr1, h1, hframe, helim⟩ := performMove_rule hInv h hactive hperform.2 hcard
    obtain ⟨f, hf⟩ := hframe.source
    have hp1 : ∀ j, (r1.move j).isPending = false := fun j => by
      rw [← Bool.not_eq_true, isPending_iff]
      rintro ⟨hd, hs⟩
      have := hp j
      rw [← Bool.not_eq_true, isPending_iff, ← hframe.destination j hs] at this
      exact this ⟨hd, (hf j hs).2⟩
    refine ⟨r1, hr1, h1, hQ i r r1 h hq hactive hperform.2 hcard hr1 hp1, hp1, fun j hj hs => ?_⟩
    · rcases Nat.lt_succ_iff_lt_or_eq.1 hj with hj | rfl
      · rw [(hbase r1 h1).constant j hs, ← (hbase r h).constant j (hf j hs).2]
        exact hdone j hj (hf j hs).2
      · exact absurd helim hs
  · refine ⟨r, if_neg hperform, h, hq, hp, fun j hj hs => ?_⟩
    rcases Nat.lt_succ_iff_lt_or_eq.1 hj with hj | rfl
    · exact hdone j hj hs
    · rw [and_eq_true, not_eq_true', not_eq_true',
        not_isEliminated_iff, not_and, Bool.not_eq_false] at hperform
      exact hperform hs

end

end ParallelMoveResolverNoSwap

end Art
