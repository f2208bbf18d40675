import Mathlib.Algebra.Order.BigOperators.Group.List
import Art.ParallelMove.NoSwapInv

/-!
# Pending moves

When are all pending moves of the resolver with scratch locations performed? A pending move is
performed once its destination is no longer the source of a move, and the resolver looks for
such moves whenever it has emitted a move from an overlapping source. It does not look again
when the blocking source is that of another pending move.
-/

namespace Art

open List MoveOperands Bool

/-- A move is not queued if its destination is in use as the source of a pending move. -/
def Event.NotBlocked : Event → Prop
  | .emitMove _ _ => True
  | .addPendingMove _ destination pendingMoves => ∀ p ∈ pendingMoves, p.blocks destination = false

instance : DecidablePred Event.NotBlocked := fun
  | .emitMove _ _ => inferInstanceAs (Decidable True)
  | .addPendingMove _ destination pendingMoves =>
    inferInstanceAs (Decidable (∀ p ∈ pendingMoves, p.blocks destination = false))

namespace ParallelMoveResolverNoSwap

variable {β : Type} {r r' : ParallelMoveResolverNoSwap β} {moves : List MoveOperands} {i : ℕ}
  {source source' loc old new : Location} {p m : MoveOperands} {alloc : ScratchAllocator β}

/-- No move was queued while its destination was in use by a pending move. -/
def InOrder (r : ParallelMoveResolverNoSwap β) : Prop := ∀ e ∈ r.events, e.NotBlocked

lemma inOrder_of_emitMove (h : r'.events = r.events ++ [.emitMove source loc]) :
    r'.InOrder ↔ r.InOrder := by
  rw [InOrder, h, forall_mem_append, and_iff_left]
  · rfl
  · exact fun e he => (mem_singleton.1 he).symm ▸ trivial

/-- What holds of the pending moves in any case: a source that overlaps with one of theirs is that
    source, and a scratch location that overlaps with a destination is that destination. -/
structure Scratched (moves : List MoveOperands) (r : ParallelMoveResolverNoSwap β) : Prop where
  blocked : ∀ p ∈ r.pendingMoves, ∀ j, (r.move j).blocks p.source = true →
    (r.move j).source = p.source
  disjoint : ∀ p ∈ r.pendingMoves, ∀ p' ∈ r.pendingMoves, p ≠ p' →
    p.destination.overlapsWith p'.destination = false
  apart : ∀ p ∈ r.pendingMoves, p.source.overlapsWith p.destination = false
  scratch : ∀ p ∈ r.pendingMoves, ∀ j < moves.length,
    p.source.overlapsWith (targetAt moves j) = true → p.source = (targetAt moves j)

/-- Each pending move is blocked by a move and not by a pending move. While a move from `source` is
    finished, it may be blocked by nothing but the loop that is about to look for it. -/
def Live (source : Location) (r : ParallelMoveResolverNoSwap β) : Prop :=
  ∀ m ∈ r.pendingMoves, (∀ p ∈ r.pendingMoves, p.source.overlapsWith m.destination = false) ∧
    ((∃ j, (r.move j).blocks m.destination = true) ∨ source.overlapsWith m.destination = true)

/-- A pending move is blocked by moves with the source of a pending move only, and so is a loop that
    is about to look for it from `source`. -/
def Stuck (source : Location) (r : ParallelMoveResolverNoSwap β) : Prop :=
  ∃ m ∈ r.pendingMoves,
    (∀ j, (r.move j).blocks m.destination = true →
      ∃ p ∈ r.pendingMoves, p.source = (r.move j).source) ∧
      (source.overlapsWith m.destination = true → ∃ p ∈ r.pendingMoves, p.source = source)

/-- The pending moves while a move from `source` is finished. -/
structure QueueInv (moves : List MoveOperands) (source : Location)
    (r : ParallelMoveResolverNoSwap β) : Prop
    extends Scratched moves r where
  live : r.InOrder → Live source r
  stuck : ¬r.InOrder → Stuck source r

/-- The pending moves between the steps of `PerformMove`. -/
structure PendingInv (moves : List MoveOperands) (r : ParallelMoveResolverNoSwap β) : Prop where
  base : Base moves r
  queue : QueueInv moves .invalid r

/-! ## Changes of sources -/

/-- `UpdateMoveSource(old, new)`, and moves may be eliminated. -/
def Moved (old new : Location) (r r' : ParallelMoveResolverNoSwap β) : Prop :=
  ∀ j, (r'.move j).source ≠ .invalid → (r'.move j).source = new ∨
    (r'.move j).source = (r.move j).source ∧ (r.move j).source ≠ old

lemma moved_of_updateSource (h : ∀ j, (r'.move j).source ≠ .invalid →
    r'.move j = updateSource old new (r.move j)) : Moved old new r r' := by
  intro j hj
  rw [h j hj, updateSource]
  split
  · exact .inl rfl
  · exact .inr ⟨rfl, ‹_›⟩

/-- What blocks a location after a change of sources has the new source or did so before. -/
lemma Moved.blocks (h : Moved old new r r') {j : ℕ} (hj : (r'.move j).blocks loc = true) :
    (r'.move j).source = new ∧ new.overlapsWith loc = true ∨ (r.move j).blocks loc = true ∧
      (r'.move j).source = (r.move j).source ∧ (r.move j).source ≠ old := by
  obtain ⟨hs, hov⟩ := blocks_iff.1 hj
  rcases h j hs with hj' | ⟨hj', hne⟩
  · exact .inl ⟨hj', hj' ▸ hov⟩
  · rw [hj'] at hs hov
    exact .inr ⟨blocks_iff.2 ⟨hs, hov⟩, hj', hne⟩

lemma Scratched.of_moved (h : Scratched moves r) (hmoved : Moved old new r r')
    (hp : ∀ p ∈ r'.pendingMoves, p ∈ r.pendingMoves)
    (hnew : ∀ p ∈ r'.pendingMoves, p.source.overlapsWith new = false) : Scratched moves r' where
  blocked p hp' j hj := by
    rcases hmoved.blocks hj with ⟨-, hov⟩ | ⟨hj', heq, -⟩
    · rw [Location.overlapsWith_comm, hnew p hp'] at hov
      cases hov
    · exact heq ▸ h.blocked p (hp p hp') j hj'
  disjoint p hp' p' hp'' := h.disjoint p (hp p hp') p' (hp p' hp'')
  apart p hp' := h.apart p (hp p hp')
  scratch p hp' := h.scratch p (hp p hp')

/-- A move is eliminated, or its destination changed. -/
lemma PendingInv.of_moved (h : PendingInv moves r) (hw : WellFormed moves) (hb : Base moves r')
    (hp : r'.pendingMoves = r.pendingMoves) (he : r'.events = r.events)
    (hmoved : Moved .invalid .invalid r r')
    (hkeep : ∀ m ∈ r.pendingMoves, ∀ j, (r.move j).blocks m.destination = true →
      (r'.move j).blocks m.destination = true) : PendingInv moves r' := by
  have hinvalid : ∀ m ∈ r'.pendingMoves, Location.invalid.overlapsWith m.destination = false :=
    fun m hm =>
    Location.overlapsWith_invalid (hb.pending_valid hw hm).1
  refine ⟨hb, h.queue.toScratched.of_moved hmoved (fun _ hp' => hp ▸ hp') fun p hp' => ?_,
    fun he' m hm => ?_,
    fun he' => ?_⟩
  · rw [Location.overlapsWith_comm]
    exact Location.overlapsWith_invalid (hb.pendingSource p hp').1
  · rw [InOrder, he] at he'
    rw [hp] at hm ⊢
    exact (h.queue.live he' m hm).imp_right (.imp_left fun ⟨j, hj⟩ => ⟨j, hkeep m hm j hj⟩)
  · rw [InOrder, he] at he'
    obtain ⟨m, hm, hblocks, -⟩ := h.queue.stuck he'
    refine ⟨m, hp ▸ hm, fun j hj => ?_, fun hov => ?_⟩
    · rcases hmoved.blocks hj with ⟨-, hov⟩ | ⟨hj', heq, -⟩
      · rw [hinvalid m (hp ▸ hm)] at hov
        cases hov
      · exact heq ▸ hp ▸ hblocks j hj'
    · rw [hinvalid m (hp ▸ hm)] at hov
      cases hov

/-- The destinations of pending moves and of a move that is not eliminated do not overlap. -/
lemma Base.pending_disjoint (h : Base moves r) (hw : WellFormed moves)
    (hi : (r.move i).source ≠ .invalid) (hp : p ∈ r.pendingMoves) :
    (targetAt moves i).overlapsWith p.destination = false := by
  obtain ⟨k, hk, hks, hpd⟩ := h.pendingDestination p hp
  rw [hpd]
  refine hw.operandsAt_disjoint (h.lt hi) hk ?_
  rintro rfl
  exact hi hks

/-- A scratch location that overlaps with a destination is that of a move still to perform. -/
lemma Base.scratch_eq (h : Base moves r) (hw : WellFormed moves) (hok : ScratchOk moves alloc)
    {kind : Location.Kind} {j : ℕ} (hj : j < moves.length)
    (hov : (alloc.allocateScratchLocationFor r kind).1.overlapsWith (targetAt moves j) = true) :
    (alloc.allocateScratchLocationFor r kind).1 = (targetAt moves j) := by
  have houtside : ∀ {loc}, Outside moves loc → ¬loc.overlapsWith (targetAt moves j) = true :=
    fun {loc} hout => by
      simp [Location.overlapsWith_comm loc, hout.destination _ (operandsAt_mem hj)]
  rcases hok.location r kind with ⟨kind', heq, hx⟩ | ⟨hout, -⟩
  · rw [heq] at hx hov ⊢
    obtain ⟨-, -, hscratch | ⟨k, hk, hkx⟩⟩ := getScratchLocation_spec hx
    · exact absurd hov (houtside (h.scratches _ hscratch))
    · rw [← hkx, h.destination k (hkx ▸ hx)] at hov ⊢
      by_contra hne
      rw [hw.operandsAt_disjoint (h.length ▸ hk) hj fun hkj => hne (hkj ▸ rfl)] at hov
      cases hov
  · exact absurd hov (houtside hout)

/-! ## The steps -/

/-- The loop over pending moves performs one: the moves with its source get its destination as
    source, and a move that is stuck is not the one. -/
lemma QueueInv.perform (h : QueueInv moves source r) (hb : Base moves r)
    (hm : r.getUnblockedPendingMove source = some m) :
    QueueInv moves source (performPendingMove alloc m r) := by
  have hmem : m ∈ r.pendingMoves := mem_of_find?_eq_some hm
  have hfound := find?_some hm
  rw [and_eq_true, not_eq_true', ← not_eq_true, isBlockedByMoves_iff,
    Location.overlapsWith_comm] at hfound
  obtain ⟨hfound, hfree⟩ := hfound
  have hpending : ∀ p ∈ r.pendingMoves, p.source.overlapsWith m.destination = false := fun p hp =>
    Bool.not_eq_true _ ▸ fun hov =>
      hfree (.inl ⟨p, hp, blocks_iff.2 ⟨(hb.pendingSource p hp).1, hov⟩⟩)
  obtain ⟨scratches, b, heq, -⟩ := performPendingMove_eq alloc m r
  have hmove := move_updateMoveSource (r := r) (hb.pendingSource m hmem).1 m.destination
  have herase : ∀ p ∈ r.pendingMoves.erase m, p ∈ r.pendingMoves := fun p hp => mem_of_mem_erase hp
  have hmoved : Moved m.source m.destination r (performPendingMove alloc m r) :=
    moved_of_updateSource fun j _ => heq ▸ hmove j
  refine ⟨h.toScratched.of_moved hmoved (heq ▸ herase) (heq ▸ fun p hp => hpending p (herase p hp)),
    fun he => ?_, fun he => ?_⟩
  · have hlive := h.live ((inOrder_of_emitMove (by rw [heq])).1 he)
    rw [heq]
    refine fun m' hm' => ⟨fun p hp => (hlive m' (herase m' hm')).1 p (herase p hp),
      (hlive m' (herase m' hm')).2.imp_left fun ⟨j, hj⟩ => ⟨j, ?_⟩⟩
    refine (congrArg (MoveOperands.blocks · _) (hmove j)).trans ?_
    rw [updateSource, if_neg, hj]
    intro hs
    have hov := (blocks_iff.1 hj).2
    rw [hs, (hlive m' (herase m' hm')).1 m hmem] at hov
    cases hov
  · obtain ⟨m', hm', hblocks, hsource⟩ := h.stuck fun h' =>
      he ((inOrder_of_emitMove (by rw [heq])).2 h')
    have hne : m' ≠ m := by
      rintro rfl
      obtain ⟨p, hp, rfl⟩ := hsource hfound
      rw [hpending p hp] at hfound
      cases hfound
    have hother : ∀ p ∈ r.pendingMoves, p.source ≠ m.source →
        p ∈ (performPendingMove alloc m r).pendingMoves :=
      fun p hp hps => heq ▸ (mem_erase_of_ne fun h' => hps (congrArg _ h')).2 hp
    refine ⟨m', heq ▸ (mem_erase_of_ne hne).2 hm', fun j hj => ?_, fun hov => ?_⟩
    · rcases hmoved.blocks hj with ⟨-, hov⟩ | ⟨hj', hjs, hold⟩
      · rw [h.disjoint m hmem m' hm' hne.symm] at hov
        cases hov
      · obtain ⟨p, hp, hps⟩ := hblocks j hj'
        exact ⟨p, hother p hp (hps ▸ hold), hps.trans hjs.symm⟩
    · obtain ⟨p, hp, rfl⟩ := hsource hov
      refine ⟨p, hother p hp fun hps => ?_, rfl⟩
      rw [hps, h.apart m hmem] at hfound
      cases hfound

/-- When the loop over pending moves stops, each pending move is blocked by a move. -/
lemma QueueInv.stop (h : QueueInv moves source r) (hw : WellFormed moves) (hb : Base moves r)
    (hnone : r.getUnblockedPendingMove source = none) : QueueInv moves .invalid r := by
  refine ⟨h.toScratched, fun he m hm => ⟨(h.live he m hm).1, .inl ?_⟩, fun he => ?_⟩
  · refine (h.live he m hm).2.elim id fun hov => ?_
    have hnot := find?_eq_none.1 hnone m hm
    rw [Location.overlapsWith_comm, hov, Bool.true_and, Bool.not_eq_true',
      Bool.not_eq_false] at hnot
    refine (isBlockedByMoves_iff.1 hnot).resolve_left fun ⟨p, hp, hp'⟩ => ?_
    have hov' := (blocks_iff.1 hp').2
    rw [(h.live he m hm).1 p hp] at hov'
    cases hov'
  · obtain ⟨m, hm, hblocks, -⟩ := h.stuck he
    refine ⟨m, hm, hblocks, fun hov => ?_⟩
    rw [Location.overlapsWith_invalid (hb.pending_valid hw hm).1] at hov
    cases hov

section Emit

variable (hmove : ∀ j, r'.move j =
  if j = i then (r.move i).eliminate else updateSource (r.move i).source new (r.move j))
include hmove

lemma moved_emit : Moved (r.move i).source new r r' := moved_of_updateSource fun j hj => by
  rw [hmove] at hj ⊢
  split at hj
  · exact absurd rfl hj
  · exact if_neg ‹_›

lemma blocks_emit {j : ℕ} (hj : (r.move j).blocks loc = true) :
    (∃ j, (r'.move j).blocks loc = true) ∨ (r.move i).source.overlapsWith loc = true := by
  refine or_iff_not_imp_right.2 fun hov => ⟨j, ?_⟩
  have hjs : (r.move j).source ≠ (r.move i).source := fun hjs => hov (hjs ▸ (blocks_iff.1 hj).2)
  rw [hmove, if_neg fun hji => hjs (congrArg (fun k => (r.move k).source) hji), updateSource,
    if_neg hjs, hj]

/-- A move is emitted to its destination or to a scratch location. -/
lemma QueueInv.emit (h : QueueInv moves .invalid r)
    (hinvalid : ∀ m ∈ r.pendingMoves, Location.invalid.overlapsWith m.destination = false)
    (hs : (r.move i).source ≠ .invalid) (hp : r'.pendingMoves = r.pendingMoves)
    (he : r'.InOrder ↔ r.InOrder)
    (hsource : ∀ p ∈ r.pendingMoves, p.source.overlapsWith new = false)
    (hdestination : ∀ p ∈ r.pendingMoves, new.overlapsWith p.destination = false) :
    QueueInv moves (r.move i).source r' := by
  have hmoved := moved_emit hmove
  refine ⟨h.toScratched.of_moved hmoved (fun _ hp' => hp ▸ hp') (hp ▸ hsource), fun he' m hm => ?_,
    fun he' => ?_⟩
  · rw [hp] at hm ⊢
    obtain ⟨hfree, ⟨j, hj⟩ | hov⟩ := h.live (he.1 he') m hm
    · exact ⟨hfree, blocks_emit hmove hj⟩
    · rw [hinvalid m hm] at hov
      cases hov
  · obtain ⟨m, hm, hblocks, -⟩ := h.stuck (mt he.2 he')
    refine ⟨m, hp ▸ hm, fun j hj => ?_, fun hov => hp ▸ hblocks i (blocks_iff.2 ⟨hs, hov⟩)⟩
    rcases hmoved.blocks hj with ⟨-, hov⟩ | ⟨hj', heq, -⟩
    · rw [hdestination m hm] at hov
      cases hov
    · exact heq ▸ hp ▸ hblocks j hj'

end Emit

/-- A pending move from a scratch location is queued for a destination that is blocked. -/
lemma QueueInv.queue (h : QueueInv moves source r) {x : Location} (w : Bool) (hi : i < moves.length)
    (hvalid : ∀ p ∈ r.pendingMoves, p.source ≠ .invalid)
    (hx : ∀ j, (r.move j).blocks x = true → (r.move j).source = x)
    (hd : ∀ p ∈ r.pendingMoves, (targetAt moves i).overlapsWith p.destination = false)
    (hxd : ∀ p ∈ r.pendingMoves, x.overlapsWith p.destination = false)
    (hself : x.overlapsWith (targetAt moves i) = false)
    (hscratch : ∀ j < moves.length, x.overlapsWith (targetAt moves j) = true →
      x = (targetAt moves j))
    (hsource : ∀ p ∈ r.pendingMoves, source.overlapsWith p.source = true → source = p.source)
    (hblocked : (∃ p ∈ r.pendingMoves, p.blocks (targetAt moves i) = true) ∨
      (∃ j, (r.move j).blocks (targetAt moves i) = true) ∨
        source.overlapsWith (targetAt moves i) = true) :
    QueueInv moves source (r.addPendingMove x (targetAt moves i) w) := by
  have hmem : ∀ {p}, p ∈ (r.addPendingMove x (targetAt moves i) w).pendingMoves →
      p ∈ r.pendingMoves ∨ p = ⟨x, (targetAt moves i), w⟩ := fun hp =>
    (mem_append.1 hp).imp_right mem_singleton.1
  have hinOrder : (r.addPendingMove x (targetAt moves i) w).InOrder ↔
      r.InOrder ∧ ∀ p ∈ r.pendingMoves, p.blocks (targetAt moves i) = false := by
    rw [InOrder, ParallelMoveResolverNoSwap.addPendingMove, forall_mem_append, forall_mem_singleton]
    rfl
  refine ⟨⟨fun p hp => ?_, fun p hp p' hp' hne => ?_, fun p hp => ?_, fun p hp => ?_⟩,
    fun he m hm => ?_,
    fun he => ?_⟩
  · exact (hmem hp).elim (h.blocked p) fun h' => h' ▸ hx
  · rcases hmem hp with hp | rfl <;> rcases hmem hp' with hp' | rfl
    · exact h.disjoint p hp p' hp' hne
    · rw [Location.overlapsWith_comm]
      exact hd p hp
    · exact hd p' hp'
    · exact absurd rfl hne
  · rcases hmem hp with hp | rfl
    · exact h.apart p hp
    · exact hself
  · exact (hmem hp).elim (h.scratch p) fun h' => h' ▸ hscratch
  · obtain ⟨he, hnew⟩ := hinOrder.1 he
    have hfree : ∀ p ∈ r.pendingMoves, p.source.overlapsWith (targetAt moves i) = false :=
      fun p hp => Bool.not_eq_true _ ▸ fun hov =>
        Bool.false_ne_true ((hnew p hp).symm.trans (blocks_iff.2 ⟨hvalid p hp, hov⟩))
    rcases hmem hm with hm | rfl
    · exact ⟨fun p hp => (hmem hp).elim ((h.live he m hm).1 p) fun h' => h' ▸ hxd m hm,
        (h.live he m hm).2⟩
    · refine ⟨fun p hp => ?_, hblocked.resolve_left ?_⟩
      · rcases hmem hp with hp | rfl
        · exact hfree p hp
        · exact hself
      · rintro ⟨p, hp, hb⟩
        rw [hnew p hp] at hb
        cases hb
  · by_cases he' : r.InOrder
    · -- the new move is stuck: what is in its way has the source of the pending move that is
      obtain ⟨p, hp, hb⟩ : ∃ p ∈ r.pendingMoves, p.blocks (targetAt moves i) = true := by
        simpa [he'] using mt hinOrder.2 he
      have hps := h.scratch p hp i hi (blocks_iff.1 hb).2
      refine ⟨_, mem_append_right _ (mem_singleton_self _), fun j hj =>
        ⟨p, mem_append_left _ hp, ?_⟩,
        fun hov => ⟨p, mem_append_left _ hp, ?_⟩⟩
      · exact (h.blocked p hp j (hps ▸ hj)).symm
      · exact (hsource p hp (hps ▸ hov)).symm
    · obtain ⟨m, hm, hblocks, hfound⟩ := h.stuck he'
      have hleft : ∀ {loc}, (∃ p ∈ r.pendingMoves, p.source = loc) → ∃ p ∈ (r.addPendingMove x
          (targetAt moves i) w).pendingMoves, p.source = loc :=
        fun ⟨p, hp, hps⟩ => ⟨p, mem_append_left _ hp, hps⟩
      exact ⟨m, mem_append_left _ hm, fun j hj => hleft (hblocks j hj), fun hov =>
        hleft (hfound hov)⟩

lemma PendingInv.finish (h : PendingInv moves r) (hw : WellFormed moves)
    (hok : ScratchOk moves alloc)
    (hi : (r.move i).isPending = true) :
    PendingInv moves (finishMove alloc i (targetAt moves i) r) ∧
      FinishFrame i r (finishMove alloc i (targetAt moves i) r) := by
  have hs := (isPending_iff.1 hi).2
  have him := h.base.lt hs
  have hlt : i < r.moves.length := h.base.length.symm ▸ him
  have hpending : ∀ {loc}, (r.restore moves i).isBlockedByMoves loc = false →
      ∀ p ∈ r.pendingMoves, p.source.overlapsWith loc = false := fun hloc p hp =>
        Bool.not_eq_true _ ▸ fun hov => by
    rw [← not_eq_true, isBlockedByMoves_iff] at hloc
    exact hloc (.inl ⟨p, hp, blocks_iff.2 ⟨(h.base.pendingSource p hp).1, hov⟩⟩)
  have hdisjoint := fun p hp => h.base.pending_disjoint hw hs (p := p) hp
  have hinvalid := fun m hm => Location.overlapsWith_invalid (h.base.pending_valid hw (p := m) hm).1
  have hmove := fun scratches b target =>
    move_emit_restored (r := r) (targetAt moves i) scratches b hlt hs target
  obtain ⟨hP, hbase, hframe, hnone⟩ := finishMove_rule h.base hw hok hi
    (QueueInv moves (r.move i).source)
    (fun hfree => h.queue.emit (hmove r.scratches r.backend _) hinvalid hs rfl
      (inOrder_of_emitMove rfl)
      (hpending hfree) hdisjoint)
    (fun hb x scratches b w hx hxeq _ => by
      have hxd : ∀ p ∈ r.pendingMoves, x.overlapsWith p.destination = false := fun p hp => by
        obtain ⟨k, hk, hks, hpd⟩ := h.base.pendingDestination p hp
        have hki : k ≠ i := by
          rintro rfl
          exact hs hks
        rw [hpd]
        refine hx.disjoint k hk (.inl ?_)
        rw [move_modifyMove_of_ne hki, h.base.eliminated k hks]
      have hrestored := h.base.setDestination hlt hs (h.base.inProgress i hi) (.inr rfl)
      have hemit : QueueInv moves (r.move i).source (emitAndUpdate { r.restore moves i with
          scratches, backend := b } i (r.move i).source x) :=
        h.queue.emit (hmove scratches b x) hinvalid hs rfl (inOrder_of_emitMove rfl)
          (hpending hx.notBlocked) hxd
      refine hemit.queue w him (fun p hp => (h.base.pendingSource p hp).1)
        (fun j hj => ?_) hdisjoint hxd (hx.disjoint i him (.inr rfl))
        (fun j hj hov => hxeq ▸ hrestored.scratch_eq hw hok hj (hxeq ▸ hov))
        (fun p hp hov => h.queue.blocked p hp i (blocks_iff.2 ⟨hs, hov⟩)) ?_
      · refine ((moved_emit (hmove scratches b x)).blocks hj).elim And.left fun ⟨hj', _⟩ => ?_
        have hnot := hx.notBlocked
        rw [← not_eq_true, isBlockedByMoves_iff] at hnot
        exact absurd (.inr ⟨j, (blocks_setDestination ..).trans hj'⟩) hnot
      · refine (isBlockedByMoves_iff.1 hb).imp_right fun ⟨j, hj⟩ => ?_
        rw [blocks_setDestination] at hj
        exact blocks_emit (hmove scratches b x) hj)
    fun r1 m hb1 hP1 hm => hP1.perform hb1 hm
  exact ⟨⟨hbase, hP.stop hw hbase hnone⟩, hframe⟩

/-- The steps of `PerformMove` keep the invariant. -/
lemma pendingInv_invariant (hw : WellFormed moves) (hok : ScratchOk moves alloc) :
    Invariant alloc (targetAt moves) (PendingInv moves) where
  destination r j h hj := by
    obtain ⟨hs, hd⟩ := isActive_iff.1 hj
    exact ⟨h.base.destination j hd, hw.notConstant _ (operandsAt_mem (h.base.lt hs))⟩
  drop r i h hi heq := by
    obtain ⟨hs, hd⟩ := isActive_iff.1 hi
    have hlt := lt_of_not_isEliminated (not_isEliminated_iff.2 hs)
    refine h.of_moved hw (h.base.eliminate hlt) rfl rfl (fun j hj => ?_) fun m hm j hj => ?_
    · have hji := ne_of_source_ne hlt hj
      rw [move_modifyMove_of_ne hji] at hj ⊢
      exact .inr ⟨rfl, hj⟩
    · rw [move_modifyMove_of_ne, hj]
      rintro rfl
      have hov := (blocks_iff.1 hj).2
      rw [heq, h.base.destination j hd, h.base.pending_disjoint hw hs hm] at hov
      cases hov
  mark r i h hi hc _ := by
    have hs := (isActive_iff.1 hi).1
    have hlt := lt_of_not_isEliminated (not_isEliminated_iff.2 hs)
    have hmove : ∀ j, ((r.mark i).move j).source = (r.move j).source := fun j => by
      rw [move_modifyMove]
      split <;> rfl
    refine h.of_moved hw (h.base.setDestination hlt hs hc (.inl rfl)) rfl rfl (fun j hj => ?_)
      fun m hm j hj => ?_
    · exact .inr ⟨hmove j, hmove j ▸ hj⟩
    · rwa [blocks_setDestination]
  finish _ _ h hi := h.finish hw hok hi

/-- What the last two loops of `EmitNativeCode` leave alone. -/
structure Keeps (r r' : ParallelMoveResolverNoSwap β) : Prop where
  pendingMoves : r'.pendingMoves = r.pendingMoves
  inOrder : r'.InOrder ↔ r.InOrder

lemma Keeps.emit {r₁ : ParallelMoveResolverNoSwap β} (h : Keeps r r₁)
    (hp : r'.pendingMoves = r₁.pendingMoves)
    (he : r'.events = r₁.events ++ [.emitMove source loc]) : Keeps r r' :=
  ⟨hp.trans h.pendingMoves, (inOrder_of_emitMove he).trans h.inOrder⟩

/-- `EmitNativeCode` returns, and no pending move is left if and only if no move was queued while
    its destination was the source of a pending move. -/
theorem pendingMoves_emitNativeCode_iff {parallelMove : List MoveOperands}
    (hw : WellFormed parallelMove) {alloc : ScratchAllocator β}
    (hok : ScratchOk parallelMove alloc) (backend : β) :
    ∃ r, emitNativeCode alloc backend parallelMove = some r ∧
      (r.pendingMoves = [] ↔ ∀ e ∈ r.events, e.NotBlocked) := by
  have hw' : WellFormed (parallelMove.filter (!·.isRedundant)) := hw.filter _
  have hok' : ScratchOk (parallelMove.filter (!·.isRedundant)) alloc :=
    hok.mono fun m hm => mem_of_mem_filter hm
  obtain ⟨hbase, hpending⟩ := base_start hw' backend
  obtain ⟨r, hr, hinv, -, -, hdone⟩ := performAll_rule (pendingInv_invariant hw' hok')
    (fun _ h => h.base) (Q := fun _ => True) (fun _ _ _ _ _ _ _ _ _ _ => trivial)
    ⟨hbase, ⟨nofun, nofun, nofun, nofun⟩, fun _ => nofun, fun he => absurd nofun he⟩
      trivial hpending
  refine ⟨_, Option.bind_eq_some_iff.2 ⟨r, hr, rfl⟩, ?_⟩
  generalize hr1 : (List.range _).foldl _ r = r₁
  have h1 : Keeps r r₁ := hr1 ▸ Loop.foldl_range (P := fun _ => Keeps r) ⟨rfl, Iff.rfl⟩
    fun i _ s hs => by
      dsimp only
      split
      · exact hs.emit rfl rfl
      · exact hs
  generalize hr2 : (List.range _).foldl _ r₁ = r2
  have h2 : Keeps r r2 := hr2 ▸ Loop.foldl_range (P := fun _ => Keeps r) h1 fun i _ s hs => by
    dsimp only
    split
    · exact hs.emit rfl rfl
    · exact hs
  rw [h2.pendingMoves]
  refine .trans ⟨fun hnil => not_not.1 fun he => ?_, fun he =>
    eq_nil_iff_forall_not_mem.2 fun m hm => ?_⟩
    h2.inOrder.symm
  · obtain ⟨m, hm, -⟩ := hinv.queue.stuck he
    rw [hnil] at hm
    cases hm
  · -- what is left are moves from constants, which block nothing
    obtain ⟨hd, hdc⟩ := hinv.base.pending_valid hw' hm
    rcases (hinv.queue.live he m hm).2 with ⟨j, hj⟩ | hov
    · obtain ⟨hs, hov⟩ := blocks_iff.1 hj
      rw [Location.overlapsWith_of_isConstant (hdone j hs) hdc] at hov
      cases hov
    · rw [Location.overlapsWith_invalid hd] at hov
      cases hov

/-! ## A resolver for tests -/

/-- The highest number of a core register in the location. -/
def registerBound : Location → ℕ
  | .register reg => reg
  | .registerPair low high => max low high
  | _ => 0

variable (parallelMove : List MoveOperands)

/-- The core registers of the parallel move and of the sources in use. -/
def registersInUse (r : ParallelMoveResolverNoSwap β) : List ℕ :=
  (parallelMove.map fun m => max (registerBound m.source) (registerBound m.destination)) ++
    (r.pendingMoves.map fun m => registerBound m.source) ++
      r.moves.map fun m => registerBound m.source

def freshRegister (r : ParallelMoveResolverNoSwap β) : ℕ := (registersInUse parallelMove r).sum + 1

/-- A subclass that looks for a core register or a pair of them as
    `TestParallelMoveResolverNoSwap` does, and else takes registers that are not in use. -/
def testAllocator : ScratchAllocator Unit where
  allocateScratchLocationFor r kind :=
    let kind : Location.Kind :=
      if kind = .stackSlot ∨ kind = .fpuRegister ∨ kind = .register then .register
      else .registerPair
    let scratch := r.getScratchLocation kind
    let reg := freshRegister parallelMove r
    (if scratch ≠ .invalid then scratch
      else if kind = .register then .register reg else .registerPair reg (reg + 1), [], ())
  freeScratchLocation _ _ := (false, ())

lemma overlapsWith_fresh {fresh : Location} {n : ℕ} (hn : registerBound loc < n)
    (hfresh : fresh = .register n ∨ fresh = .registerPair n (n + 1)) :
    loc.overlapsWith fresh = false := by
  rcases hfresh with rfl | rfl <;> cases loc <;>
    simp_all [registerBound, Location.overlapsWith, Location.contains, Location.isTwoWord,
      Location.lowOf, Location.highOf] <;> omega

lemma scratchOk_testAllocator : ScratchOk parallelMove (testAllocator parallelMove) := by
  refine ⟨fun r kind => ?_, fun r kind loc hloc => ?_⟩
  · simp only [testAllocator]
    generalize (if kind = .stackSlot ∨ kind = .fpuRegister ∨ kind = .register then
      Location.Kind.register else .registerPair) = kind'
    by_cases hscratch : r.getScratchLocation kind' ≠ .invalid
    · rw [if_pos hscratch]
      exact .inl ⟨kind', rfl, hscratch⟩
    rw [if_neg hscratch]
    right
    generalize hf : (if kind' = .register then Location.register _
      else .registerPair _ _) = fresh
    have hfresh : fresh = .register (freshRegister parallelMove r) ∨
        fresh = .registerPair (freshRegister parallelMove r)
          (freshRegister parallelMove r + 1) := by
      split at hf
      · exact .inl hf.symm
      · exact .inr hf.symm
    have hlt : ∀ n ∈ registersInUse parallelMove r, n < freshRegister parallelMove r :=
      fun n hn => Nat.lt_succ_of_le (le_sum_of_mem hn)
    have hmove : ∀ m ∈ parallelMove, max (registerBound m.source) (registerBound m.destination) <
        freshRegister parallelMove r := fun m hm =>
      hlt _ (mem_append_left _ (mem_append_left _ (mem_map_of_mem hm)))
    refine ⟨⟨?_, ?_, fun m hm => ?_, fun m hm => ?_⟩, ?_⟩
    · rcases hfresh with rfl | rfl <;> simp
    · rcases hfresh with rfl | rfl <;> rfl
    · exact overlapsWith_fresh (lt_of_le_of_lt (le_max_left ..) (hmove m hm)) hfresh
    · exact overlapsWith_fresh (lt_of_le_of_lt (le_max_right ..) (hmove m hm)) hfresh
    · rw [← not_eq_true, isBlockedByMoves, or_eq_true, any_eq_true, any_eq_true]
      rintro (⟨m, hm, hb⟩ | ⟨m, hm, hb⟩)
      · have hlt' := hlt _ (mem_append_left _ (mem_append_right _ (mem_map_of_mem hm)))
        rw [MoveOperands.blocks, overlapsWith_fresh hlt' hfresh, Bool.and_false] at hb
        cases hb
      · have hlt' := hlt _ (mem_append_right _ (mem_map_of_mem hm))
        rw [MoveOperands.blocks, overlapsWith_fresh hlt' hfresh, Bool.and_false] at hb
        cases hb
  · cases hloc

/-- Two registers are exchanged, and one of them is copied. -/
def exchange : List MoveOperands :=
  [⟨.register 0, .register 1, false⟩, ⟨.register 1, .register 0, false⟩,
    ⟨.register 1, .stackSlot 8, false⟩]

theorem pendingMoves_emitNativeCode_iff_exchange :
    WellFormed exchange ∧ ScratchOk exchange (testAllocator exchange) ∧
      ∃ r, emitNativeCode (testAllocator exchange) () exchange = some r ∧
        (∀ e ∈ r.events, e.NotBlocked) ∧ r.pendingMoves = [] := by
  have hw : WellFormed exchange := ⟨by decide, by decide, by decide⟩
  have hok := scratchOk_testAllocator exchange
  obtain ⟨r, hr, h⟩ := pendingMoves_emitNativeCode_iff hw hok ()
  have hall : (emitNativeCode (testAllocator exchange) () exchange).all
      (fun r => decide (∀ e ∈ r.events, e.NotBlocked)) = true := by decide
  rw [hr, Option.all_some, decide_eq_true_eq] at hall
  exact ⟨hw, hok, r, hr, hall, h.2 hall⟩

/-- A register pair is moved to the sources of two moves, one of which has a half of the pair as
    destination. -/
def lostMove : List MoveOperands :=
  [⟨.registerPair 2 3, .registerPair 4 5, true⟩, ⟨.register 4, .register 3, false⟩,
    ⟨.register 5, .register 0, false⟩]

/-- The value of the register 5 is saved, and queued while the register 0 is the source of a pending
    move. That move is performed later on, but nothing looks at the queue again. -/
theorem emitNativeCode_lostMove : WellFormed lostMove ∧
    ScratchOk lostMove (testAllocator lostMove) ∧
      (emitNativeCode (testAllocator lostMove) () lostMove).map
        (fun r => r.pendingMoves.map (·.destination)) = some [.register 0] :=
  ⟨⟨by decide, by decide, by decide⟩, scratchOk_testAllocator lostMove, by decide⟩

end ParallelMoveResolverNoSwap

end Art
