import Art.ParallelMove.NoSwapInv

/-!
# Cycles of single words

Without locations of two words, at most one move is pending at a time: the moves in progress form a
chain, in which the source of each but the first is the destination of the one before, so that
only the source of the first can be the destination that closes a cycle.
-/

namespace Art

open Location MoveOperands List

namespace Location

/-- A location of one word, or a constant. -/
def isSingleWord : Location → Bool
  | constant _ | stackSlot _ | register _ | fpuRegister _ => true
  | _ => false

lemma overlapsWith_iff_eq {loc other : Location} (h : loc.isSingleWord = true)
    (hother : other.isSingleWord = true) : loc.overlapsWith other = true ↔ loc = other := by
  have htwo : ∀ l : Location, l.isSingleWord = true → l.isTwoWord = false := fun l hl => by
    cases l <;> first | rfl | cases hl
  simp only [overlapsWith, contains, htwo loc h, htwo other hother, Bool.false_and, Bool.or_false,
    Bool.or_eq_true, decide_eq_true_eq]
  exact ⟨fun h => h.elim id Eq.symm, .inl⟩

end Location

namespace ParallelMoveResolverNoSwap

variable {β : Type} {r r1 r' : ParallelMoveResolverNoSwap β} {moves : List MoveOperands} {i j : ℕ}

/-- The sources in use have one word. -/
structure SingleWords (r : ParallelMoveResolverNoSwap β) : Prop where
  source : ∀ j, (r.move j).source ≠ .invalid → (r.move j).source.isSingleWord = true
  pending : ∀ p ∈ r.pendingMoves, p.source.isSingleWord = true

variable (hw : WellFormed moves) {k : ℕ}

include hw in
lemma WellFormed.destination_inj (hj : j < moves.length) (hk : k < moves.length)
    (h : (targetAt moves j) = (targetAt moves k)) : j = k := by
  by_contra hjk
  have hdisj := hw.operandsAt_disjoint hj hk hjk
  rw [h, overlapsWith_self] at hdisj
  cases hdisj

/-- A location that is not blocked is not a source in use. -/
lemma source_ne_of_not_isBlockedByMoves {loc : Location} (h : r.isBlockedByMoves loc = false) :
    (∀ p ∈ r.pendingMoves, p.source ≠ .invalid → p.source ≠ loc) ∧
      ∀ j, (r.move j).source ≠ .invalid → (r.move j).source ≠ loc := by
  have hnot := mt isBlockedByMoves_iff.2 (Bool.not_eq_true _ ▸ h)
  refine ⟨fun p hp hv heq => hnot (.inl ⟨p, hp, ?_⟩), fun j hv heq => hnot (.inr ⟨j, ?_⟩)⟩ <;>
    exact blocks_iff.2 ⟨hv, heq ▸ overlapsWith_self _⟩

/-- A move in progress is known with its destination. -/
lemma Base.lt_of_isPending (h : Base moves r) (hj : (r.move j).isPending = true) :
    j < moves.length := h.lt (isPending_iff.1 hj).2

/-! ## The pending move -/

/-- At most one move is pending, from a location that is not the destination of a move in progress
    to one that is the source of such a move, or else meets `Q`. -/
def SavedOr (moves : List MoveOperands) (Q : Location → Prop) (r : ParallelMoveResolverNoSwap β) : Prop :=
  r.pendingMoves = [] ∨ ∃ p, r.pendingMoves = [p] ∧ p.source ≠ p.destination ∧
    (∀ j, (r.move j).isPending = true → (targetAt moves j) ≠ p.source) ∧
    ((∃ j, (r.move j).isPending = true ∧ (r.move j).source = p.destination) ∨ Q p.destination)

/-- At most one move is pending, and a move in progress has to be finished before it. -/
def Saved (moves : List MoveOperands) (r : ParallelMoveResolverNoSwap β) : Prop :=
  SavedOr moves (fun _ => False) r

/-- Nothing is pending when no move is in progress. -/
lemma Saved.pendingMoves_eq_nil (h : Saved moves r)
    (hp : ∀ j, (r.move j).isPending = false) : r.pendingMoves = [] := by
  rcases h with h | ⟨p, -, -, -, ⟨j, hj, -⟩ | hfalse⟩
  · exact h
  · rw [hp j] at hj
    cases hj
  · exact hfalse.elim

/-- The loop over pending moves performs the pending move whose destination is the given source, once
    this is the source of no move. -/
lemma SavedOr.saved {source : Location} (h : SavedOr moves (fun loc => loc = source ∧
      ∀ k, (r.move k).source ≠ loc) r)
    (hsingle : SingleWords r) (hd : ∀ p ∈ r.pendingMoves, p.destination.isSingleWord = true)
    (hnone : r.getUnblockedPendingMove source = none) : Saved moves r := by
  rcases h with h | ⟨p, hp, hne, hhidden, hj | ⟨rfl, hfree⟩⟩
  · exact .inl h
  · exact .inr ⟨p, hp, hne, hhidden, .inl hj⟩
  have hmem : p ∈ r.pendingMoves := hp ▸ mem_singleton_self p
  have hnot := find?_eq_none.1 hnone p hmem
  rw [overlapsWith_self, Bool.true_and, Bool.not_eq_true', Bool.not_eq_false,
    isBlockedByMoves_iff, hp] at hnot
  rcases hnot with ⟨p', hp', hb⟩ | ⟨k, hb⟩
  · obtain rfl := mem_singleton.1 hp'
    have hov := (blocks_iff.1 hb).2
    rw [overlapsWith_iff_eq (hsingle.pending _ hmem) (hd _ hmem)] at hov
    exact absurd hov hne
  · obtain ⟨hv, hov⟩ := blocks_iff.1 hb
    rw [overlapsWith_iff_eq (hsingle.source k hv) (hd _ hmem)] at hov
    exact absurd hov (hfree k)

/-! ## Finishing a move -/

/-- Sources that are the destination of another move in progress were so before, and are not the
    source of the move that is finished. -/
def NoNewSource (moves : List MoveOperands) (i : ℕ) (r r' : ParallelMoveResolverNoSwap β) : Prop :=
  ∀ j ≠ i, (r.move j).isPending = true → ∀ k, (r'.move k).source = (targetAt moves j) →
    (r.move k).source = (targetAt moves j) ∧
      (r.move i).source ≠ (targetAt moves j)

/-- The move `i` is emitted to the location `target`. -/
def Emitted (i : ℕ) (target : Location) (r r' : ParallelMoveResolverNoSwap β) : Prop :=
  ∀ k, r'.move k = if k = i then (r.move i).eliminate else updateSource (r.move i).source target (r.move k)

section

variable {target : Location} (h : Emitted i target r r') {k : ℕ}

include h in
lemma Emitted.isPending_iff (hs : (r.move i).source ≠ .invalid) (ht : target ≠ .invalid) :
    (r'.move k).isPending = true ↔ k ≠ i ∧ (r.move k).isPending = true := by
  rw [h k]
  by_cases hk : k = i
  · rw [if_pos hk, MoveOperands.isPending_iff]
    exact ⟨fun h' => absurd rfl h'.2, fun h' => absurd hk h'.1⟩
  · rw [if_neg hk, MoveOperands.isPending_iff, MoveOperands.isPending_iff,
      updateSource_destination, ne_eq, updateSource_source hs ht]
    exact ⟨fun h' => ⟨hk, h'⟩, fun h' => h'.2⟩

include h in
/-- The source of a move afterwards: the target, or one that is not the source of `i`. -/
lemma Emitted.source {k : ℕ} (hv : (r'.move k).source ≠ .invalid) :
    k ≠ i ∧ ((r'.move k).source = target ∧ (r.move k).source = (r.move i).source ∨
      (r'.move k).source = (r.move k).source ∧ (r.move k).source ≠ (r.move i).source) := by
  rw [h k] at hv ⊢
  by_cases hk : k = i
  · rw [if_pos hk] at hv
    exact absurd rfl hv
  · rw [if_neg hk, updateSource]
    refine ⟨hk, ?_⟩
    split
    case isTrue heq => exact .inl ⟨rfl, heq⟩
    case isFalse hne => exact .inr ⟨rfl, hne⟩

include h in
lemma Emitted.noNewSource (hw : WellFormed moves) (hb : Base moves r)
    (ht : ∀ j ≠ i, (r.move j).isPending = true → target ≠ (targetAt moves j)) :
    NoNewSource moves i r r' := by
  intro j hji hj k hk
  have hdv := (hw.valid _ (operandsAt_mem (hb.lt_of_isPending hj))).2
  obtain ⟨-, ⟨hkt, -⟩ | ⟨hks, hne⟩⟩ := h.source (k := k) (hk ▸ hdv)
  · exact absurd (hkt.symm.trans hk) (ht j hji hj)
  · have hkd := hks.symm.trans hk
    exact ⟨hkd, fun heq => hne (hkd.trans heq.symm)⟩

include h in
/-- A location other than the target is no source any more if it was that of `i`. -/
lemma Emitted.source_ne {loc : Location} (hv : loc ≠ .invalid) (hloc : (r.move i).source = loc)
    (ht : target ≠ loc) (k : ℕ) : (r'.move k).source ≠ loc := by
  intro hk
  obtain ⟨-, ⟨hkt, -⟩ | ⟨hks, hne⟩⟩ := h.source (k := k) (hk ▸ hv)
  · exact ht (hkt.symm.trans hk)
  · exact hne (hks.symm.trans (hk.trans hloc.symm))

include h in
/-- A move in progress other than `i` keeps its source, or the source was that of `i`. -/
lemma Emitted.exists_source (hs : (r.move i).source ≠ .invalid) (htv : target ≠ .invalid)
    {loc : Location} (hv : loc ≠ .invalid) (ht : target ≠ loc) (hk : (r.move k).isPending = true)
    (hks : (r.move k).source = loc) : (∃ j, (r'.move j).isPending = true ∧ (r'.move j).source = loc) ∨
      loc = (r.move i).source ∧ ∀ k, (r'.move k).source ≠ loc := by
  by_cases hloc : (r.move i).source = loc
  · exact .inr ⟨hloc.symm, h.source_ne hv hloc ht⟩
  · have hki : k ≠ i := by
      rintro rfl
      exact hloc hks
    refine .inl ⟨k, (h.isPending_iff hs htv).2 ⟨hki, hk⟩, ?_⟩
    rw [h k, if_neg hki, updateSource, if_neg fun heq => hloc (heq.symm.trans hks), hks]

end

/-- What is known while a move from `source` is finished and the loop over pending moves runs. -/
structure Finishing (moves : List MoveOperands) (i : ℕ) (source : Location)
    (r r' : ParallelMoveResolverNoSwap β) : Prop where
  isPending : ∀ j ≠ i, (r.move j).isPending = true → (r'.move j).isPending = true
  noNewSource : NoNewSource moves i r r'
  saved : SavedOr moves (fun loc => loc = source ∧ ∀ k, (r'.move k).source ≠ loc) r'

/-- A move is performed to its destination. -/
lemma Saved.finishing_emit (h : Saved moves r) (hw : WellFormed moves) (hb : Base moves r)
    (hi : (r.move i).isPending = true) (hr' : Emitted i (targetAt moves i) r r')
    (hp : r'.pendingMoves = r.pendingMoves) : Finishing moves i (r.move i).source r r' := by
  have hs := (isPending_iff.1 hi).2
  have him := hb.lt_of_isPending hi
  have htv := (hw.valid _ (operandsAt_mem him)).2
  refine ⟨fun j hji hj => (hr'.isPending_iff hs htv).2 ⟨hji, hj⟩, hr'.noNewSource hw hb fun j hji hj heq =>
      hji (hw.destination_inj him (hb.lt_of_isPending hj) heq).symm, ?_⟩
  rcases h with h | ⟨p, hpend, hne, hhidden, ⟨k, hk, hks⟩ | hfalse⟩
  · exact .inl (hp.trans h)
  · have hmem : p ∈ r.pendingMoves := hpend ▸ mem_singleton_self p
    obtain ⟨l, hl, hls, hpd⟩ := hb.pendingDestination p hmem
    have hpv := (hb.pending_valid hw hmem).1
    -- the destination of the pending move is that of an eliminated move
    have hdi : (targetAt moves i) ≠ p.destination := fun heq => by
      obtain rfl := hw.destination_inj him hl (heq.trans hpd)
      exact hs hls
    exact .inr ⟨p, hp.trans hpend, hne, fun j hj => hhidden j ((hr'.isPending_iff hs htv).1 hj).2,
      hr'.exists_source hs htv hpv hdi hk hks⟩
  · exact hfalse.elim

variable (hb : Base moves r)

include hw hb in
/-- A move whose destination is the source of a move in progress is saved. -/
lemma finishing_save (hi : (r.move i).isPending = true) {x : Location} {w : Bool}
    (hx : ScratchFor moves (r.restore moves i) i x)
    (hr' : Emitted i x r r') (hp : r'.pendingMoves = [⟨x, (targetAt moves i), w⟩])
    (hk : (r.move k).isPending = true) (hks : (r.move k).source = (targetAt moves i)) :
    Finishing moves i (r.move i).source r r' := by
  have hs := (isPending_iff.1 hi).2
  have him := hb.lt_of_isPending hi
  have hdv := (hw.valid _ (operandsAt_mem him)).2
  have hself : x ≠ (targetAt moves i) := fun heq => by
    have := hx.disjoint i him (.inr rfl)
    rw [heq, overlapsWith_self] at this
    cases this
  have hhidden : ∀ j ≠ i, (r.move j).isPending = true →
      x ≠ (targetAt moves j) := fun j hji hj heq => by
    have hjd : ((r.restore moves i).move
        j).destination = .invalid := by
      rw [move_modifyMove_of_ne hji]
      exact (isPending_iff.1 hj).1
    have := hx.disjoint j (hb.lt_of_isPending hj) (.inl hjd)
    rw [heq, overlapsWith_self] at this
    cases this
  refine ⟨fun j hji hj => (hr'.isPending_iff hs hx.valid).2 ⟨hji, hj⟩,
    hr'.noNewSource hw hb hhidden, .inr ⟨_, hp, hself, fun j hj => ?_,
      hr'.exists_source hs hx.valid hdv hself hk hks⟩⟩
  obtain ⟨hji, hj⟩ := (hr'.isPending_iff hs hx.valid).1 hj
  exact (hhidden j hji hj).symm

/-- Performing the pending move. -/
lemma Finishing.performPendingMove {source : Location} (h : Finishing moves i source r r')
    (hw : WellFormed moves) (hb : Base moves r') (alloc : ScratchAllocator β) {m : MoveOperands}
    (hm : m ∈ r'.pendingMoves) : Finishing moves i source r (performPendingMove alloc m r') := by
  obtain ⟨scratches, b, heq, -⟩ := performPendingMove_eq alloc m r'
  obtain ⟨hsv, -⟩ := hb.pendingSource m hm
  obtain ⟨l, hl, hls, hmd⟩ := hb.pendingDestination m hm
  have hmv := (hb.pending_valid hw hm).1
  have hmove : ∀ k, (Art.ParallelMoveResolverNoSwap.performPendingMove alloc m r').move k =
      updateSource m.source m.destination (r'.move k) := fun k => by
    rw [heq]
    exact move_updateMoveSource (r := r') hsv _ k
  refine ⟨fun j hji hj => ?_, fun j hji hj k hk => ?_, .inl ?_⟩
  · obtain ⟨hd, hs⟩ := isPending_iff.1 (h.isPending j hji hj)
    rw [hmove, isPending_iff, updateSource_destination, ne_eq, updateSource_source hsv hmv]
    exact ⟨hd, hs⟩
  · refine h.noNewSource j hji hj k ?_
    rw [hmove, updateSource] at hk
    split at hk
    · have hj' := h.isPending j hji hj
      obtain rfl := hw.destination_inj hl (hb.lt_of_isPending hj') (hmd.symm.trans hk)
      exact absurd hls (isPending_iff.1 hj').2
    · exact hk
  · rw [heq]
    rcases h.saved with hnil | ⟨p, hp, -⟩
    · rw [hnil]
      rfl
    · rw [hp] at hm ⊢
      rw [mem_singleton.1 hm, erase_cons_head]

include hw hb in
/-- The end of `PerformMove`, after its loop: nothing is pending and only moves in progress are from
    the destination, or at most one move is pending and no move is from the destination. -/
lemma finishMove_chain (hsingle : SingleWords r)
    (hdest : ∀ m ∈ moves, m.destination.isSingleWord = true) {alloc : ScratchAllocator β}
    (hok : ScratchOk moves alloc) (hi : (r.move i).isPending = true)
    (hsingle' : SingleWords (finishMove alloc i (targetAt moves i) r))
    (hloop : (r.pendingMoves = [] ∧ ∀ k, (r.move k).source = (targetAt moves i) →
        (r.move k).isPending = true) ∨
      (Saved moves r ∧ ∀ k, (r.move k).source ≠ (targetAt moves i))) :
    Saved moves (finishMove alloc i (targetAt moves i) r) ∧
      NoNewSource moves i r (finishMove alloc i (targetAt moves i) r) := by
  have hs := (isPending_iff.1 hi).2
  have him := hb.lt_of_isPending hi
  have hi' : i < r.moves.length := hb.length.symm ▸ him
  have hds := hdest _ (operandsAt_mem him)
  have hsaved : Saved moves r := hloop.elim (fun h => .inl h.1) And.left
  have hrule := finishMove_rule hb hw hok hi (fun r1 => Finishing moves i (r.move i).source r r1)
    (fun _ => hsaved.finishing_emit hw hb hi (move_emit_restored (r := r) _ _ _ hi' hs _) rfl)
    (fun hblocked x scratches b w hx _ _ => by
      have hr' : Emitted i x r ((emitAndUpdate { r.restore moves i with scratches, backend := b } i
            (r.move i).source x).addPendingMove x (targetAt moves i) w) :=
        move_emit_restored (r := r) _ _ _ hi' hs _
      -- who blocks the destination?
      rcases isBlockedByMoves_iff.1 hblocked with ⟨p, hp, hbl⟩ | ⟨k, hbl⟩
      · obtain ⟨-, hov⟩ := blocks_iff.1 hbl
        rw [overlapsWith_iff_eq (hsingle.pending p hp) hds] at hov
        rcases hsaved with hnil | ⟨p', hpend, -, hhidden, -⟩
        · exact absurd (hnil ▸ hp) not_mem_nil
        · obtain rfl := mem_singleton.1 (hpend ▸ hp)
          exact absurd hov.symm (hhidden i hi)
      · rw [blocks_setDestination] at hbl
        obtain ⟨hkv, hov⟩ := blocks_iff.1 hbl
        rw [overlapsWith_iff_eq (hsingle.source k hkv) hds] at hov
        rcases hloop with ⟨hnil, hmarked⟩ | ⟨-, hne⟩
        · refine finishing_save (w := w) hw hb hi hx hr' ?_ (hmarked k hov) hov
          show r.pendingMoves ++ _ = _
          rw [hnil]
          rfl
        · exact absurd hov (hne k))
    fun r1 m hb1 h1 hm => h1.performPendingMove hw hb1 alloc (mem_of_find?_eq_some hm)
  obtain ⟨hfin, hbase, -, hnone⟩ := hrule
  refine ⟨hfin.saved.saved hsingle' (fun p hp => ?_) hnone, hfin.noNewSource⟩
  obtain ⟨l, hl, -, hpd⟩ := hbase.pendingDestination p hp
  exact hpd ▸ hdest _ (operandsAt_mem hl)

/-! ## The recursion -/

/-- What `PerformMove` does for the destinations of the moves in progress: they are not the source of
    further moves, and of none at all if they were the source of the move. -/
structure Chain (moves : List MoveOperands) (i : ℕ) (r r' : ParallelMoveResolverNoSwap β) :
    Prop where
  saved : Saved moves r'
  noNew : ∀ j, (r.move j).isPending = true → ∀ k, (r'.move k).source = (targetAt moves j) →
      (r.move k).source = (targetAt moves j)
  moved : ∀ j, (r.move j).isPending = true → (r.move i).source = (targetAt moves j) →
      ∀ k, (r'.move k).source ≠ (targetAt moves j)

variable (hi : (r.move i).isActive = true)

include hi in
lemma ne_of_isActive_of_isPending (hj : (r.move j).isPending = true) : j ≠ i := by
  rintro rfl
  exact (isActive_iff.1 hi).2 (isPending_iff.1 hj).1

include hw hb hi in
/-- Dropping a redundant move. -/
lemma chain_eliminate (heq : (r.move i).source = (r.move i).destination)
    (hnil : r.pendingMoves = []) : Chain moves i r (r.modifyMove i (·.eliminate)) := by
  obtain ⟨hs, hd⟩ := isActive_iff.1 hi
  have him := hb.lt hs
  refine ⟨.inl hnil, fun j hj k hk => ?_, fun j hj hij => ?_⟩
  · rw [move_modifyMove] at hk
    split at hk
    · exact absurd hk.symm (hw.valid _ (operandsAt_mem (hb.lt_of_isPending hj))).2
    · exact hk
  · rw [heq, hb.destination i hd] at hij
    exact absurd (hw.destination_inj him (hb.lt_of_isPending hj) hij).symm
      (ne_of_isActive_of_isPending hi hj)

include hw hb hi in
/-- Finishing a move after its loop. -/
lemma chain_finish (hframe : Frame (r.mark i) r1) (hpend : ((r.mark i).move i).isPending = true)
    (hnew : ∀ j, ((r.mark i).move j).isPending = true → ∀ k,
      (r1.move k).source = (targetAt moves j) → ((r.mark i).move k).source =
          (targetAt moves j)) (hsaved : Saved moves r')
    (hfin : NoNewSource moves i r1 r') : Chain moves i r r' := by
  have hsource : ∀ k, ((r.mark i).move k).source = (r.move k).source := fun k => by
    rw [move_modifyMove]
    split <;> rfl
  have hmark : ∀ j, (r.move j).isPending = true → ((r.mark i).move j).isPending = true := fun j hj => by
    rwa [move_modifyMove_of_ne (ne_of_isActive_of_isPending hi hj)]
  refine ⟨hsaved, fun j hj k hk => ?_, fun j hj hij k hk => ?_⟩ <;>
    have hji := ne_of_isActive_of_isPending hi hj <;>
    obtain ⟨hk1, hne⟩ := hfin j hji (hframe.isPending (hmark j hj)) k hk
  · rw [← hsource]
    exact hnew j (hmark j hj) k hk1
  · -- sources are changed by location, so that of `i` has been changed as that of `k`
    obtain ⟨f, hf⟩ := hframe.source
    have hki : (r.move k).source = (r.move i).source := by rw [← hsource, hnew j (hmark j hj) k hk1, hij]
    have hi1 := (hf i (hframe.pending i hpend)).1
    have hdv := (hw.valid _ (operandsAt_mem (hb.lt_of_isPending hj))).2
    have hk' := (hf k (hk1 ▸ hdv)).1
    rw [hsource] at hi1 hk'
    exact hne (hi1.trans ((hki ▸ hk').symm.trans hk1))

/-- The loop of `PerformMove` before the index `n`, from the state `r`: nothing has been performed, or
    one move has, and then no move is from the destination any more. -/
def InLoop (moves : List MoveOperands) (i n : ℕ) (r r' : ParallelMoveResolverNoSwap β) : Prop :=
  (r' = r ∧ ∀ k < n, (r.move k).source = (targetAt moves i) → (r.move k).isPending = true) ∨
  ((∀ k, (r'.move k).source ≠ (targetAt moves i)) ∧ ∃ k, Chain moves k r r')

variable {n : ℕ}

lemma InLoop.skip (h : InLoop moves i n r r')
    (hn : (r'.move n).isActive = true → (r'.move n).source ≠ (targetAt moves i))
    (hv : (targetAt moves i) ≠ .invalid) : InLoop moves i (n + 1) r r' := by
  rcases h with ⟨rfl, hbefore⟩ | h
  · refine .inl ⟨rfl, fun k hk hks => ?_⟩
    rcases Nat.lt_succ_iff_lt_or_eq.1 hk with hk | rfl
    · exact hbefore k hk hks
    · by_contra hp
      refine hn (isActive_iff.2 ⟨hks ▸ hv, fun hd => hp ?_⟩) hks
      exact isPending_iff.2 ⟨hd, hks ▸ hv⟩
  · exact .inr h

/-- After the loop. -/
lemma InLoop.finish (h : InLoop moves i n r r') (hn : ∀ k, (r.move k).source ≠ .invalid → k < n)
    (hnil : r.pendingMoves = []) (hv : (targetAt moves i) ≠ .invalid) :
    ((r'.pendingMoves = [] ∧ ∀ k, (r'.move k).source = (targetAt moves i) →
        (r'.move k).isPending = true) ∨
      (Saved moves r' ∧ ∀ k, (r'.move k).source ≠ (targetAt moves i))) ∧
    ∀ j, (r.move j).isPending = true → ∀ k, (r'.move k).source = (targetAt moves j) →
        (r.move k).source = (targetAt moves j) := by
  rcases h with ⟨rfl, hbefore⟩ | ⟨hne, k, hk⟩
  · exact ⟨.inl ⟨hnil, fun k hk => hbefore k (hn k (hk ▸ hv)) hk⟩, fun _ _ _ hk => hk⟩
  · exact ⟨.inr ⟨hk.saved, hne⟩, hk.noNew⟩

section

variable {alloc : ScratchAllocator β} {Inv : ParallelMoveResolverNoSwap β → Prop}

/-- `PerformMove`, if nothing is pending before. -/
lemma performMove_chain (hw : WellFormed moves)
    (hdest : ∀ m ∈ moves, m.destination.isSingleWord = true) (hok : ScratchOk moves alloc)
    (hInv : Invariant alloc (targetAt moves) Inv)
    (hbase : ∀ r, Inv r → Base moves r ∧ SingleWords r) {fuel : ℕ} (h : Inv r)
    (hi : (r.move i).isActive = true) (hc : (r.move i).source.isConstant = false)
    (hfuel : r.active.card ≤ fuel) (hnil : r.pendingMoves = []) :
    ∃ r', performMove alloc fuel i r = some r' ∧ Chain moves i r r' := by
  induction fuel generalizing i r with
  | zero =>
    exact absurd (mem_active.2 hi) (Finset.card_eq_zero.1 (Nat.le_zero.1 hfuel) ▸ Finset.notMem_empty i)
  | succ fuel ih =>
    have hb := (hbase r h).1
    by_cases hred : (r.move i).source = (r.move i).destination
    · rw [performMove, if_pos ((isRedundant_iff_of_isActive hi).2 hred)]
      exact ⟨_, rfl, chain_eliminate hw hb hi hred hnil⟩
    obtain ⟨hmark, hpend⟩ := hInv.mark_move h hi hc hred
    have hd := (hInv.destination r i h hi).1
    have him := operandsAt_mem (hb.lt (isActive_iff.1 hi).1)
    have hdv := (hw.valid _ him).2
    have hcard : (r.mark i).active.card ≤ fuel := Nat.lt_succ_iff.1 ((card_active_mark hi).trans_le hfuel)
    -- the loop performs at most one move: afterwards no move is from the destination
    obtain ⟨r1, hloop, h1, hframe, hin⟩ := performMove_loop alloc fuel
      (P := fun n r1 => Inv r1 ∧ Frame (r.mark i) r1 ∧ InLoop moves i n (r.mark i) r1)
      hi hred ⟨hmark, Frame.refl _, .inl ⟨rfl, fun k hk => absurd hk (Nat.not_lt_zero k)⟩⟩
      (fun k r1 h1 hk hov => by
        obtain ⟨h1, hframe, hin⟩ := h1
        have hks := (overlapsWith_iff_eq ((hbase r1 h1).2.source k
          (isActive_iff.1 hk).1) (hd ▸ hdest _ him)).1 hov
        have hconst := hInv.isConstant_of_overlaps h hi hov
        obtain ⟨r2, hr2, h2, hframe2, -⟩ := performMove_rule hInv h1 hk hconst
          ((Finset.card_le_card hframe.active_subset).trans hcard)
        rw [hd] at hks
        rcases hin with ⟨rfl, -⟩ | ⟨hne, -⟩
        · obtain ⟨r2', hr2', hchain⟩ := ih h1 hk hconst hcard hnil
          obtain rfl := Option.some.inj (hr2.symm.trans hr2')
          exact ⟨r2, hr2, h2, hframe2, .inr ⟨hchain.moved i hpend hks, k, hchain⟩⟩
        · exact absurd hks (hne k))
      fun k r1 h1 hk => ⟨h1.1, h1.2.1, h1.2.2.skip (fun hactive hks => by
        have hov := hk hactive
        rw [hks, hd, overlapsWith_self] at hov
        cases hov) hdv⟩
    have hlen : (r.mark i).moves.length = r.moves.length := length_modify ..
    obtain ⟨hafter, hnew⟩ := hin.finish (fun k hk => hlen ▸ lt_of_not_isEliminated
      (not_isEliminated_iff.2 hk)) hnil hdv
    have hpend1 := hframe.isPending hpend
    obtain ⟨hb1, hsingle⟩ := hbase r1 h1
    rw [hd] at hloop
    obtain ⟨hsaved, hfin⟩ := finishMove_chain hw hb1 hsingle hdest hok hpend1
      (hbase _ (hInv.finish r1 i h1 hpend1).1).2 hafter
    exact ⟨_, hloop, chain_finish hw hb hi hframe hpend hnew hsaved hfin⟩

end

end ParallelMoveResolverNoSwap

end Art
