import Art.ParallelMove.Chain
import Art.ParallelMove.Pending

/-!
# The values of a parallel move

The emitted moves, executed in order on the words of the machine. While the resolver runs, each value
that is still to be moved is at the source of its move or at that of a pending move, and those
that have been moved are at their destinations: a location is written only if it is not blocked.
-/

namespace Art

open List MoveOperands Bool

namespace Memory

variable {V : Type} {consts : ℕ → V} {σ : Memory V} {source destination loc : Location}

lemma exists_read_eq_singleton (consts : ℕ → V) (σ : Memory V) (h : loc.isSingleWord = true) :
    ∃ v, σ.read (fun id => [consts id]) loc = [v] := by
  cases loc <;> first | exact ⟨_, rfl⟩ | cases h

/-- A move of single words changes its destination only. -/
lemma read_move (hs : source.isSingleWord = true) (hd : destination.isSingleWord = true)
    (hdc : destination.isConstant = false) (hl : loc.isSingleWord = true) :
    (σ.move (fun id => [consts id]) source destination).read (fun id => [consts id]) loc =
      if loc = destination then σ.read (fun id => [consts id]) source
      else σ.read (fun id => [consts id]) loc := by
  obtain ⟨v, hv⟩ := exists_read_eq_singleton consts σ hs
  rw [Memory.move, hv]
  rcases destination with _ | _ | _ | _ | _ | _ | _ | _ | _ <;> try cases hd
  case constant => cases hdc
  all_goals
    rcases loc with _ | _ | _ | _ | _ | _ | _ | _ | _ <;> try cases hl
    all_goals
      simp [Location.words, Memory.read, Memory.assign, Function.update_apply] <;> split_ifs <;> rfl

end Memory

/-- The effect of an event on the words. -/
def Event.run {V : Type} (consts : ℕ → List V) (σ : Memory V) : Event → Memory V
  | .emitMove source destination => σ.move consts source destination
  | .addPendingMove _ _ _ => σ

namespace ParallelMoveResolverNoSwap

variable {β : Type} {r r' : ParallelMoveResolverNoSwap β}

/-- The words after the moves that have been emitted. -/
def memory {V : Type} (consts : ℕ → List V) (σ : Memory V) (r : ParallelMoveResolverNoSwap β) : Memory V :=
  r.events.foldl (Event.run consts) σ

/-! ## The invariant -/

section

variable {V : Type} (consts : ℕ → V) (σ : Memory V) (parallelMove moves : List MoveOperands)

/-- The value of a location after the moves that have been emitted. -/
def value (r : ParallelMoveResolverNoSwap β) (loc : Location) : List V :=
  (r.memory (fun id => [consts id]) σ).read (fun id => [consts id]) loc

/-- The value that a move has to bring to its destination. -/
def wanted (j : ℕ) : List V := σ.read (fun id => [consts id]) (operandsAt moves j).source

/-- A destination of the parallel move that no move of the list has. -/
structure Kept (loc : Location) : Prop where
  single : loc.isSingleWord = true
  destination : ∀ m ∈ moves, m.destination ≠ loc
  mem : ∃ m ∈ parallelMove, m.destination = loc

/-- Where the values are during the run. -/
structure ValueInv (r : ParallelMoveResolverNoSwap β) : Prop extends SingleWords r where
  moveValue : ∀ j, (r.move j).source ≠ .invalid → r.value consts σ (r.move j).source = wanted consts σ moves j
  pendingValue : ∀ p ∈ r.pendingMoves, ∀ j < moves.length, p.destination = (targetAt moves j) →
      r.value consts σ p.source = wanted consts σ moves j
  done : ∀ j < moves.length, (r.move j).source = .invalid →
    r.value consts σ (targetAt moves j) = wanted consts σ moves j ∨
      ∃ p ∈ r.pendingMoves, p.destination = (targetAt moves j)
  kept : ∀ loc, Kept parallelMove moves loc → r.value consts σ loc = σ.read (fun id => [consts id]) loc
  outside : ∀ loc ∈ r.scratches, Outside parallelMove loc

end

/-! ## Writing a location -/

section

variable {V : Type} {consts : ℕ → V} {σ : Memory V} {parallelMove moves : List MoveOperands}
  {i : ℕ} {source target : Location}

/-- A move from `source` to `target` has been emitted, and sources that were `source` may have been
    updated. -/
structure Wrote (consts : ℕ → V) (σ : Memory V) (source target : Location)
    (r r' : ParallelMoveResolverNoSwap β) : Prop where
  single : target.isSingleWord = true
  value : ∀ loc, loc.isSingleWord = true → r'.value consts σ loc =
    if loc = target then r.value consts σ source else r.value consts σ loc
  move : ∀ j, (r'.move j).source ≠ .invalid → (r.move j).source ≠ .invalid ∧
    ((r'.move j).source = target ∧ (r.move j).source = source ∨ (r'.move j).source = (r.move j).source)

variable {loc : Location}

lemma Wrote.value_of_ne (h : Wrote consts σ source target r r') (hloc : loc.isSingleWord = true)
    (hne : loc ≠ target) : r'.value consts σ loc = r.value consts σ loc := by
  rw [h.value loc hloc, if_neg hne]

lemma Wrote.value_target (h : Wrote consts σ source target r r') :
    r'.value consts σ target = r.value consts σ source := by
  rw [h.value target h.single, if_pos rfl]

/-- The words after a move has been emitted. -/
lemma value_of_memory (hs : source.isSingleWord = true) (ht : target.isSingleWord = true)
    (htc : target.isConstant = false)
    (hm : r'.memory (fun id => [consts id]) σ =
      (r.memory (fun id => [consts id]) σ).move (fun id => [consts id]) source target)
    (loc : Location) (hloc : loc.isSingleWord = true) : r'.value consts σ loc =
      if loc = target then r.value consts σ source else r.value consts σ loc := by
  rw [value, hm]
  exact Memory.read_move hs ht htc hloc

lemma memory_append_emitMove (c : ℕ → List V) (he : r'.events = r.events ++ [.emitMove source target]) :
    r'.memory c σ = (r.memory c σ).move c source target := by
  rw [memory, he, foldl_append]
  rfl

variable (h : ValueInv consts σ parallelMove moves r)

include h in
/-- A location is written that is not blocked: the values stay where they are, or are at the target. -/
lemma ValueInv.wrote (hw : Wrote consts σ source target r r')
    (hdest : ∀ m ∈ moves, m.destination.isSingleWord = true)
    (hfree : ∀ j, (r.move j).source ≠ .invalid → (r.move j).source ≠ target)
    (hpending : ∀ p ∈ r'.pendingMoves, (p ∈ r.pendingMoves ∧ p.source ≠ target) ∨
      p.source = target ∧ ∀ j < moves.length, p.destination = (targetAt moves j) →
        r.value consts σ source = wanted consts σ moves j)
    (hdone : ∀ j < moves.length, (r'.move j).source = .invalid →
      ((targetAt moves j) = target ∧ r.value consts σ source = wanted consts σ moves j) ∨
      (∃ p ∈ r'.pendingMoves, p.destination = (targetAt moves j)) ∨
      ((r.move j).source = .invalid ∧ (targetAt moves j) ≠ target ∧
        ∀ p ∈ r.pendingMoves, p.destination = (targetAt moves j) →
          p ∈ r'.pendingMoves)) (hkept : ∀ loc, Kept parallelMove moves loc → loc ≠ target)
    (houtside : ∀ loc ∈ r'.scratches, Outside parallelMove loc) :
    ValueInv consts σ parallelMove moves r' := by
  refine ⟨⟨fun j hj => ?_, fun p hp => ?_⟩, fun j hj => ?_, fun p hp j hj hpd => ?_,
    fun j hj hs => ?_, fun loc hloc => ?_, houtside⟩
  · obtain ⟨hv, ⟨hsrc, -⟩ | hsrc⟩ := hw.move j hj
    · exact hsrc ▸ hw.single
    · exact hsrc ▸ h.source j hv
  · rcases hpending p hp with ⟨hp, -⟩ | ⟨hpt, -⟩
    · exact h.pending p hp
    · exact hpt ▸ hw.single
  · obtain ⟨hv, ⟨hsrc, heq⟩ | hsrc⟩ := hw.move j hj
    · rw [hsrc, hw.value_target, ← heq, h.moveValue j hv]
    · rw [hsrc, hw.value_of_ne (h.source j hv) (hfree j hv), h.moveValue j hv]
  · rcases hpending p hp with ⟨hp, hne⟩ | ⟨hpt, hval⟩
    · rw [hw.value_of_ne (h.pending p hp) hne, h.pendingValue p hp j hj hpd]
    · rw [hpt, hw.value_target, hval j hj hpd]
  · rcases hdone j hj hs with ⟨hjt, hval⟩ | hpend | ⟨hs, hne, hkeep⟩
    · exact .inl (by rw [hjt, hw.value_target, hval])
    · exact .inr hpend
    · rw [hw.value_of_ne (hdest _ (operandsAt_mem hj)) hne]
      exact (h.done j hj hs).imp_right fun ⟨p, hp, hpd⟩ => ⟨p, hkeep p hp hpd, hpd⟩
  · rw [hw.value_of_ne hloc.single (hkept loc hloc), h.kept loc hloc]

/-- The move `i` is emitted. -/
lemma Emitted.wrote (h : Emitted i target r r') (hs : (r.move i).source ≠ .invalid)
    (hsingle : (r.move i).source.isSingleWord = true) (ht : target.isSingleWord = true)
    (htc : target.isConstant = false)
    (hm : r'.memory (fun id => [consts id]) σ = (r.memory (fun id => [consts id]) σ).move
      (fun id => [consts id]) (r.move i).source target) : Wrote consts σ (r.move i).source target r r' := by
  refine ⟨ht, value_of_memory hsingle ht htc hm, fun j hj => ?_⟩
  obtain ⟨-, ⟨hjt, hji⟩ | ⟨hjs, -⟩⟩ := h.source hj
  · exact ⟨hji ▸ hs, .inl ⟨hjt, hji⟩⟩
  · exact ⟨hjs ▸ hj, .inr hjs⟩

/-- A destination of the list is not kept, nor is a location outside of the parallel move. -/
lemma Kept.ne_destination (h : Kept parallelMove moves loc) (hi : i < moves.length) :
    loc ≠ (targetAt moves i) :=
  (h.destination _ (operandsAt_mem hi)).symm

variable {x : Location}

lemma Kept.ne_outside (h : Kept parallelMove moves loc) (hx : Outside parallelMove x) : loc ≠ x := by
  rintro rfl
  obtain ⟨m, hm, hmd⟩ := h.mem
  have := hx.destination m hm
  rw [hmd, Location.overlapsWith_self] at this
  cases this

variable (hw : WellFormed moves) (hdest : ∀ m ∈ moves, m.destination.isSingleWord = true)

include h hw hdest in
/-- A move is emitted to its destination, which is not blocked. -/
lemma ValueInv.emit (hi : i < moves.length) (hs : (r.move i).source ≠ .invalid)
    (hfree : ∀ j, (r.move j).source ≠ .invalid → (r.move j).source ≠ (targetAt moves i))
    (hpfree : ∀ p ∈ r.pendingMoves, p.source ≠ (targetAt moves i))
    (hwrote : Wrote consts σ (r.move i).source (targetAt moves i) r r')
    (helim : ∀ j ≠ i, (r'.move j).source = .invalid → (r.move j).source = .invalid)
    (hp : r'.pendingMoves = r.pendingMoves) (hscr : r'.scratches = r.scratches) :
    ValueInv consts σ parallelMove moves r' := by
  refine h.wrote hwrote hdest hfree (fun p hp' => .inl ?_) (fun j hj hjs => ?_)
    (fun loc hloc => hloc.ne_destination hi) (hscr ▸ h.outside)
  · rw [hp] at hp'
    exact ⟨hp', hpfree p hp'⟩
  · by_cases hji : j = i
    · exact .inl ⟨by rw [hji], by rw [h.moveValue i hs, hji]⟩
    · exact .inr (.inr ⟨helim j hji hjs, fun heq => hji (hw.destination_inj hj hi heq),
        fun p hp' _ => hp ▸ hp'⟩)

include h hw hdest in
/-- A move is saved in a scratch location, and a pending move is queued. -/
lemma ValueInv.save (hi : i < moves.length) (hs : (r.move i).source ≠ .invalid) {w : Bool}
    (hx : ScratchFor moves (r.restore moves i) i x)
    (hbase : Base moves r) (hxs : x.isSingleWord = true) (hxk : ∀ loc, Kept parallelMove moves loc → loc ≠ x)
    (hr' : Emitted i x r r')
    (hp : r'.pendingMoves = r.pendingMoves ++ [⟨x, (targetAt moves i), w⟩])
    (hscr : ∀ loc ∈ r'.scratches, Outside parallelMove loc)
    (hm : r'.memory (fun id => [consts id]) σ = (r.memory (fun id => [consts id]) σ).move
      (fun id => [consts id]) (r.move i).source x) : ValueInv consts σ parallelMove moves r' := by
  have hwrote := hr'.wrote hs (h.source i hs) hxs hx.notConstant hm
  obtain ⟨hpfree, hfree⟩ := source_ne_of_not_isBlockedByMoves hx.notBlocked
  refine h.wrote hwrote hdest (fun j hj => ?_) (fun p hp' => ?_) (fun j hj hjs => ?_) hxk hscr
  · have := hfree j
    rw [move_modifyMove] at this
    split at this <;> exact this hj
  · rw [hp, mem_append, mem_singleton] at hp'
    rcases hp' with hp' | rfl
    · exact .inl ⟨hp', hpfree p hp' (hbase.pendingSource p hp').1⟩
    · refine .inr ⟨rfl, fun j hj hjd => ?_⟩
      rw [← hw.destination_inj hi hj hjd, h.moveValue i hs]
  · by_cases hji : j = i
    · exact .inr (.inl ⟨_, hp ▸ mem_append_right _ (mem_singleton_self _), by rw [hji]⟩)
    · rw [hr' j, if_neg hji, updateSource_source hs hx.valid] at hjs
      refine .inr (.inr ⟨hjs, fun heq => ?_, fun p hp' _ => hp ▸ mem_append_left _ hp'⟩)
      have hjd : ((r.restore moves i).move
          j).destination = .invalid := by
        rw [move_modifyMove_of_ne hji]
        exact hbase.eliminated j hjs
      have := hx.disjoint j hj (.inl hjd)
      rw [heq, Location.overlapsWith_self] at this
      cases this

include h hw hdest in
/-- A pending move is performed, whose destination is not blocked. -/
lemma ValueInv.performPendingMove (hbase : Base moves r) (alloc : ScratchAllocator β) {m : MoveOperands}
    (hm : m ∈ r.pendingMoves) (hb : r.isBlockedByMoves m.destination = false) :
    ValueInv consts σ parallelMove moves (performPendingMove alloc m r) := by
  obtain ⟨scratches, b, heq, hsub⟩ := performPendingMove_eq alloc m r
  obtain ⟨l, hl, hls, hmd⟩ := hbase.pendingDestination m hm
  obtain ⟨hsv, -⟩ := hbase.pendingSource m hm
  have hmv := (hbase.pending_valid hw hm).1
  obtain ⟨hpfree, hfree⟩ := source_ne_of_not_isBlockedByMoves hb
  have hds := hdest _ (operandsAt_mem hl)
  have hdc := hw.notConstant _ (operandsAt_mem hl)
  have hmove : ∀ k, (Art.ParallelMoveResolverNoSwap.performPendingMove alloc m r).move k =
      updateSource m.source m.destination (r.move k) := fun k => by
    rw [heq]
    exact move_updateMoveSource (r := r) hsv m.destination k
  have hwrote : Wrote consts σ m.source m.destination r
      (Art.ParallelMoveResolverNoSwap.performPendingMove alloc m r) := by
    refine ⟨hmd ▸ hds, value_of_memory (h.pending m hm) (hmd ▸ hds) (hmd ▸ hdc)
      (memory_append_emitMove _ (by rw [heq])), fun j hj => ?_⟩
    rw [hmove] at hj ⊢
    refine ⟨mt (updateSource_source hsv hmv).2 hj, ?_⟩
    rw [updateSource]
    split
    case isTrue heq => exact .inl ⟨rfl, heq⟩
    case isFalse => exact .inr rfl
  have hpend : (Art.ParallelMoveResolverNoSwap.performPendingMove alloc m r).pendingMoves =
      r.pendingMoves.erase m := by rw [heq]
  refine h.wrote hwrote hdest hfree (fun p hp => .inl ?_) (fun j hj hjs => ?_)
    (fun loc hloc => hmd ▸ hloc.ne_destination hl)
    fun loc hloc => h.outside loc (hsub loc (by rwa [heq] at hloc))
  · rw [hpend] at hp
    have hp' := mem_of_mem_erase hp
    exact ⟨hp', hpfree p hp' (hbase.pendingSource p hp').1⟩
  · rw [hmove, updateSource_source hsv hmv] at hjs
    by_cases hjd : (targetAt moves j) = m.destination
    · exact .inl ⟨hjd, h.pendingValue m hm j hj hjd.symm⟩
    · refine .inr (.inr ⟨hjs, hjd, fun p hp hpd => ?_⟩)
      rw [hpend]
      refine (mem_erase_of_ne ?_).2 hp
      rintro rfl
      exact hjd hpd.symm

variable {alloc : ScratchAllocator β}

/-- The location that `AllocateScratchLocationFor` returns is not kept. -/
lemma Kept.ne_allocate (h : Kept parallelMove moves loc) (hbase : Base moves r)
    (houtside : ∀ x ∈ r.scratches, Outside parallelMove x) (hok : ScratchOk parallelMove alloc)
    (kind : Location.Kind) : loc ≠ (alloc.allocateScratchLocationFor r kind).1 := by
  rcases hok.location r kind with ⟨kind', heq, hx⟩ | ⟨hout, -⟩
  · rw [heq] at hx ⊢
    obtain ⟨-, -, hscratch | ⟨k, hk, hkx⟩⟩ := getScratchLocation_spec hx
    · exact h.ne_outside (houtside _ hscratch)
    · rw [← hkx, hbase.destination k (hkx ▸ hx)]
      exact h.ne_destination (hbase.length ▸ hk)
  · exact h.ne_outside hout

/-- The subclass saves a single word in a single word. -/
def SavesSingleWord (alloc : ScratchAllocator β) : Prop :=
  ∀ r (loc : Location), loc.isSingleWord = true → loc.isConstant = false →
    (alloc.allocateScratchLocationFor r loc.kind).1.isSingleWord = true

include h hw hdest in
lemma ValueInv.finish (hbase : Base moves r) (hsub : ∀ m ∈ moves, m ∈ parallelMove)
    (hok : ScratchOk parallelMove alloc) (hsave : SavesSingleWord alloc) (hi : (r.move i).isPending = true) :
    (Base moves (finishMove alloc i (targetAt moves i) r) ∧
      ValueInv consts σ parallelMove moves (finishMove alloc i (targetAt moves i) r)) ∧
      FinishFrame i r (finishMove alloc i (targetAt moves i) r) := by
  have hs := (isPending_iff.1 hi).2
  have him := hbase.lt_of_isPending hi
  have hi' : i < r.moves.length := hbase.length.symm ▸ him
  have hdi := hw.valid _ (operandsAt_mem him)
  obtain ⟨hval, hb, hframe, -⟩ := finishMove_rule hbase hw (hok.mono hsub) hi
    (ValueInv consts σ parallelMove moves)
    (fun hfree => by
      obtain ⟨hpfree, hfree⟩ := source_ne_of_not_isBlockedByMoves hfree
      have hr' : Emitted i (targetAt moves i) r ((r.restore moves i).emitAndUpdate i (r.move i).source
            (targetAt moves i)) :=
        move_emit_restored (r := r) _ r.scratches r.backend hi' hs _
      refine h.emit hw hdest him hs (fun j hj => ?_) (fun p hp => hpfree p hp (hbase.pendingSource p hp).1)
        (hr'.wrote hs (h.source i hs) (hdest _ (operandsAt_mem him))
          (hw.notConstant _ (operandsAt_mem him)) (memory_append_emitMove _ rfl))
        (fun j hji hjs => ?_) rfl rfl
      · have := hfree j
        rw [move_modifyMove] at this
        split at this <;> exact this hj
      · rw [hr' j, if_neg hji] at hjs
        exact (updateSource_source hs hdi.2).1 hjs)
    (fun _ x scratches b w hx hxa hscr => by
      refine h.save hw hdest him hs hx hbase (hxa ▸ hsave _ _ (h.source i hs) (hbase.inProgress i hi))
        (fun loc hloc => ?_) (move_emit_restored (r := r) _ _ _ hi' hs _) rfl
        (fun loc hloc => ?_) ?_
      · rw [hxa]
        exact hloc.ne_allocate (hbase.setDestination hi' hs (hbase.inProgress i hi) (.inr rfl))
          h.outside hok _
      · rw [hscr] at hloc
        exact (mem_append.1 hloc).elim (h.outside loc) (hok.added _ _ loc)
      · show foldl _ _ ((r.events ++ [_]) ++ [_]) = _
        rw [foldl_append, foldl_append]
        rfl)
    fun r1 m hb1 h1 hm => by
      have hsuits := find?_some hm
      rw [and_eq_true, not_eq_true'] at hsuits
      exact h1.performPendingMove hw hdest hb1 alloc (mem_of_find?_eq_some hm) hsuits.2
  exact ⟨⟨hb, hval⟩, hframe⟩

include hw hdest in
/-- The steps of `PerformMove` keep the invariant. -/
lemma valueInv_invariant (hsub : ∀ m ∈ moves, m ∈ parallelMove) (hok : ScratchOk parallelMove alloc)
    (hsave : SavesSingleWord alloc) : Invariant alloc (targetAt moves)
      fun r => Base moves r ∧ ValueInv consts σ parallelMove moves r where
  destination r j h hj := by
    obtain ⟨hs, hd⟩ := isActive_iff.1 hj
    exact ⟨h.1.destination j hd, hw.notConstant _ (operandsAt_mem (h.1.lt hs))⟩
  drop r i h hi heq := by
    obtain ⟨hb, h⟩ := h
    obtain ⟨hs, hd⟩ := isActive_iff.1 hi
    have hlt : i < r.moves.length := hb.length.symm ▸ hb.lt hs
    have hother := fun j (hj : j ≠ i) => move_modifyMove_of_ne (r := r) hj (·.eliminate)
    have hne := fun j => ne_of_source_ne hlt (j := j)
    refine ⟨hb.eliminate hlt, ⟨⟨fun j hj => ?_, h.pending⟩, fun j hj => ?_, h.pendingValue,
      fun j hj hjs => ?_, h.kept, h.outside⟩⟩
    · have hji := hne j hj
      rw [hother j hji] at hj ⊢
      exact h.source j hj
    · have hji := hne j hj
      rw [hother j hji] at hj ⊢
      exact h.moveValue j hj
    · by_cases hji : j = i
      · -- the value is at the destination already
        rw [hji, ← hb.destination i hd, ← heq]
        exact .inl (h.moveValue i hs)
      · rw [hother j hji] at hjs
        exact h.done j hj hjs
  mark r i h hi hc _ := by
    obtain ⟨hb, h⟩ := h
    have hs := (isActive_iff.1 hi).1
    have hsource : ∀ j, ((r.mark i).move j).source = (r.move j).source := fun j => by
      rw [move_modifyMove]
      split <;> rfl
    refine ⟨hb.setDestination (hb.length.symm ▸ hb.lt hs) hs hc (.inl rfl),
      ⟨⟨fun j hj => ?_, h.pending⟩, fun j hj => ?_, h.pendingValue, fun j hj hjs => ?_, h.kept, h.outside⟩⟩
    · rw [hsource] at hj ⊢
      exact h.source j hj
    · rw [hsource] at hj ⊢
      exact h.moveValue j hj
    · rw [hsource] at hjs
      exact h.done j hj hjs
  finish _ _ h hi := h.2.finish hw hdest h.1 hsub hok hsave hi

/-! ## Constants -/

/-- The state between the moves from constants: what is left is from a constant or from a destination
    that has its value. -/
structure Rest (consts : ℕ → V) (σ : Memory V) (parallelMove moves : List MoveOperands)
    (r : ParallelMoveResolverNoSwap β) : Prop where
  valueInv : ValueInv consts σ parallelMove moves r
  length : r.moves.length = moves.length
  pendingMoves : r.pendingMoves = []
  destination : ∀ j, (r.move j).source ≠ .invalid → (r.move j).destination = (targetAt moves j)
  source_ne : ∀ j k, (r.move j).source ≠ .invalid → (r.move k).source ≠ .invalid →
    (r.move j).source ≠ (targetAt moves k)

lemma Rest.lt (h : Rest consts σ parallelMove moves r) (hi : (r.move i).source ≠ .invalid) :
    i < moves.length :=
  h.length ▸ lt_of_not_isEliminated (not_isEliminated_iff.2 hi)

include hw hdest in
/-- A move is emitted; of the others, those from the same source may be updated. -/
lemma Rest.emit (h : Rest consts σ parallelMove moves r) (hi : (r.move i).source ≠ .invalid)
    (hlen : r'.moves.length = r.moves.length) (hself : (r'.move i).source = .invalid)
    (hother : ∀ j ≠ i, r'.move j = r.move j ∨ (r.move j).source = (r.move i).source ∧
      r'.move j = (r.move j).setSource (targetAt moves i))
    (hp : r'.pendingMoves = r.pendingMoves) (hscr : r'.scratches = r.scratches)
    (he : r'.events = r.events ++ [.emitMove (r.move i).source (targetAt moves i)]) :
    Rest consts σ parallelMove moves r' := by
  have him := h.lt hi
  have hds := hdest _ (operandsAt_mem him)
  have hdv := (hw.valid _ (operandsAt_mem him)).2
  have hmove : ∀ j, (r'.move j).source ≠ .invalid → j ≠ i ∧ (r.move j).source ≠ .invalid ∧
      ((r'.move j).source = (targetAt moves i) ∧
        (r.move j).source = (r.move i).source ∨ (r'.move j).source = (r.move j).source) :=
    fun j hj => by
      have hji : j ≠ i := fun hji => hj (hji ▸ hself)
      rcases hother j hji with heq | ⟨hsame, heq⟩
      · exact ⟨hji, heq ▸ hj, .inr (by rw [heq])⟩
      · exact ⟨hji, hsame ▸ hi, .inl ⟨by rw [heq]; rfl, hsame⟩⟩
  have hwrote : Wrote consts σ (r.move i).source (targetAt moves i) r r' :=
    ⟨hds, value_of_memory (h.valueInv.source i hi) hds (hw.notConstant _ (operandsAt_mem him))
      (memory_append_emitMove _ he), fun j hj => (hmove j hj).2⟩
  refine ⟨h.valueInv.emit hw hdest him hi (fun j hj => h.source_ne j i hj hi)
      (fun p hp' => absurd (h.pendingMoves ▸ hp') not_mem_nil) hwrote (fun j hji hj => ?_) hp hscr,
    hlen.trans h.length, hp.trans h.pendingMoves, fun j hj => ?_, fun j k hj hk => ?_⟩
  · rcases hother j hji with heq | ⟨-, heq⟩
    · rwa [heq] at hj
    · rw [heq] at hj
      exact absurd hj hdv
  · obtain ⟨hji, hjs, -⟩ := hmove j hj
    rcases hother j hji with heq | ⟨-, heq⟩ <;> rw [heq] <;> exact h.destination j hjs
  · obtain ⟨-, hjs, hsrc⟩ := hmove j hj
    obtain ⟨hki, hks, -⟩ := hmove k hk
    rcases hsrc with ⟨hsrc, -⟩ | hsrc
    · rw [hsrc]
      exact fun heq => hki (hw.destination_inj him (h.lt hks) heq).symm
    · rw [hsrc]
      exact h.source_ne j k hjs hks

include hw in
/-- The state after the first loop of `EmitNativeCode`. -/
lemma rest_of_performAll (hbase : Base moves r) (h : ValueInv consts σ parallelMove moves r)
    (hnil : r.pendingMoves = []) (hp : ∀ j, (r.move j).isPending = false)
    (hdone : ∀ j, (r.move j).source ≠ .invalid → (r.move j).source.isConstant = true) :
    Rest consts σ parallelMove moves r := by
  refine ⟨h, hbase.length, hnil, fun j hj => hbase.destination j fun hd => ?_, fun j k hj hk heq => ?_⟩
  · have := hp j
    rw [← not_eq_true, isPending_iff] at this
    exact this ⟨hd, hj⟩
  · have := hdone j hj
    rw [heq, hw.notConstant _ (operandsAt_mem (hbase.lt hk))] at this
    cases this

include hw hdest in
/-- The loop for constants that are not moved to the stack. -/
lemma rest_emitConstants (h : Rest consts σ parallelMove moves r) (n : ℕ) :
    Rest consts σ parallelMove moves ((List.range n).foldl (fun r i =>
      let m := r.move i
      if !m.isEliminated && m.destination.kind ≠ .stackSlot && m.destination.kind ≠ .doubleStackSlot then
        r.emitAndUpdate i m.source m.destination
      else r) r) := by
  refine Loop.foldl_range (P := fun _ => Rest consts σ parallelMove moves) h fun i _ s hs => ?_
  dsimp only
  split
  case isFalse => exact hs
  case isTrue hcond =>
    rw [and_eq_true, and_eq_true, not_eq_true', not_isEliminated_iff] at hcond
    have hi := hcond.1.1
    have hmove := move_emitAndUpdate (r := s) (lt_of_not_isEliminated (not_isEliminated_iff.2 hi)) hi
      (targetAt moves i)
    rw [hs.destination i hi]
    refine hs.emit hw hdest hi ?_ ?_ (fun j hji => ?_) rfl rfl rfl
    · rw [emitAndUpdate, updateMoveSource, length_map]
      exact length_modify ..
    · rw [hmove, if_pos rfl]
      rfl
    · rw [hmove, if_neg hji, updateSource]
      split
      case isTrue heq => exact .inr ⟨heq, rfl⟩
      case isFalse => exact .inl rfl

include hw hdest in
/-- The last loop performs all moves that are left. -/
lemma rest_emitStackSlots (h : Rest consts σ parallelMove moves r) (n : ℕ) :
    let r' := (List.range n).foldl (fun r i =>
      let m := r.move i
      if !m.isEliminated then (r.emitMove m.source m.destination).modifyMove i (·.eliminate) else r) r
    Rest consts σ parallelMove moves r' ∧ ∀ j < n, (r'.move j).source = .invalid := by
  refine Loop.foldl_range (P := fun n r => Rest consts σ parallelMove moves r ∧
    ∀ j < n, (r.move j).source = .invalid) ⟨h, fun j hj => absurd hj (Nat.not_lt_zero j)⟩
    fun i _ s ⟨hs, hbefore⟩ => ?_
  dsimp only
  split
  case isFalse hcond =>
    rw [not_eq_true', not_eq_false, isEliminated_iff] at hcond
    refine ⟨hs, fun j hj => ?_⟩
    rcases Nat.lt_succ_iff_lt_or_eq.1 hj with hj | rfl
    · exact hbefore j hj
    · exact hcond
  case isTrue hcond =>
    rw [not_eq_true', not_isEliminated_iff] at hcond
    have hlt := lt_of_not_isEliminated (not_isEliminated_iff.2 hcond)
    rw [hs.destination i hcond]
    have hself := source_eliminate (r := s.emitMove (s.move i).source (targetAt moves i)) hlt
    have hother : ∀ j ≠ i, ((s.emitMove (s.move i).source
        (targetAt moves i)).modifyMove i (·.eliminate)).move j = s.move j :=
      fun j hji => move_modifyMove_of_ne (r := s.emitMove _ _) hji _
    refine ⟨hs.emit hw hdest hcond (length_modify ..) hself (fun j hji => .inl (hother j hji))
      rfl rfl rfl, fun j hj => ?_⟩
    by_cases hji : j = i
    · exact hji ▸ hself
    · rw [hother j hji]
      exact hbefore j (by omega)

include hw in
/-- The invariant holds at the start. -/
lemma valueInv_start (hsource : ∀ m ∈ moves, m.source.isSingleWord = true) (b : β) :
    ValueInv consts σ parallelMove moves ({ moves, backend := b } : ParallelMoveResolverNoSwap β) := by
  have hlt : ∀ j, (operandsAt moves j).source ≠ .invalid → j < moves.length := fun j hj =>
    (base_start hw b).1.lt hj
  exact ⟨⟨fun j hj => hsource _ (operandsAt_mem (hlt j hj)), nofun⟩, fun _ _ => rfl, nofun,
    fun j hj hs => absurd hs (hw.valid _ (operandsAt_mem hj)).1, fun _ _ => rfl, nofun⟩

end

variable (parallelMove : List MoveOperands)

/-- A parallel move of single words. -/
def SingleWordMoves : Prop :=
  ∀ m ∈ parallelMove, m.source.isSingleWord = true ∧ m.destination.isSingleWord = true

/-- A redundant move is not in the list of moves, and its destination is kept. -/
lemma WellFormed.kept_of_isRedundant {parallelMove : List MoveOperands}
    (hw : WellFormed parallelMove) (hsingle : SingleWordMoves parallelMove) {m : MoveOperands}
    (hm : m ∈ parallelMove) (hred : m.isRedundant = true) :
    Kept parallelMove (parallelMove.filter (!·.isRedundant)) m.destination := by
  refine ⟨(hsingle m hm).2, fun m' hm' heq => ?_, m, hm, rfl⟩
  obtain ⟨hmem, hnot⟩ := mem_filter.1 hm'
  obtain ⟨j, hj, rfl⟩ := exists_operandsAt hmem
  obtain ⟨k, hk, rfl⟩ := exists_operandsAt hm
  rw [hw.destination_inj hj hk heq, hred] at hnot
  cases hnot

/-- If all locations are single words, the emitted moves bring to every destination the value that
    its source had. -/
theorem read_emitNativeCode {parallelMove : List MoveOperands} (hw : WellFormed parallelMove)
    (hsingle : SingleWordMoves parallelMove) {alloc : ScratchAllocator β}
    (hok : ScratchOk parallelMove alloc) (hsave : SavesSingleWord alloc) (backend : β)
    {V : Type} (consts : ℕ → V) (σ : Memory V) :
    ∃ r, emitNativeCode alloc backend parallelMove = some r ∧ ∀ m ∈ parallelMove,
      (r.memory (fun id => [consts id]) σ).read (fun id => [consts id]) m.destination =
        σ.read (fun id => [consts id]) m.source := by
  have hw' : WellFormed (parallelMove.filter (!·.isRedundant)) := hw.filter _
  have hsub : ∀ m ∈ parallelMove.filter (!·.isRedundant), m ∈ parallelMove := fun m hm =>
    mem_of_mem_filter hm
  have hkept := fun m hm hred => hw.kept_of_isRedundant hsingle (m := m) hm hred
  have hmem : ∀ m ∈ parallelMove, m.isRedundant = false →
      m ∈ parallelMove.filter (!·.isRedundant) := fun m hm hred =>
    mem_filter.2 ⟨hm, by rw [hred]; rfl⟩
  unfold emitNativeCode
  generalize parallelMove.filter (!·.isRedundant) = moves at hw' hsub hkept hmem ⊢
  have hdest : ∀ m ∈ moves, m.destination.isSingleWord = true := fun m hm =>
    (hsingle m (hsub m hm)).2
  have hInv : Invariant alloc (targetAt moves)
      fun r => Base moves r ∧ ValueInv consts σ parallelMove moves r :=
    valueInv_invariant hw' hdest hsub hok hsave
  obtain ⟨hbase, hpending⟩ := base_start hw' backend
  obtain ⟨r, hr, ⟨hb, hval⟩, hnil, hp, hdone⟩ := performAll_rule hInv (fun _ h => h.1)
    (Q := fun r => r.pendingMoves = [])
    (fun i r r' h hq hi hc hcard hr' hp' => by
      obtain ⟨r1, hr1, hchain⟩ := performMove_chain hw' hdest (hok.mono hsub) hInv
        (fun _ h => ⟨h.1, h.2.toSingleWords⟩) h hi hc hcard hq
      obtain rfl := Option.some.inj (hr'.symm.trans hr1)
      exact hchain.saved.pendingMoves_eq_nil hp')
    ⟨hbase, valueInv_start hw' (fun m hm => (hsingle m (hsub m hm)).1) backend⟩ rfl hpending
  refine ⟨_, Option.bind_eq_some_iff.2 ⟨r, hr, rfl⟩, ?_⟩
  obtain ⟨hrest, helim⟩ := rest_emitStackSlots hw' hdest
    (rest_emitConstants hw' hdest (rest_of_performAll hw' hb hval hnil hp hdone) _) _
  intro m hm
  cases hred : m.isRedundant with
  | true =>
    have heq : m.source = m.destination := by
      simpa [MoveOperands.isRedundant, MoveOperands.isEliminated, hw.valid m hm] using hred
    rw [heq]
    exact hrest.valueInv.kept _ (hkept m hm hred)
  | false =>
    obtain ⟨j, hj, rfl⟩ := exists_operandsAt (hmem m hm hred)
    rcases hrest.valueInv.done j hj (helim j hj) with hv | ⟨p, hp, -⟩
    · exact hv
    · rw [hrest.pendingMoves] at hp
      exact absurd hp not_mem_nil

/-! ## The resolver for tests -/

lemma savesSingleWord_testAllocator : SavesSingleWord (testAllocator parallelMove) := by
  intro r loc hloc hc
  have hk : (if loc.kind = .stackSlot ∨ loc.kind = .fpuRegister ∨ loc.kind = .register then
      Location.Kind.register else .registerPair) = .register := by
    cases loc <;> first | rfl | (cases hc; done) | cases hloc
  simp only [testAllocator, hk]
  split
  case isTrue hfound =>
    have hkind := (getScratchLocation_spec hfound).1
    cases hx : r.getScratchLocation .register <;> rw [hx] at hkind <;> first | rfl | cases hkind
  case isFalse => rfl

theorem read_emitNativeCode_exchange : WellFormed exchange ∧ ScratchOk exchange (testAllocator exchange) ∧
      ∃ r, emitNativeCode (testAllocator exchange) () exchange = some r ∧ ∀ m ∈ exchange,
        (r.memory (fun id => [id]) (fun _ => 0)).read (fun id => [id]) m.destination =
          Memory.read (fun id => [id]) (fun _ => 0) m.source := by
  have hw : WellFormed exchange := ⟨by decide, by decide, by decide⟩
  have hok := scratchOk_testAllocator exchange
  exact ⟨hw, hok, read_emitNativeCode hw (by unfold SingleWordMoves; decide) hok
    (savesSingleWord_testAllocator exchange) () id fun _ => 0⟩

end ParallelMoveResolverNoSwap

end Art
