import Art.RegionSpace.Sweep

/-!
# Histories of the region space

A history is a sequence of operations of the mutators and the collector, with the allocations that are live.
In every history the region table is consistent, live allocations share no bytes and no operation aborts
(`reachable_consistent`). A large allocation finds any fitting run of free regions; the half of the regions
that a mutator has to leave free does not count the regions allocated for evacuation in the running cycle
(`allocLarge_leavesLessThanHalf`).
-/

namespace Art

namespace RegionSpace

/-- The space and the allocations that are live in it. -/
structure World where
  space : RegionSpace
  live : List Allocation

inductive Operation
  | alloc (forEvac : Bool) (numBytes : ℕ)
  | freeLarge (a : Allocation)
  | allocNewTlab (thread tlabSize : ℕ)
  | allocTlab (thread bytes : ℕ)
  | expandTlab (thread bytes : ℕ)
  | revokeThreadLocalBuffers (thread : ℕ) (reuse : Bool)
  | setFromSpace (evacMode : EvacMode) (clearLiveBytes : Bool) (threads : List ℕ)
  | clearFromSpace (liveBytes : ℕ → Option ℕ)

/-- What the callers promise. Copies are made only in a cycle, a TLAB is no larger than a region, the flip
    reaches every thread with a TLAB, and marking leaves large objects with all or none of their bytes
    live. -/
def World.Allowed (w : World) : Operation → Prop
  | .alloc forEvac _ => forEvac = true → w.space.evacRegion ≠ .null
  | .freeLarge a => a ∈ w.live ∧ kRegionSize < a.size
  | .allocNewTlab _ tlabSize => tlabSize ≤ kRegionSize
  | .setFromSpace _ _ threads => w.space.evacRegion = .null ∧ ∀ t, w.space.tlabs t ≠ none → t ∈ threads
  | .clearFromSpace liveBytes =>
    w.space.evacRegion ≠ .null ∧ (w.space.setLiveBytes liveBytes).LargeLiveBytes
  | _ => True

/-- One operation; `none` if it aborts. A failed allocation leaves the space as it is. -/
def World.step (w : World) : Operation → Option World
  | .alloc forEvac numBytes =>
    match w.space.allocNonvirtual forEvac numBytes with
    | some (s, obj, size) => some ⟨s, ⟨obj, size, forEvac⟩ :: w.live⟩
    | none => some w
  | .freeLarge a => some ⟨w.space.freeLarge a.forEvac a.address a.size, w.live.erase a⟩
  | .allocNewTlab thread tlabSize => some ⟨(w.space.allocNewTlab thread tlabSize).1, w.live⟩
  | .allocTlab thread bytes =>
    match w.space.allocTlab thread bytes with
    | some (s, obj) => some ⟨s, ⟨obj, bytes, false⟩ :: w.live⟩
    | none => some w
  | .expandTlab thread bytes => some ⟨w.space.expandTlab thread bytes, w.live⟩
  | .revokeThreadLocalBuffers thread reuse =>
    some ⟨w.space.revokeThreadLocalBuffers thread reuse, w.live⟩
  | .setFromSpace evacMode clearLiveBytes threads =>
    some ⟨w.space.flip evacMode clearLiveBytes threads, w.live⟩
  | .clearFromSpace liveBytes =>
    (w.space.setLiveBytes liveBytes).clearFromSpace.map fun s => ⟨s, s.surviving w.live⟩

/-- The worlds of the histories of a space of `n` regions. -/
inductive Reachable (n : ℕ) (cyclic : Bool) : World → Prop
  | init : Reachable n cyclic ⟨RegionSpace.init n cyclic, []⟩
  | step {w w' : World} (h : Reachable n cyclic w) (op : Operation) (allowed : w.Allowed op)
    (run : w.step op = some w') : Reachable n cyclic w'

/-- The region table is consistent, and live allocations share no bytes. -/
structure World.Consistent (w : World) : Prop where
  count : w.space.numNonFreeRegions + w.space.numEvacRegions = w.space.nonFreeCount
  large : ∀ i < w.space.numRegions, w.space.stateOf i = .large → ∃ k, w.space.IsLarge i k ∧
    (i + k < w.space.numRegions → w.space.stateOf (i + k) ≠ .largeTail)
  tail : ∀ j < w.space.numRegions, w.space.stateOf j = .largeTail →
    ∃ i k, w.space.IsLarge i k ∧ i < j ∧ j < i + k
  limit : ∀ i < w.space.numRegions, w.space.stateOf i ≠ .free → i < w.space.nonFreeRegionIndexLimit
  separate : w.live.Pairwise Allocation.Separate

variable {s : RegionSpace} {l : Layout} {live : List Allocation} {a : Allocation} {w w' : World}

/-! ## The invariant -/

lemma init_sound (n : ℕ) (cyclic : Bool) :
    (RegionSpace.init n cyclic).Sound ⟨fun _ => false, fun _ => .nobody, fun _ => 0⟩ [] := by
  have hcount : ∀ b, (RegionSpace.init n cyclic).counted (fun _ => false) b = 0 := fun b => by
    rw [counted, Counting.count_congr (q := fun _ => False) fun i _ => iff_of_false
      (fun h => h.1 rfl) not_false, Nat.count_false]
  refine ⟨⟨⟨fun _ _ _ => rfl, fun _ _ h => absurd rfl h, fun _ _ h => RegionState.noConfusion h,
    fun _ _ h => RegionState.noConfusion h, fun _ _ h => RegionState.noConfusion h, fun _ _ _ _ _ _ => rfl,
    (hcount false).symm, (hcount true).symm, fun _ _ h => absurd rfl h⟩, ⟨fun _ => Nat.zero_le _,
    fun _ h => RegionRef.noConfusion h, fun _ h => RegionRef.noConfusion h, fun _ _ h => ?_,
    fun _ h => absurd h List.not_mem_nil, List.nodup_nil⟩, ⟨fun _ _ _ h => absurd rfl h,
    fun _ _ h => absurd rfl h, absurd rfl, fun _ _ h => RegionType.noConfusion h⟩⟩, fun _ _ h => ?_,
    fun _ h => absurd h List.not_mem_nil, List.Pairwise.nil⟩
  · cases h
  · cases h

/-- A live allocation of more than a region is a large object. -/
lemma Placed.isLarge (h : s.Placed l a) (hused : ∀ i, l.used i ≤ kRegionSize)
    (hsize : kRegionSize < a.size) : ∃ i k, s.IsLarge i k ∧ a.address = i * kRegionSize ∧
      a.size = k * kRegionSize ∧ a.forEvac = l.evac i := by
  cases h with
  | empty size => omega
  | small i lt state ge le =>
    have := hused i
    omega
  | large i k hl address size hevac => exact ⟨i, k, hl, address, size, hevac⟩

lemma freeLarge_sound (hs : s.Sound l live) (ha : a ∈ live) (hsize : kRegionSize < a.size) :
    (s.freeLarge a.forEvac a.address a.size).Sound l (live.erase a) := by
  have hp := hs.wellFormed.pointers
  obtain ⟨i, k, hl, haddr, hk, hevac⟩ := (hs.placed a ha).isLarge hp.used_le hsize
  have hrel : Releases s (s.freeLarge a.forEvac a.address a.size) a.forEvac i k := by
    rw [haddr, hk]
    exact freeLarge_releases hl
  have hevacs : ∀ j, i ≤ j → j < i + k → l.evac j = a.forEvac := fun j h1 h2 => by
    rcases h1.eq_or_lt with rfl | hlt
    · exact hevac.symm
    · rw [hs.wellFormed.table.evac_tail i k j hl hlt h2, hevac]
  have hunref : ∀ j, i ≤ j → j < i + k → s.Unreferenced j := fun j h1 h2 =>
    hp.unreferenced_of_state (hl.state_ne_allocated h1 h2)
  have hperm := List.perm_cons_erase ha
  have hpair := (hperm.pairwise_iff fun h x hb ha => h x ha hb).1 hs.separate
  rw [List.pairwise_cons] at hpair
  refine ⟨⟨hrel.table hs.wellFormed.table hevacs, hrel.pointers hp hunref, hrel.phase hs.wellFormed.phase⟩,
    hrel.tlabsInToSpace hs.tlabs hunref, fun b hb => ?_, hpair.2⟩
  by_cases hzero : b.size = 0
  · exact .empty hzero
  · refine hrel.placed hp.used_le (hs.placed b (List.mem_of_mem_erase hb)) fun hin => ?_
    -- The first byte of the other allocation would be one of this one.
    refine hpair.1 b hb b.address ⟨?_, ?_⟩ ⟨le_rfl, by omega⟩
    · rw [kRegionSize] at *
      omega
    · rw [kRegionSize] at *
      omega

/-- Every operation keeps the invariant, and does not abort. -/
lemma World.step_sound (hs : w.space.Sound l w.live) {op : Operation} (hop : w.Allowed op) :
    ∃ w' l', w.step op = some w' ∧ w'.space.Sound l' w'.live := by
  cases op with
  | alloc forEvac numBytes =>
    rw [World.step]
    split
    · rename_i s obj size h
      obtain ⟨l', hl'⟩ := allocNonvirtual_sound hs hop h
      exact ⟨_, l', rfl, hl'⟩
    · exact ⟨w, l, rfl, hs⟩
  | freeLarge a => exact ⟨_, l, rfl, freeLarge_sound hs hop.1 hop.2⟩
  | allocNewTlab thread tlabSize =>
    obtain ⟨l', hl'⟩ := allocNewTlab_sound hs thread hop
    exact ⟨_, l', rfl, hl'⟩
  | allocTlab thread bytes =>
    rw [World.step]
    split
    · rename_i s obj h
      obtain ⟨l', hl'⟩ := allocTlab_sound hs h
      exact ⟨_, l', rfl, hl'⟩
    · exact ⟨w, l, rfl, hs⟩
  | expandTlab thread bytes =>
    obtain ⟨l', hl'⟩ := expandTlab_sound hs thread bytes
    exact ⟨_, l', rfl, hl'⟩
  | revokeThreadLocalBuffers thread reuse =>
    obtain ⟨l', hl'⟩ := revoke_sound hs thread reuse
    exact ⟨_, l', rfl, hl'⟩
  | setFromSpace evacMode clearLiveBytes threads =>
    obtain ⟨l', hl'⟩ := flip_sound hs hop.1 evacMode _ hop.2
    exact ⟨_, l', rfl, hl'⟩
  | clearFromSpace liveBytes =>
    obtain ⟨s', l', hrun, hl'⟩ := clearFromSpace_sound hs hop.1 liveBytes hop.2
    exact ⟨⟨s', _⟩, l', congrArg (Option.map _) hrun, hl'⟩

lemma Reachable.sound {n : ℕ} {cyclic : Bool} (h : Reachable n cyclic w) : ∃ l, w.space.Sound l w.live := by
  induction h with
  | init => exact ⟨_, init_sound n cyclic⟩
  | step _ op hop hrun ih =>
    obtain ⟨l, hl⟩ := ih
    obtain ⟨w', l', hrun', hl'⟩ := World.step_sound hl hop
    rw [hrun] at hrun'
    cases hrun'
    exact ⟨l', hl'⟩

lemma Sound.consistent (hs : w.space.Sound l w.live) : w.Consistent where
  count := hs.wellFormed.table.count
  large := fun i hi hl => by
    obtain ⟨k, hk⟩ := hs.wellFormed.table.large i hi hl
    exact ⟨k, hk, hs.wellFormed.table.not_tail_after hk⟩
  tail := hs.wellFormed.table.tail
  limit := hs.wellFormed.table.limit
  separate := hs.separate

/-! ## Every history -/

/-- In every history the table is consistent, no operation aborts, and a large allocation succeeds exactly
    if there are enough contiguous free regions and, for a mutator, half of the regions stay free when those
    allocated for evacuation are not counted. -/
theorem reachable_consistent {n : ℕ} {cyclic : Bool} {w : World} (h : Reachable n cyclic w) :
    w.Consistent ∧ (∀ op, w.Allowed op → ∃ w', w.step op = some w') ∧
      ∀ forEvac numBytes, kRegionSize < numBytes → ((∃ r, w.space.allocLarge forEvac numBytes = some r) ↔
          (∃ left, left + regionsFor numBytes ≤ w.space.numRegions ∧
            ∀ j, left ≤ j → j < left + regionsFor numBytes → w.space.stateOf j = .free) ∧
          (forEvac = false → (w.space.nonFreeCount - w.space.numEvacRegions + regionsFor numBytes) * 2 ≤
            w.space.numRegions)) := by
  obtain ⟨l, hs⟩ := h.sound
  have hcon := hs.consistent
  refine ⟨hcon, fun op hop => ?_, fun forEvac numBytes hlarge => ?_⟩
  · obtain ⟨w', -, hrun, -⟩ := World.step_sound hs hop
    exact ⟨w', hrun⟩
  · rw [exists_allocLarge_iff hlarge, ← hcon.count, Nat.add_sub_cancel]
    exact and_comm

/-- In every history an object of a region at most finds room if a region can be taken. -/
theorem exists_alloc {n : ℕ} {cyclic : Bool} {w : World} (h : Reachable n cyclic w) {forEvac : Bool}
    {numBytes : ℕ} (hop : w.Allowed (.alloc forEvac numBytes)) (hsize : numBytes ≤ kRegionSize)
    {s : RegionSpace × ℕ} (hregion : w.space.allocateRegion forEvac = some s) :
    ∃ r, w.space.allocNonvirtual forEvac numBytes = some r := by
  obtain ⟨l, hs⟩ := h.sound
  exact exists_allocNonvirtual hs hop hsize hregion

/-- The first object of a space. -/
theorem exists_alloc_init : ∃ r, (init 6 false).allocNonvirtual false 8 = some r :=
  exists_alloc .init Bool.noConfusion (by decide) rfl

/-- A history in a space of six regions: an object is allocated, and copied in a cycle that evacuates its
    region. -/
lemma exists_evacuating : ∃ w, Reachable 6 false w ∧ w.space.numRegions = 6 ∧
    w.space.nonFreeCount = 2 ∧ w.space.numEvacRegions = 1 ∧ w.space.evacRegion ≠ .null ∧
      (w.space.allocLarge false (2 * kRegionSize)).isSome = true := by
  refine ⟨_, ((Reachable.init.step (.alloc false 8) (nofun) rfl).step
    (.setFromSpace .forceAll true []) ⟨rfl, fun t ht => absurd rfl ht⟩ rfl).step (.alloc true 8) (fun _ => ?_)
    rfl, rfl, ?_, rfl, ?_, ?_⟩
  · exact RegionRef.noConfusion
  · decide
  · exact RegionRef.noConfusion
  · decide

/-- In a cycle a mutator can take regions although less than half of them stay free. -/
theorem allocLarge_leavesLessThanHalf :
    ¬∀ n cyclic w, Reachable n cyclic w → ∀ numBytes, kRegionSize < numBytes →
      (∃ r, w.space.allocLarge false numBytes = some r) →
      (w.space.nonFreeCount + regionsFor numBytes) * 2 ≤ w.space.numRegions := by
  intro h
  obtain ⟨w, hw, hn, hcount, -, -, hsome⟩ := exists_evacuating
  have := h 6 false w hw _ (by decide) (Option.isSome_iff_exists.1 hsome)
  rw [hn, hcount, show regionsFor _ = 2 from regionsFor_mul 2] at this
  omega

/-- In that cycle another copy can be made, and there are two contiguous free regions. -/
theorem reachable_consistent_evacuating : ∃ w, Reachable 6 false w ∧ w.Consistent ∧
    (w.Allowed (.alloc true 8) ∧ ∃ w', w.step (.alloc true 8) = some w') ∧
    kRegionSize < 2 * kRegionSize ∧ ∃ left, left + regionsFor (2 * kRegionSize) ≤ w.space.numRegions ∧
      ∀ j, left ≤ j → j < left + regionsFor (2 * kRegionSize) → w.space.stateOf j = .free := by
  obtain ⟨w, hw, -, -, -, hcycle, hsome⟩ := exists_evacuating
  obtain ⟨hcon, hsteps, hlarge⟩ := reachable_consistent hw
  refine ⟨w, hw, hcon, ⟨fun _ => hcycle, hsteps _ fun _ => hcycle⟩, by decide, ?_⟩
  exact ((hlarge false _ (by decide)).1 (Option.isSome_iff_exists.1 hsome)).1

end RegionSpace

end Art
