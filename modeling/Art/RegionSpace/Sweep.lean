import Art.RegionSpace.Flip

/-!
# The end of a cycle

Each iteration of `ClearFromSpace` releases a region or a large object, makes a run of live regions
to-space, or skips a region, and each of these keeps the region table. What is before the index is to-space;
so a tail of unevacuated from-space is never met before its head, which has the same type.

`clearFromSpace_sound`: it does not abort, and keeps the invariant for the allocations of the regions that
are not free afterwards.
-/

namespace Art

namespace RegionSpace

open Function Nat

variable {s s' s₀ : RegionSpace} {l : Layout} {live : List Allocation} {a : Allocation} {w : Sweep}
  {i k p : ℕ}

/-- The collector has set the live bytes of unevacuated large objects. -/
def LargeLiveBytes (s : RegionSpace) : Prop := ∀ j < s.numRegions, s.typeOf j = .unevacFromSpace →
    (s.stateOf j = .large → (s.regions j).liveBytes = some 0 ∨
      (s.regions j).liveBytes = some (s.regions j).top) ∧
    (s.stateOf j = .largeTail → (s.regions j).liveBytes = some 0)

/-- The invariant of the loop of `ClearFromSpace`. -/
structure Swept (s₀ : RegionSpace) (l : Layout) (live : List Allocation) (w : Sweep) : Prop where
  numRegions : w.space.numRegions = s₀.numRegions
  limit : w.space.nonFreeRegionIndexLimit = s₀.nonFreeRegionIndexLimit
  table : w.space.Table l.evac
  pointers : w.space.Pointers l
  tlabs : w.space.TlabsInToSpace
  placed : ∀ a ∈ live, w.space.stateOf (a.address / kRegionSize) ≠ .free → w.space.Placed l a
  done : ∀ j < w.index, j < w.space.numRegions → w.space.stateOf j ≠ .free →
    w.space.typeOf j = .toSpace ∧ j < w.newLimit
  old : ∀ j < w.space.numRegions, w.space.stateOf j ≠ .free → w.space.typeOf j ≠ .toSpace → l.evac j = false
  live_todo : ∀ j < w.space.numRegions, w.index ≤ j → w.space.typeOf j ≠ .unevacFromSpace →
    (w.space.regions j).liveBytes = none
  large : w.space.LargeLiveBytes
  from_space : ∀ j < w.space.numRegions, w.space.typeOf j = .fromSpace → w.space.stateOf j = .allocated

namespace Swept

variable (h : Swept s₀ l live w)

include h in
/-- A region at the index that is not to-space is allocated, or the head of a large object. -/
lemma whole (hi : w.index < w.space.numRegions) (hfree : w.space.stateOf w.index ≠ .free)
    (htype : w.space.typeOf w.index ≠ .toSpace) :
    w.space.stateOf w.index = .allocated ∨ ∃ k, w.space.IsLarge w.index k := by
  cases hst : w.space.stateOf w.index with
  | free => exact absurd hst hfree
  | allocated => exact .inl rfl
  | large => exact .inr (h.table.large _ hi hst)
  | largeTail =>
    obtain ⟨q, k, hl, h1, h2⟩ := h.table.tail _ hi hst
    have hq := (h.done q h1 hl.lt (hl.state_ne_free le_rfl (by omega))).1
    exact absurd ((hl.type _ h1 h2).trans hq) htype

include h in
/-- An iteration that releases a region or a large object. -/
lemma release (hrel : Releases w.space s' false w.index k)
    (htype : w.space.typeOf w.index ≠ .toSpace) : Swept s₀ l live ⟨s', w.index + 1, w.newLimit⟩ := by
  have htypes : ∀ j, w.index ≤ j → j < w.index + k → w.space.typeOf j ≠ .toSpace := by
    intro j h1 h2
    rcases hrel.whole with ⟨rfl, -⟩ | hl
    · obtain rfl : j = w.index := by omega
      exact htype
    · rcases h1.eq_or_lt with rfl | hlt
      · exact htype
      · rw [hl.type j hlt h2]
        exact htype
  have hlt : ∀ j, j < w.index + k → j < w.space.numRegions := fun j hj => lt_of_lt_of_le hj hrel.le
  have hunref : ∀ j, w.index ≤ j → j < w.index + k → w.space.Unreferenced j := fun j h1 h2 =>
    h.pointers.unreferenced_of_type h.tlabs (htypes j h1 h2)
  have houtside : ∀ j, s'.typeOf j ≠ .none → ¬(w.index ≤ j ∧ j < w.index + k) := fun j hne hin => by
    rw [typeOf, hrel.cleared j hin.1 hin.2] at hne
    exact hne rfl
  refine ⟨hrel.numRegions.trans h.numRegions, hrel.limit.trans h.limit, ?_, hrel.pointers h.pointers hunref,
    hrel.tlabsInToSpace h.tlabs hunref, fun a ha hf => ?_, fun j hj hn hf => ?_, fun j hn hf ht => ?_,
    fun j hn hj ht => ?_, fun j hn ht => ?_, fun j hn ht => ?_⟩
  · exact hrel.table h.table fun j h1 h2 => h.old j (hlt j h2) (hrel.state_ne_free h1 h2) (htypes j h1 h2)
  · have hout := hrel.outside hf
    rw [stateOf, hrel.other _ hout] at hf
    exact hrel.placed h.pointers.used_le (h.placed a ha hf) hout
  · have hout := hrel.outside hf
    have hpos := hrel.pos
    simp only at hj
    rw [stateOf, hrel.other j hout] at hf
    rw [typeOf, hrel.other j hout]
    exact h.done j (by omega) (hrel.numRegions ▸ hn) hf
  · have hout := hrel.outside hf
    rw [stateOf, hrel.other j hout] at hf
    rw [typeOf, hrel.other j hout] at ht
    exact h.old j (hrel.numRegions ▸ hn) hf ht
  · by_cases hin : w.index ≤ j ∧ j < w.index + k
    · rw [hrel.cleared j hin.1 hin.2]
      rfl
    · rw [typeOf, hrel.other j hin] at ht
      rw [hrel.other j hin]
      exact h.live_todo j (hrel.numRegions ▸ hn) (le_of_succ_le hj) ht
  all_goals
    have hout := houtside j (by rw [ht]; simp)
    rw [typeOf, hrel.other j hout] at ht
    rw [stateOf, hrel.other j hout]
    have hn := hrel.numRegions ▸ hn
    first | exact h.large j hn ht | exact h.from_space j hn ht

include h in
/-- An iteration that leaves the region as it is. -/
lemma skip (hi : w.index < w.space.numRegions)
    (htype : w.space.typeOf w.index = .none ∨ w.space.typeOf w.index = .toSpace) :
    Swept s₀ l live (w.space.checkLast w.index w.newLimit) := by
  refine ⟨h.numRegions, h.limit, h.table, h.pointers, h.tlabs, h.placed, fun j hj hn hf => ?_, h.old,
    fun j hn hj => h.live_todo j hn (le_of_succ_le hj), h.large, h.from_space⟩
  rcases (Nat.lt_succ_iff.1 hj).eq_or_lt with rfl | hlt
  · simp only [checkLast]
    rw [if_neg (by rw [isFree_eq_true]; exact hf)]
    refine ⟨htype.resolve_left (h.table.typed _ hi hf), lt_max_of_lt_right (lt_succ_self _)⟩
  · obtain ⟨h1, h2⟩ := h.done j hlt hn hf
    refine ⟨h1, h2.trans_le ?_⟩
    simp only [checkLast]
    split
    · exact le_rfl
    · exact le_max_left _ _

end Swept

/-! ## Keeping live regions -/

/-- A loop has changed the regions `[i, p)` and no counters. -/
structure Sweeps (f : Region → Region) (s s' : RegionSpace) (i p : ℕ) : Prop extends Changes f s s' i p where
  numNonFreeRegions : s'.numNonFreeRegions = s.numNonFreeRegions
  numEvacRegions : s'.numEvacRegions = s.numEvacRegions
  limit : s'.nonFreeRegionIndexLimit = s.nonFreeRegionIndexLimit

lemma Sweeps.nil (f : Region → Region) (s : RegionSpace) (i : ℕ) : Sweeps f s s i i := ⟨.nil f s i, rfl, rfl, rfl⟩

lemma Sweeps.snoc {f : Region → Region} (h : Sweeps f s s' i p) (hi : i ≤ p) :
    Sweeps f s (s'.setRegion p (f (s'.regions p))) i (p + 1) :=
  ⟨h.toChanges.snoc hi ⟨rfl, rfl, rfl, rfl, rfl⟩ rfl, h.numNonFreeRegions, h.numEvacRegions, h.limit⟩

/-- The unevacuated regions `[i, p)` become to-space. -/
structure Keeps (s s' : RegionSpace) (i p : ℕ) : Prop extends
    Sweeps Region.setUnevacFromSpaceAsToSpace s s' i p where
  type : ∀ j, i ≤ j → j < p → s.typeOf j = .unevacFromSpace

namespace Keeps

lemma nil (s : RegionSpace) (i : ℕ) : Keeps s s i i :=
  ⟨.nil _ s i, fun _ h1 h2 => absurd (h1.trans_lt h2) (lt_irrefl i)⟩

variable (h : Keeps s s' i p)
include h

lemma state (j : ℕ) : s'.stateOf j = s.stateOf j := by
  by_cases hj : i ≤ j ∧ j < p
  · rw [stateOf, h.changed j hj.1 hj.2]
    rfl
  · rw [stateOf, h.other j hj]

lemma top (j : ℕ) : (s'.regions j).top = (s.regions j).top := by
  by_cases hj : i ≤ j ∧ j < p
  · rw [h.changed j hj.1 hj.2]
    rfl
  · rw [h.other j hj]

lemma toSpace {j : ℕ} (h1 : i ≤ j) (h2 : j < p) : s'.typeOf j = .toSpace := by
  rw [typeOf, h.changed j h1 h2]
  rfl

lemma snoc (hi : i ≤ p) (htype : s.typeOf p = .unevacFromSpace) :
    Keeps s (s'.setRegion p (s'.regions p).setUnevacFromSpaceAsToSpace) i (p + 1) := by
  refine ⟨h.toSweeps.snoc hi, fun j h1 h2 => ?_⟩
  rcases (Nat.lt_succ_iff.1 h2).eq_or_lt with rfl | hlt
  · exact htype
  · exact h.type j h1 hlt

/-- Whole large objects are kept. -/
lemma retyped {evac : ℕ → Bool} (ht : s.Table evac)
    (hwhole : ∀ q k j, s.IsLarge q k → q ≤ j → j < q + k → (i ≤ j ∧ j < p) → i ≤ q ∧ q + k ≤ p) :
    Retyped s s' := by
  refine ⟨h.numRegions, h.numNonFreeRegions, h.numEvacRegions, h.limit, h.state, h.top, fun j hj hf => ?_,
    fun j hj hf => ?_, fun q k j hl h1 h2 => ?_⟩
  · refine h.other j fun hin => ?_
    have := h.type j hin.1 hin.2
    rw [typeOf, ht.free j hj hf] at this
    cases this
  · by_cases hin : i ≤ j ∧ j < p
    · rw [h.toSpace hin.1 hin.2]
      simp
    · rw [typeOf, h.other j hin]
      exact ht.typed j hj hf
  · by_cases hin : i ≤ q ∧ q < p
    · obtain ⟨h3, h4⟩ := hwhole q k q hl le_rfl (by omega) hin
      rw [h.toSpace (by omega) (by omega), h.toSpace hin.1 hin.2]
    · have hj : ¬(i ≤ j ∧ j < p) := fun hj => by
        obtain ⟨h3, h4⟩ := hwhole q k j hl h1.le h2 hj
        exact hin ⟨h3, by omega⟩
      rw [typeOf, typeOf, h.other j hj, h.other q hin]
      exact hl.type j h1 h2

end Keeps

/-- An iteration that keeps the regions up to `p`. -/
lemma Swept.keep (h : Swept s₀ l live w) (hk : Keeps w.space s' w.index p) (hlt : w.index < p)
    (hp : p ≤ w.space.numRegions)
    (hwhole : ∀ q k j, w.space.IsLarge q k → q ≤ j → j < q + k → (w.index ≤ j ∧ j < p) →
      w.index ≤ q ∧ q + k ≤ p) : Swept s₀ l live (s'.checkLast (p - 1) w.newLimit) := by
  have hre := hk.retyped h.table hwhole
  have hunref : ∀ j, ¬w.space.Unreferenced j → ¬(w.index ≤ j ∧ j < p) := fun j hj hin =>
    hj <| h.pointers.unreferenced_of_type h.tlabs <| by
      rw [hk.type j hin.1 hin.2]
      simp
  have hlast : s'.isFree (p - 1) = false := by
    rw [← Bool.not_eq_true, isFree_eq_true, hk.state]
    intro hf
    have := hk.type (p - 1) (by omega) (by omega)
    rw [typeOf, h.table.free (p - 1) (by omega) hf] at this
    cases this
  have hindex : (s'.checkLast (p - 1) w.newLimit).index = p := Nat.sub_add_cancel (by omega)
  have hlimit : (s'.checkLast (p - 1) w.newLimit).newLimit = max w.newLimit p := by
    simp only [checkLast, hlast]
    rw [if_neg Bool.false_ne_true, Nat.sub_add_cancel (by omega)]
  refine ⟨hk.numRegions.trans h.numRegions, hk.limit.trans h.limit, hre.table h.table,
    h.pointers.frame hk.toSamePointers h.pointers.used_le fun j hj => ⟨hk.other j (hunref j hj), rfl, rfl⟩,
    h.tlabs.frame hk.toSamePointers fun j hj => hk.other j (hunref j hj), fun a ha hf => ?_,
    fun j hj hn hf => ?_, fun j hn hf ht => ?_, fun j hn hj ht => ?_, fun j hn ht => ?_, fun j hn ht => ?_⟩
  · exact hre.placed (h.placed a ha (hk.state _ ▸ hf))
  · rw [hindex] at hj
    rw [hlimit]
    by_cases hin : w.index ≤ j
    · exact ⟨hk.toSpace hin hj, lt_max_of_lt_right hj⟩
    · obtain ⟨h1, h2⟩ := h.done j (by omega) (hk.numRegions ▸ hn) (hk.state j ▸ hf)
      refine ⟨?_, lt_max_of_lt_left h2⟩
      change s'.typeOf j = .toSpace
      rw [typeOf, hk.other j (by omega)]
      exact h1
  · have hout : ¬(w.index ≤ j ∧ j < p) := fun hin => ht (hk.toSpace hin.1 hin.2)
    change s'.typeOf j ≠ .toSpace at ht
    rw [typeOf, hk.other j hout] at ht
    exact h.old j (hk.numRegions ▸ hn) (hk.state j ▸ hf) ht
  · change s'.typeOf j ≠ .unevacFromSpace at ht
    change (s'.regions j).liveBytes = none
    rw [typeOf, hk.other j (by omega)] at ht
    rw [hk.other j (by omega)]
    exact h.live_todo j (hk.numRegions ▸ hn) (by omega) ht
  · change s'.typeOf j = .unevacFromSpace at ht
    have hout : ¬(w.index ≤ j ∧ j < p) := fun hin => by
      rw [hk.toSpace hin.1 hin.2] at ht
      cases ht
    change (s'.stateOf j = _ → (s'.regions j).liveBytes = _ ∨ (s'.regions j).liveBytes = some (s'.regions j).top) ∧
      (s'.stateOf j = _ → (s'.regions j).liveBytes = _)
    rw [typeOf, hk.other j hout] at ht
    rw [stateOf, hk.other j hout]
    exact h.large j (hk.numRegions ▸ hn) ht
  · change s'.typeOf j = .fromSpace at ht
    have hout : ¬(w.index ≤ j ∧ j < p) := fun hin => by
      rw [hk.toSpace hin.1 hin.2] at ht
      cases ht
    rw [typeOf, hk.other j hout] at ht
    exact (hk.state j).trans (h.from_space j (hk.numRegions ▸ hn) ht)

/-! ## The inner loops -/

/-- The regions `[i, p)` are cleared. -/
abbrev Clears : RegionSpace → RegionSpace → ℕ → ℕ → Prop := Sweeps fun _ => Region.cleared

/-- The loop over the tails stops where the object ends. -/
lemma clearLargeTails_clears (hk : 0 < k)
    (htail : ∀ j, i < j → j < i + k → s.stateOf j = .largeTail) (hle : i + k ≤ s.numRegions)
    (hend : i + k < s.numRegions → s.stateOf (i + k) ≠ .largeTail) :
    ∃ s', (s.setRegion i Region.cleared).clearLargeTails (i + 1) = some (s', i + k) ∧
      Clears s s' i (i + k) := by
  obtain ⟨⟨s', p⟩, hrun, ⟨hclears, h1, h2⟩, hcond⟩ := Loop.whileM_rule
    (fun x : RegionSpace × ℕ => x.2 < s.numRegions && (x.1.regions x.2).state = .largeTail)
    (fun x => some (x.1.setRegion x.2 _, x.2 + 1))
    (P := fun x => Clears s x.1 i x.2 ∧ i < x.2 ∧ x.2 ≤ i + k) (fun x => s.numRegions - x.2)
    (by
      rintro ⟨x, p⟩ ⟨hclears, h1, h2⟩ hcond
      rw [Bool.and_eq_true, decide_eq_true_iff, decide_eq_true_iff] at hcond
      rw [hclears.other p (by omega)] at hcond
      have hlt : p < i + k := by
        refine lt_of_le_of_ne h2 fun heq => ?_
        subst heq
        exact hend hcond.1 hcond.2
      exact ⟨_, rfl, ⟨hclears.snoc h1.le, lt_succ_of_lt h1, hlt⟩, by omega⟩)
    (s := (s.setRegion i _, i + 1))
    ⟨(Sweeps.nil _ s i).snoc le_rfl, Nat.lt_succ_self i, Nat.add_le_add_left hk i⟩ (Nat.sub_le _ _)
  have hp : p = i + k := by
    by_contra hne
    have hlt : p < i + k := lt_of_le_of_ne h2 hne
    have hstate : (s'.regions p).state = .largeTail := by
      rw [hclears.other p (by omega)]
      exact htail p h1 hlt
    simp only [hstate, decide_true, Bool.and_true, decide_eq_false_iff_not] at hcond
    omega
  subst hp
  exact ⟨s', hrun, hclears⟩

/-- The run of live regions does not abort. -/
lemma keepLiveRegions_keeps
    (hlive : ∀ j < s.numRegions, i ≤ j → s.typeOf j ≠ .unevacFromSpace → (s.regions j).liveBytes = none)
    (htype : s.typeOf i = .unevacFromSpace) (hi : i < s.numRegions) :
    ∃ s' p, (s.setRegion i (s.regions i).setUnevacFromSpaceAsToSpace).keepLiveRegions (i + 1) =
      some (s', p) ∧ Keeps s s' i p ∧ i < p ∧ p ≤ s.numRegions ∧
      (∀ j, i < j → j < p → (s.regions j).allAllocatedBytesAreLive = true) ∧
      (p < s.numRegions → (s.regions p).allAllocatedBytesAreLive = false) := by
  obtain ⟨⟨s', p⟩, hrun, ⟨hkeeps, h1, h2, hall⟩, hcond⟩ := Loop.whileM_rule
    (fun x : RegionSpace × ℕ => x.2 < s.numRegions && (x.1.regions x.2).allAllocatedBytesAreLive)
    (fun x => if (x.1.regions x.2).type = .unevacFromSpace then
      some (x.1.setRegion x.2 (x.1.regions x.2).setUnevacFromSpaceAsToSpace, x.2 + 1) else none)
    (P := fun x => Keeps s x.1 i x.2 ∧ i < x.2 ∧ x.2 ≤ s.numRegions ∧
      ∀ j, i < j → j < x.2 → (s.regions j).allAllocatedBytesAreLive = true)
    (fun x => s.numRegions - x.2)
    (by
      rintro ⟨x, p⟩ ⟨hkeeps, h1, h2, hall⟩ hcond
      rw [Bool.and_eq_true, decide_eq_true_iff] at hcond
      have hother := hkeeps.other p (by omega)
      have hunevac : s.typeOf p = .unevacFromSpace := by
        by_contra hne
        have hbytes : (x.regions p).liveBytes = some (x.regions p).top := of_decide_eq_true hcond.2
        rw [hother, hlive p hcond.1 h1.le hne] at hbytes
        cases hbytes
      rw [if_pos (by rw [hother]; exact hunevac)]
      refine ⟨_, rfl, ⟨hkeeps.snoc h1.le hunevac, lt_succ_of_lt h1, hcond.1, fun j hj1 hj2 => ?_⟩, ?_⟩
      · rcases (Nat.lt_succ_iff.1 hj2).eq_or_lt with rfl | hlt
        · rw [← hother]
          exact hcond.2
        · exact hall j hj1 hlt
      · omega)
    (s := (s.setRegion i _, i + 1))
    ⟨(Keeps.nil s i).snoc le_rfl htype, lt_succ_self i, hi, fun j h1 h2 => by omega⟩
    (sub_le _ _)
  refine ⟨s', p, hrun, hkeeps, h1, h2, hall, fun hp => ?_⟩
  simp only [hp, decide_true, Bool.true_and] at hcond
  rw [← hkeeps.other p (by omega)]
  exact hcond

/-! ## `ClearFromSpace` -/

/-- Clearing what is one allocated region or one large object releases it. -/
lemma Sweeps.releases (h : Clears s s' i (i + k)) (hk : 0 < k) (hle : i + k ≤ s.numRegions)
    (hwhole : (k = 1 ∧ s.stateOf i = .allocated) ∨ s.IsLarge i k) :
    Releases s { s' with numNonFreeRegions := s'.numNonFreeRegions - k } false i k :=
  ⟨⟨h.numRegions, h.current, h.evac, h.tlabs, h.partialTlabs⟩, hk, hle, hwhole, h.changed, h.other,
    by rw [if_pos rfl, ← h.numNonFreeRegions], h.numEvacRegions, h.limit⟩

namespace Swept

variable (h : Swept s₀ l live w) (hi : w.index < w.space.numRegions)

include h hi in
/-- A from-space region is freed. -/
lemma sweep_fromSpace (htype : w.space.typeOf w.index = .fromSpace) :
    Swept s₀ l live ((w.space.freeRegion false w.index).checkLast w.index w.newLimit) := by
  have hclears := (Sweeps.nil (fun _ => Region.cleared) w.space w.index).snoc le_rfl
  have hrel := hclears.releases one_pos hi (.inl ⟨rfl, h.from_space _ hi htype⟩)
  have hswept := h.release hrel (by rw [htype]; simp)
  have hfree : (w.space.freeRegion false w.index).isFree w.index = true := by
    rw [isFree_eq_true]
    exact hrel.state_eq_free le_rfl (lt_succ_self _)
  rw [checkLast, if_pos hfree]
  exact hswept

variable (htype : w.space.typeOf w.index = .unevacFromSpace)

include h hi htype in
lemma current_ne : w.space.stateOf w.index ≠ .free ∧ w.space.typeOf w.index ≠ .toSpace := by
  refine ⟨fun hf => ?_, fun ht => RegionType.noConfusion (htype.symm.trans ht)⟩
  rw [typeOf, h.table.free _ hi hf] at htype
  cases htype

include h hi htype in
/-- A dead region or large object is freed. -/
lemma sweep_dead :
    ∃ s' p, (w.space.setRegion w.index Region.cleared).clearLargeTails (w.index + 1) = some (s', p) ∧
      Swept s₀ l live { w with
        space := { s' with numNonFreeRegions := s'.numNonFreeRegions - (p - w.index) }
        index := w.index + 1 } := by
  obtain ⟨hfree, hne⟩ := current_ne h hi htype
  obtain ⟨k, hk, hle, hwhole, htail, hend⟩ : ∃ k, 0 < k ∧ w.index + k ≤ w.space.numRegions ∧
      ((k = 1 ∧ w.space.stateOf w.index = .allocated) ∨ w.space.IsLarge w.index k) ∧
      (∀ j, w.index < j → j < w.index + k → w.space.stateOf j = .largeTail) ∧
      (w.index + k < w.space.numRegions → w.space.stateOf (w.index + k) ≠ .largeTail) := by
    rcases h.whole hi hfree hne with halloc | ⟨k, hl⟩
    · refine ⟨1, one_pos, hi, .inl ⟨rfl, halloc⟩, fun j h1 h2 => by omega, fun hlt htail => ?_⟩
      -- A tail after an allocated region would have it as its head.
      obtain ⟨q, m, hm, h1, h2⟩ := h.table.tail _ hlt htail
      exact hm.state_ne_allocated (Nat.lt_succ_iff.1 h1) (by omega) halloc
    · have htwo := hl.two_le
      exact ⟨k, by omega, hl.le, .inr hl, hl.tail, h.table.not_tail_after hl⟩
  obtain ⟨s', hrun, hclears⟩ := clearLargeTails_clears hk htail hle hend
  refine ⟨s', w.index + k, hrun, ?_⟩
  rw [Nat.add_sub_cancel_left]
  exact h.release (hclears.releases hk hle hwhole) hne

include h hi htype in
/-- A live region is kept, with the live regions after it if all of its bytes are live. -/
lemma sweep_live (hlive : (w.space.regions w.index).liveBytes ≠ some 0) :
    ∃ w', (if ((w.space.setRegion w.index
          (w.space.regions w.index).setUnevacFromSpaceAsToSpace).regions w.index).allAllocatedBytesAreLive then
        (do
          let (s', p) ← (w.space.setRegion w.index
            (w.space.regions w.index).setUnevacFromSpaceAsToSpace).keepLiveRegions (w.index + 1)
          some (s'.checkLast (p - 1) w.newLimit))
        else some ((w.space.setRegion w.index
          (w.space.regions w.index).setUnevacFromSpaceAsToSpace).checkLast w.index w.newLimit)) = some w' ∧
      Swept s₀ l live w' ∧ w.index < w'.index := by
  have hself : ((w.space.setRegion w.index (w.space.regions w.index).setUnevacFromSpaceAsToSpace).regions
      w.index).allAllocatedBytesAreLive = (w.space.regions w.index).allAllocatedBytesAreLive := by
    simp only [setRegion, update_self]
    rfl
  -- An object with a region in the run has its head in it: what is before is to-space.
  have hhead : ∀ q m j, w.space.IsLarge q m → q ≤ j → j < q + m → w.index ≤ j →
      w.space.typeOf j = .unevacFromSpace → w.index ≤ q := by
    intro q m j hm h1 h2 h3 htj
    by_contra hlt
    have hq := (h.done q (not_le.1 hlt) hm.lt (hm.state_ne_free le_rfl (by omega))).1
    rcases h1.eq_or_lt with rfl | hqj
    · exact hlt h3
    · rw [hm.type j hqj h2, hq] at htj
      cases htj
  cases hbytes : (w.space.regions w.index).allAllocatedBytesAreLive with
  | false =>
    rw [hself, hbytes, if_neg Bool.false_ne_true]
    refine ⟨_, rfl, h.keep ((Keeps.nil _ _).snoc le_rfl htype) (lt_succ_self _) hi fun q m j hm h1 h2 hj => ?_,
      lt_succ_self _⟩
    obtain rfl : j = w.index := by omega
    -- The region is no part of a large object, as the live bytes of those are all or nothing.
    exfalso
    obtain ⟨hlarge, htail⟩ := h.large _ hi htype
    rcases h1.eq_or_lt with rfl | hlt
    · rcases hlarge hm.state with h0 | htop
      · exact hlive h0
      · cases hbytes.symm.trans (decide_eq_true htop)
    · exact hlive (htail (hm.tail _ hlt h2))
  | true =>
    rw [hself, hbytes, if_pos rfl]
    obtain ⟨s', p, hrun, hkeeps, h1, h2, hall, hend⟩ := keepLiveRegions_keeps h.live_todo htype hi
    refine ⟨s'.checkLast (p - 1) w.newLimit, by rw [hrun]; rfl, h.keep hkeeps h1 h2 ?_,
      lt_succ_of_le (by omega)⟩
    intro q m j hm hj1 hj2 hj
    have hq := hhead q m j hm hj1 hj2 hj.1 (hkeeps.type j hj.1 hj.2)
    refine ⟨hq, not_lt.1 fun hlt => ?_⟩
    -- The region after the run would be a tail of a live object, all of whose bytes are live.
    have hpn : p < w.space.numRegions := lt_of_lt_of_le hlt hm.le
    have htj := hkeeps.type q hq (hj1.trans_lt hj.2)
    have htail := hm.tail p (hj1.trans_lt hj.2) hlt
    have htp : w.space.typeOf p = .unevacFromSpace := (hm.type p (hj1.trans_lt hj.2) hlt).trans htj
    refine Bool.noConfusion ((hend hpn).symm.trans (decide_eq_true ?_))
    rw [(h.large p hpn htp).2 htail, h.table.tail_top p hpn htail]

include h hi in
lemma step : ∃ w', sweepStep w = some w' ∧ Swept s₀ l live w' ∧ w.index < w'.index := by
  rw [sweepStep]
  cases htype : (w.space.regions w.index).type with
  | none => exact ⟨_, rfl, h.skip hi (.inl htype), lt_succ_self _⟩
  | toSpace => exact ⟨_, rfl, h.skip hi (.inr htype), lt_succ_self _⟩
  | fromSpace => exact ⟨_, rfl, h.sweep_fromSpace hi htype, lt_succ_self _⟩
  | unevacFromSpace =>
    by_cases hlive : (w.space.regions w.index).liveBytes = some 0
    · obtain ⟨s', p, hrun, hswept⟩ := h.sweep_dead hi htype
      refine ⟨_, ?_, hswept, lt_succ_self _⟩
      simp only [hlive, if_true, hrun]
      rfl
    · obtain ⟨w', hrun, hswept⟩ := h.sweep_live hi htype hlive
      refine ⟨w', ?_, hswept⟩
      simp only [hlive, if_false]
      exact hrun

end Swept

/-- The space after the collector has set the live bytes of the unevacuated regions. -/
def setLiveBytes (s : RegionSpace) (live : ℕ → Option ℕ) : RegionSpace :=
  { s with
    regions := fun i =>
      if s.typeOf i = .unevacFromSpace then { s.regions i with liveBytes := live i } else s.regions i }

variable (hs : s.Sound l live) (hcycle : s.evacRegion ≠ .null) (f : ℕ → Option ℕ)
  (hlarge : (s.setLiveBytes f).LargeLiveBytes)

include hs hcycle hlarge in
lemma setLiveBytes_swept : Swept s l live ⟨s.setLiveBytes f, 0, 0⟩ := by
  have hstate : ∀ j, (s.setLiveBytes f).stateOf j = s.stateOf j := fun j => by
    simp only [setLiveBytes, stateOf]
    split <;> rfl
  have htype : ∀ j, (s.setLiveBytes f).typeOf j = s.typeOf j := fun j => by
    simp only [setLiveBytes, typeOf]
    split <;> rfl
  have htop : ∀ j, ((s.setLiveBytes f).regions j).top = (s.regions j).top := fun j => by
    simp only [setLiveBytes]
    split <;> rfl
  have hother : ∀ j, s.typeOf j ≠ .unevacFromSpace → (s.setLiveBytes f).regions j = s.regions j :=
    fun j hj => if_neg hj
  have ht := hs.wellFormed.table
  have hp := hs.wellFormed.pointers
  have hre : Retyped s (s.setLiveBytes f) := by
    refine ⟨rfl, rfl, rfl, rfl, hstate, htop, fun j hj hf => hother j ?_, fun j hj hf => ?_,
      fun i k j hl h1 h2 => ?_⟩
    · rw [typeOf, ht.free j hj hf]
      exact RegionType.noConfusion
    · rw [htype]
      exact ht.typed j hj hf
    · rw [htype, htype]
      exact hl.type j h1 h2
  have hsame : SamePointers s (s.setLiveBytes f) := ⟨rfl, rfl, rfl, rfl, rfl⟩
  have hunref : ∀ j, ¬s.Unreferenced j → (s.setLiveBytes f).regions j = s.regions j := fun j hj =>
    hother j fun hun => hj <| hp.unreferenced_of_type hs.tlabs <| by
      rw [hun]
      simp
  refine ⟨rfl, rfl, hre.table ht, hp.frame hsame hp.used_le fun j hj => ⟨hunref j hj, rfl, rfl⟩,
    hs.tlabs.frame hsame hunref, fun a ha _ => hre.placed (hs.placed a ha),
    fun j hj => absurd hj (not_lt_zero j), fun j hj hf hne => ?_, fun j hj _ hne => ?_, hlarge,
    fun j hj hfrom => ?_⟩
  · exact hs.wellFormed.phase.old j hj (hstate j ▸ hf) (htype j ▸ hne)
  · rw [htype] at hne
    simp only
    rw [hother j hne]
    cases htj : s.typeOf j with
    | none =>
      have hfree : s.stateOf j = .free := by
        by_contra hf
        exact ht.typed j hj hf htj
      rw [ht.free j hj hfree]
      rfl
    | toSpace => exact hs.wellFormed.phase.live hcycle j hj htj
    | fromSpace => exact (hs.wellFormed.phase.from_space j hj htj).2
    | unevacFromSpace => exact absurd htj hne
  · rw [htype] at hfrom
    rw [hstate]
    exact (hs.wellFormed.phase.from_space j hj hfrom).1

/-- The allocations of before the end of a cycle that are in regions that are not free after it; none of
    them counts as one for evacuation any longer. -/
def surviving (s : RegionSpace) (live : List Allocation) : List Allocation :=
  (live.filter fun a => !s.isFree (a.address / kRegionSize)).map fun a => { a with forEvac := false }

lemma counted_true (s : RegionSpace) : s.counted (fun _ => false) true = 0 := by
  rw [counted, Counting.count_congr (q := fun _ => False) fun i _ => iff_of_false
    (fun h => Bool.noConfusion h.2) not_false, count_false]

lemma Swept.finish (h : Swept s₀ l live w) (hseparate : live.Pairwise Allocation.Separate)
    (hdone : min s₀.numRegions s₀.nonFreeRegionIndexLimit ≤ w.index) : ({ w.space with
        nonFreeRegionIndexLimit := w.newLimit
        evacRegion := .null
        numNonFreeRegions := w.space.numNonFreeRegions + w.space.numEvacRegions
        numEvacRegions := 0 }).Sound { l with evac := fun _ => false } (w.space.surviving live) := by
  have hall : ∀ j < w.space.numRegions, w.space.stateOf j ≠ .free →
      w.space.typeOf j = .toSpace ∧ j < w.newLimit := fun j hj hf => by
    refine h.done j (lt_of_lt_of_le (lt_min (h.numRegions ▸ hj) ?_) hdone) hj hf
    rw [← h.limit]
    exact h.table.limit j hj hf
  -- the regions are those of the last step, so most of what holds for them is still the same statement
  have ht := h.table
  have hp := h.pointers
  refine ⟨⟨⟨ht.free, ht.typed, fun i hi hl => ?_, fun j hj hl => ?_, ht.tail_top, fun _ _ _ _ _ _ => rfl, ?_,
    ?_, fun i hi hf => (hall i hi hf).2⟩, ⟨hp.used_le, fun i hi => ?_, fun i hi => ?_, fun t b hb => ?_,
    fun e he => ?_, hp.nodup⟩, ⟨fun _ i hi hf => ⟨(hall i hi hf).1, rfl⟩, fun _ _ _ _ => rfl,
    absurd rfl, fun i hi hfrom => ?_⟩⟩, h.tlabs, fun a ha => ?_, ?_⟩
  · obtain ⟨k, hk⟩ := ht.large i hi hl
    exact ⟨k, hk.of_regions_eq rfl fun _ _ _ => rfl⟩
  · obtain ⟨i, k, hk, hij⟩ := ht.tail j hj hl
    exact ⟨i, k, hk.of_regions_eq rfl fun _ _ _ => rfl, hij⟩
  · rw [counted, Counting.count_congr fun i _ => and_iff_left rfl]
    exact ht.count
  · rw [counted_true]
  · obtain ⟨h1, h2⟩ := hp.current i hi
    exact ⟨h1.congr rfl rfl rfl, h2⟩
  · cases hi
  · obtain ⟨h1, h2⟩ := hp.tlab t b hb
    exact ⟨h1.congr rfl rfl rfl, h2.congr rfl⟩
  · obtain ⟨h1, h2⟩ := hp.leftover e he
    exact ⟨h1.congr rfl rfl rfl, h2⟩
  · -- No from-space is left.
    have hto := (hall i hi (by rw [h.from_space i hi hfrom]; simp)).1
    cases hto.symm.trans hfrom
  · obtain ⟨b, hb, rfl⟩ := List.mem_map.1 ha
    obtain ⟨hmem, hf⟩ := List.mem_filter.1 hb
    have hplaced := h.placed b hmem fun hfree => by
      rw [← isFree_eq_true] at hfree
      rw [hfree] at hf
      cases hf
    cases hplaced with
    | empty size => exact .empty size
    | small i lt state ge le => exact .small i lt state ge le
    | large i k hl address size _ => exact .large i k (hl.of_regions_eq rfl fun _ _ _ => rfl) address size rfl
  · exact List.Pairwise.map _ (fun _ _ hab => hab) (hseparate.sublist List.filter_sublist)

include hs hcycle hlarge in
/-- `ClearFromSpace` does not abort, and keeps the invariant. -/
lemma clearFromSpace_sound :
    ∃ s' l', (s.setLiveBytes f).clearFromSpace = some s' ∧ s'.Sound l' (s'.surviving live) := by
  obtain ⟨w, hrun, hswept, hcond⟩ := Loop.whileM_rule
    (fun w : Sweep => w.index < min s.numRegions s.nonFreeRegionIndexLimit) sweepStep
    (P := Swept s l live) (fun w => s.numRegions - w.index)
    (by
      intro w hw hcond
      have hlt : w.index < s.numRegions := lt_of_lt_of_le (of_decide_eq_true hcond) (min_le_left _ _)
      obtain ⟨w', hstep, hw', hindex⟩ := hw.step (hw.numRegions ▸ hlt)
      exact ⟨w', hstep, hw', by omega⟩)
    (setLiveBytes_swept hs hcycle f hlarge) (sub_le _ _)
  have hdone := hswept.finish hs.separate (not_lt.1 (of_decide_eq_false hcond))
  exact ⟨_, _, by rw [clearFromSpace]; exact Option.bind_eq_some_iff.2 ⟨w, hrun, rfl⟩, hdone⟩

end RegionSpace

end Art
