import Art.RegionSpace.Layout

/-!
# Taking and releasing regions

The two moves of the region table: free regions become an allocated region or a large object (`Takes`), and
an allocated region or a large object becomes free (`Releases`). Both keep the invariant, as no pointer
refers to the regions that they touch.
-/

namespace Art

namespace RegionSpace

variable {s s' : RegionSpace} {l l' : Layout} {evac evac' : ℕ → Bool} {a : Allocation}
  {forEvac : Bool} {left k i : ℕ}

/-! ## Pointers -/

/-- Nothing points to region `i`. -/
structure Unreferenced (s : RegionSpace) (i : ℕ) : Prop where
  current : s.currentRegion ≠ .region i
  evac : s.evacRegion ≠ .region i
  tlab : ∀ t b, s.tlabs t = some b → b.start / kRegionSize ≠ i
  leftover : ∀ e ∈ s.partialTlabs, e.2 ≠ i

/-- The spaces have the same regions and pointers to them. -/
structure SamePointers (s s' : RegionSpace) : Prop where
  numRegions : s'.numRegions = s.numRegions
  current : s'.currentRegion = s.currentRegion
  evac : s'.evacRegion = s.evacRegion
  tlabs : s'.tlabs = s.tlabs
  partialTlabs : s'.partialTlabs = s.partialTlabs

/-- A loop has changed the regions `[i, p)`, and no others. -/
structure Changes (f : Region → Region) (s s' : RegionSpace) (i p : ℕ) : Prop extends SamePointers s s' where
  changed : ∀ j, i ≤ j → j < p → s'.regions j = f (s.regions j)
  other : ∀ j, ¬(i ≤ j ∧ j < p) → s'.regions j = s.regions j

lemma Changes.nil (f : Region → Region) (s : RegionSpace) (i : ℕ) : Changes f s s i i :=
  ⟨⟨rfl, rfl, rfl, rfl, rfl⟩, fun _ h1 h2 => absurd (h1.trans_lt h2) (lt_irrefl i), fun _ _ => rfl⟩

/-- One more iteration. -/
lemma Changes.snoc {f : Region → Region} {s₁ : RegionSpace} {p : ℕ} (h : Changes f s s₁ i p) (hi : i ≤ p)
    (hs : SamePointers s₁ s') (hp : s'.regions = Function.update s₁.regions p (f (s₁.regions p))) :
    Changes f s s' i (p + 1) := by
  refine ⟨⟨hs.numRegions.trans h.numRegions, hs.current.trans h.current, hs.evac.trans h.evac,
    hs.tlabs.trans h.tlabs, hs.partialTlabs.trans h.partialTlabs⟩, fun j h1 h2 => ?_, fun j hj => ?_⟩
  · rcases (Nat.lt_succ_iff.1 h2).eq_or_lt with rfl | hlt
    · rw [hp, Function.update_self, h.other j (by omega)]
    · rw [hp, Function.update_of_ne hlt.ne, h.changed j h1 hlt]
  · rw [hp, Function.update_of_ne (by omega), h.other j (by omega)]

lemma Pointers.unreferenced_of_state (h : s.Pointers l) (hi : s.stateOf i ≠ .allocated) :
    s.Unreferenced i where
  current := fun hc => hi (h.current i hc).1.state
  evac := fun hc => hi (h.evac i hc).1.state
  tlab := fun t b hb heq => hi (heq ▸ (h.tlab t b hb).1.state)
  leftover := fun e he heq => hi (heq ▸ (h.leftover e he).1.state)

lemma Pointers.unreferenced_of_type (h : s.Pointers l) (ht : s.TlabsInToSpace)
    (hi : s.typeOf i ≠ .toSpace) : s.Unreferenced i where
  current := fun hc => hi (h.current i hc).2.1
  evac := fun hc => hi (h.evac i hc).2.1
  tlab := fun t b hb heq => hi (heq ▸ ht t b hb)
  leftover := fun e he heq => hi (heq ▸ (h.leftover e he).2.1)

lemma SamePointers.unreferenced (h : SamePointers s s') (hu : s.Unreferenced i) : s'.Unreferenced i where
  current := h.current ▸ hu.current
  evac := h.evac ▸ hu.evac
  tlab := h.tlabs ▸ hu.tlab
  leftover := h.partialTlabs ▸ hu.leftover

lemma Owns.congr {o : Owner} (h : s.Owns l o i) (hn : s'.numRegions = s.numRegions)
    (hstate : s'.stateOf i = s.stateOf i) (howner : l'.owner i = l.owner i) : s'.Owns l' o i :=
  ⟨hn ▸ h.lt, hstate.trans h.state, howner.trans h.owner⟩

lemma InRegion.congr {b : Tlab} (h : InRegion l b i) (hused : l'.used i = l.used i) : InRegion l' b i :=
  { h with used := hused ▸ h.used }

/-- A change of regions and pointers: a pointer is an old one to a region that is kept, or right for the new
    space. -/
lemma Pointers.change (h : s.Pointers l) (kept : ℕ → Prop) (hn : s'.numRegions = s.numRegions)
    (hkept : ∀ j, kept j → s'.regions j = s.regions j ∧ l'.owner j = l.owner j ∧ l'.used j = l.used j)
    (hle : ∀ j, l'.used j ≤ kRegionSize)
    (hcurrent : ∀ j, s'.currentRegion = .region j → (kept j ∧ s.currentRegion = .region j) ∨
      (s'.Owns l' .current j ∧ s'.typeOf j = .toSpace ∧ (s'.regions j).top = l'.used j))
    (hevac : ∀ j, s'.evacRegion = .region j → (kept j ∧ s.evacRegion = .region j) ∨
      (s'.Owns l' .evac j ∧ s'.typeOf j = .toSpace ∧ (s'.regions j).top = l'.used j))
    (htlab : ∀ t b, s'.tlabs t = some b → (kept (b.start / kRegionSize) ∧ s.tlabs t = some b) ∨
      (s'.Owns l' (.tlab t) (b.start / kRegionSize) ∧ InRegion l' b (b.start / kRegionSize)))
    (hleftover : ∀ e ∈ s'.partialTlabs, (kept e.2 ∧ e ∈ s.partialTlabs) ∨ (s'.Owns l' .leftover e.2 ∧
      s'.typeOf e.2 = .toSpace ∧ 0 < e.1 ∧ l'.used e.2 + e.1 ≤ kRegionSize))
    (hnodup : (s'.partialTlabs.map Prod.snd).Nodup) : s'.Pointers l' := by
  have howns : ∀ {o j}, kept j → s.Owns l o j → s'.Owns l' o j := fun hj ho =>
    ho.congr hn (congrArg _ (hkept _ hj).1) (hkept _ hj).2.1
  have htop : ∀ {o j}, kept j → s.Owns l o j ∧ s.typeOf j = .toSpace ∧ (s.regions j).top = l.used j →
      s'.Owns l' o j ∧ s'.typeOf j = .toSpace ∧ (s'.regions j).top = l'.used j := fun {_ j} hj ho => by
    rw [typeOf, (hkept j hj).1, (hkept j hj).2.2]
    exact ⟨howns hj ho.1, ho.2⟩
  refine ⟨hle, fun j hj => ?_, fun j hj => ?_, fun t b hb => ?_, fun e he => ?_, hnodup⟩
  · exact (hcurrent j hj).elim (fun hold => htop hold.1 (h.current j hold.2)) id
  · exact (hevac j hj).elim (fun hold => htop hold.1 (h.evac j hold.2)) id
  · rcases htlab t b hb with ⟨hj, hold⟩ | hnew
    · obtain ⟨h1, h2⟩ := h.tlab t b hold
      exact ⟨howns hj h1, h2.congr (hkept _ hj).2.2⟩
    · exact hnew
  · rcases hleftover e he with ⟨hj, hold⟩ | hnew
    · obtain ⟨h1, h2⟩ := h.leftover e hold
      rw [typeOf, (hkept _ hj).1, (hkept _ hj).2.2]
      exact ⟨howns hj h1, h2⟩
    · exact hnew

/-- A change of the regions that nothing points to. -/
lemma Pointers.frame (h : s.Pointers l) (hs : SamePointers s s') (hused : ∀ i, l'.used i ≤ kRegionSize)
    (hframe : ∀ i, ¬s.Unreferenced i →
      s'.regions i = s.regions i ∧ l'.owner i = l.owner i ∧ l'.used i = l.used i) : s'.Pointers l' := by
  refine h.change (¬s.Unreferenced ·) hs.numRegions hframe hused (fun j hj => ?_) (fun j hj => ?_)
    (fun t b hb => ?_) (fun e he => ?_) (hs.partialTlabs ▸ h.nodup)
  · rw [hs.current] at hj
    exact .inl ⟨fun hu => hu.current hj, hj⟩
  · rw [hs.evac] at hj
    exact .inl ⟨fun hu => hu.evac hj, hj⟩
  · rw [hs.tlabs] at hb
    exact .inl ⟨fun hu => hu.tlab t b hb rfl, hb⟩
  · rw [hs.partialTlabs] at he
    exact .inl ⟨fun hu => hu.leftover e he rfl, he⟩

/-- TLABs stay in to-space when the regions that they are in do not change. -/
lemma TlabsInToSpace.frame (h : s.TlabsInToSpace) (hs : SamePointers s s')
    (hframe : ∀ i, ¬s.Unreferenced i → s'.regions i = s.regions i) : s'.TlabsInToSpace := by
  intro t b hb
  rw [hs.tlabs] at hb
  rw [typeOf, hframe _ fun hu => hu.tlab t b hb rfl]
  exact h t b hb

/-! ## Taking regions -/

/-- The layout after the regions `[left, left + k)` were taken. -/
def Layout.take (l : Layout) (forEvac : Bool) (left k : ℕ) : Layout where
  evac := fun j => if left ≤ j ∧ j < left + k then forEvac else l.evac j
  owner := fun j => if left ≤ j ∧ j < left + k then .nobody else l.owner j
  used := fun j => if left ≤ j ∧ j < left + k then 0 else l.used j

/-- The free regions `[left, left + k)` become an allocated region or a large object. -/
structure Takes (s s' : RegionSpace) (forEvac : Bool) (left k : ℕ) : Prop extends
    SamePointers s s' where
  pos : 0 < k
  le : left + k ≤ s.numRegions
  free : ∀ j, left ≤ j → j < left + k → s.stateOf j = .free
  other : ∀ j, ¬(left ≤ j ∧ j < left + k) → s'.regions j = s.regions j
  type : ∀ j, left ≤ j → j < left + k → s'.typeOf j = .toSpace
  live : ∀ j, left ≤ j → j < left + k → (s'.regions j).liveBytes = none
  whole : (k = 1 ∧ s'.stateOf left = .allocated) ∨
    (s'.IsLarge left k ∧ ∀ j, left < j → j < left + k → (s'.regions j).top = 0)
  nonFree : s'.numNonFreeRegions = s.numNonFreeRegions + if false = forEvac then k else 0
  evacuation : s'.numEvacRegions = s.numEvacRegions + if true = forEvac then k else 0
  limit : s'.nonFreeRegionIndexLimit = max s.nonFreeRegionIndexLimit (left + k)

namespace Takes

variable (h : Takes s s' forEvac left k)

include h

lemma state_ne_free {j : ℕ} (h1 : left ≤ j) (h2 : j < left + k) : s'.stateOf j ≠ .free := by
  rcases h.whole with ⟨rfl, hs⟩ | ⟨hl, -⟩
  · obtain rfl : j = left := by omega
    rw [hs]
    simp
  · exact hl.state_ne_free h1 h2

/-- The large objects of before are not touched. -/
lemma isLarge {i m : ℕ} (hl : s.IsLarge i m) : s'.IsLarge i m :=
  hl.of_regions_eq h.numRegions fun j h1 h2 => h.other j fun hj =>
    hl.state_ne_free h1 h2 (h.free j hj.1 hj.2)

/-- A large object of after is one of before, or the new one. -/
lemma isLarge_cases (ht : s.Table evac) {i m : ℕ} (hl : s'.IsLarge i m) :
    s.IsLarge i m ∨ (i = left ∧ m = k) := by
  by_cases hi : left ≤ i ∧ i < left + k
  · rcases h.whole with ⟨rfl, hs⟩ | ⟨hnew, -⟩
    · obtain rfl : i = left := by omega
      exact absurd hs (hl.state_ne_allocated le_rfl (by have := hl.two_le; omega))
    · have hm := hl.two_le
      have heq := hl.head_eq hnew le_rfl (by omega) hi.1 hi.2
      subst heq
      exact .inr ⟨rfl, hl.length_eq hnew⟩
  · have hstate : s.stateOf i = .large := by
      rw [stateOf, ← h.other i hi]
      exact hl.state
    obtain ⟨m', hm'⟩ := ht.large i (h.numRegions ▸ hl.lt) hstate
    rw [hl.length_eq (h.isLarge hm')]
    exact .inl hm'

lemma counted (l : Layout) (b : Bool) :
    s'.counted (l.take forEvac left k).evac b = s.counted l.evac b + if b = forEvac then k else 0 := by
  refine counted_take h.numRegions h.le h.free (fun j h1 h2 => ⟨h.state_ne_free h1 h2, ?_⟩)
    (fun j hj => ⟨?_, if_neg hj⟩) b
  · exact if_pos ⟨h1, h2⟩
  · rw [stateOf, h.other j hj]

lemma table (ht : s.Table l.evac) : s'.Table (l.take forEvac left k).evac where
  free := fun i hi hf => by
    have hout : ¬(left ≤ i ∧ i < left + k) := fun hin => h.state_ne_free hin.1 hin.2 hf
    rw [stateOf, h.other i hout] at hf
    rw [h.other i hout]
    exact ht.free i (h.numRegions ▸ hi) hf
  typed := fun i hi hf => by
    by_cases hin : left ≤ i ∧ i < left + k
    · rw [h.type i hin.1 hin.2]
      simp
    · rw [stateOf, h.other i hin] at hf
      rw [typeOf, h.other i hin]
      exact ht.typed i (h.numRegions ▸ hi) hf
  large := fun i hi hstate => by
    by_cases hin : left ≤ i ∧ i < left + k
    · rcases h.whole with ⟨rfl, hs⟩ | ⟨hnew, -⟩
      · obtain rfl : i = left := by omega
        cases hs.symm.trans hstate
      · obtain rfl : i = left := by
          by_contra hne
          exact RegionState.noConfusion
            (hstate.symm.trans (hnew.tail i (lt_of_le_of_ne hin.1 (Ne.symm hne)) hin.2))
        exact ⟨k, hnew⟩
    · rw [stateOf, h.other i hin] at hstate
      obtain ⟨m, hm⟩ := ht.large i (h.numRegions ▸ hi) hstate
      exact ⟨m, h.isLarge hm⟩
  tail := fun j hj hstate => by
    by_cases hin : left ≤ j ∧ j < left + k
    · rcases h.whole with ⟨rfl, hs⟩ | ⟨hnew, -⟩
      · obtain rfl : j = left := by omega
        cases hs.symm.trans hstate
      · refine ⟨left, k, hnew, lt_of_le_of_ne hin.1 ?_, hin.2⟩
        rintro rfl
        cases hstate.symm.trans hnew.state
    · rw [stateOf, h.other j hin] at hstate
      obtain ⟨i, m, hm, h1, h2⟩ := ht.tail j (h.numRegions ▸ hj) hstate
      exact ⟨i, m, h.isLarge hm, h1, h2⟩
  tail_top := fun j hj hstate => by
    by_cases hin : left ≤ j ∧ j < left + k
    · rcases h.whole with ⟨rfl, hs⟩ | ⟨hnew, htop⟩
      · obtain rfl : j = left := by omega
        cases hs.symm.trans hstate
      · refine htop j (lt_of_le_of_ne hin.1 ?_) hin.2
        rintro rfl
        cases hstate.symm.trans hnew.state
    · rw [stateOf, h.other j hin] at hstate
      rw [h.other j hin]
      exact ht.tail_top j (h.numRegions ▸ hj) hstate
  evac_tail := fun i m j hl h1 h2 => by
    rcases h.isLarge_cases ht hl with hold | ⟨rfl, rfl⟩
    · have hout : ∀ p, i ≤ p → p < i + m → ¬(left ≤ p ∧ p < left + k) := fun p hp1 hp2 hin =>
        hold.state_ne_free hp1 hp2 (h.free p hin.1 hin.2)
      simp only [Layout.take, if_neg (hout j h1.le h2), if_neg (hout i le_rfl (by omega))]
      exact ht.evac_tail i m j hold h1 h2
    · simp only [Layout.take]
      rw [if_pos ⟨h1.le, h2⟩, if_pos ⟨le_rfl, by omega⟩]
  nonFree := by rw [h.counted, h.nonFree, ht.nonFree]
  evacuation := by rw [h.counted, h.evacuation, ht.evacuation]
  limit := fun i hi hf => by
    rw [h.limit]
    by_cases hin : left ≤ i ∧ i < left + k
    · exact lt_max_of_lt_right hin.2
    · rw [stateOf, h.other i hin] at hf
      exact lt_max_of_lt_left (ht.limit i (h.numRegions ▸ hi) hf)

lemma pointers (hp : s.Pointers l) : s'.Pointers (l.take forEvac left k) := by
  refine hp.frame h.toSamePointers (fun i => ?_) fun i hi => ?_
  · simp only [Layout.take]
    split
    · exact Nat.zero_le _
    · exact hp.used_le i
  · have hout : ¬(left ≤ i ∧ i < left + k) := fun hin => hi <| hp.unreferenced_of_state <| by
      rw [h.free i hin.1 hin.2]
      simp
    exact ⟨h.other i hout, if_neg hout, if_neg hout⟩

/-- A region for evacuation is only taken in a cycle. -/
lemma phase (hp : s.Phase l.evac) (hcycle : forEvac = true → s.evacRegion ≠ .null) :
    s'.Phase (l.take forEvac left k).evac where
  idle := fun hnull i hi hf => by
    rw [h.evac] at hnull
    by_cases hin : left ≤ i ∧ i < left + k
    · refine ⟨h.type i hin.1 hin.2, ?_⟩
      rw [show (l.take forEvac left k).evac i = forEvac from if_pos hin]
      cases forEvac
      · rfl
      · exact absurd hnull (hcycle rfl)
    · rw [stateOf, h.other i hin] at hf
      rw [typeOf, h.other i hin, show (l.take forEvac left k).evac i = l.evac i from if_neg hin]
      exact hp.idle hnull i (h.numRegions ▸ hi) hf
  old := fun i hi hf ht => by
    by_cases hin : left ≤ i ∧ i < left + k
    · exact absurd (h.type i hin.1 hin.2) ht
    · rw [stateOf, h.other i hin] at hf
      rw [typeOf, h.other i hin] at ht
      rw [show (l.take forEvac left k).evac i = l.evac i from if_neg hin]
      exact hp.old i (h.numRegions ▸ hi) hf ht
  live := fun hnull i hi ht => by
    rw [h.evac] at hnull
    by_cases hin : left ≤ i ∧ i < left + k
    · exact h.live i hin.1 hin.2
    · rw [typeOf, h.other i hin] at ht
      rw [h.other i hin]
      exact hp.live hnull i (h.numRegions ▸ hi) ht
  from_space := fun i hi ht => by
    by_cases hin : left ≤ i ∧ i < left + k
    · cases (h.type i hin.1 hin.2).symm.trans ht
    · rw [typeOf, h.other i hin] at ht
      rw [stateOf, h.other i hin]
      exact hp.from_space i (h.numRegions ▸ hi) ht

lemma wellFormed (hw : s.WellFormed l) (hcycle : forEvac = true → s.evacRegion ≠ .null) :
    s'.WellFormed (l.take forEvac left k) :=
  ⟨h.table hw.table, h.pointers hw.pointers, h.phase hw.phase hcycle⟩

lemma tlabsInToSpace (hp : s.Pointers l) (ht : s.TlabsInToSpace) : s'.TlabsInToSpace :=
  ht.frame h.toSamePointers fun i hi => h.other i fun hin => hi <| hp.unreferenced_of_state <| by
    rw [h.free i hin.1 hin.2]
    simp

lemma unreferenced (hp : s.Pointers l) (h1 : left ≤ i) (h2 : i < left + k) : s'.Unreferenced i :=
  h.toSamePointers.unreferenced <| hp.unreferenced_of_state <| by
    rw [h.free i h1 h2]
    simp

lemma placed (ha : s.Placed l a) : s'.Placed (l.take forEvac left k) a := by
  refine ha.mono h.numRegions (fun i _ hs => ?_) fun i m hl => ⟨h.isLarge hl, if_neg fun hin => ?_⟩
  · have hout : ¬(left ≤ i ∧ i < left + k) := fun hin =>
      RegionState.noConfusion (hs.symm.trans (h.free i hin.1 hin.2))
    refine ⟨?_, (if_neg hout).ge⟩
    rw [stateOf, h.other i hout]
    exact hs
  · cases hl.state.symm.trans (h.free i hin.1 hin.2)

end Takes

/-! ## Releasing regions -/

/-- The allocated region or large object `[left, left + k)` becomes free. -/
structure Releases (s s' : RegionSpace) (forEvac : Bool) (left k : ℕ) : Prop extends
    SamePointers s s' where
  pos : 0 < k
  le : left + k ≤ s.numRegions
  whole : (k = 1 ∧ s.stateOf left = .allocated) ∨ s.IsLarge left k
  cleared : ∀ j, left ≤ j → j < left + k → s'.regions j = Region.cleared
  other : ∀ j, ¬(left ≤ j ∧ j < left + k) → s'.regions j = s.regions j
  nonFree : s'.numNonFreeRegions = s.numNonFreeRegions - if false = forEvac then k else 0
  evacuation : s'.numEvacRegions = s.numEvacRegions - if true = forEvac then k else 0
  limit : s'.nonFreeRegionIndexLimit = s.nonFreeRegionIndexLimit

namespace Releases

variable (h : Releases s s' forEvac left k)

include h

lemma state_ne_free {j : ℕ} (h1 : left ≤ j) (h2 : j < left + k) : s.stateOf j ≠ .free := by
  rcases h.whole with ⟨rfl, hs⟩ | hl
  · obtain rfl : j = left := by omega
    rw [hs]
    simp
  · exact hl.state_ne_free h1 h2

lemma state_eq_free {j : ℕ} (h1 : left ≤ j) (h2 : j < left + k) : s'.stateOf j = .free := by
  rw [stateOf, h.cleared j h1 h2]
  rfl

lemma outside {j : ℕ} (hf : s'.stateOf j ≠ .free) : ¬(left ≤ j ∧ j < left + k) :=
  fun hin => hf (h.state_eq_free hin.1 hin.2)

lemma isLarge_of {i m : ℕ} (hl : s'.IsLarge i m) : s.IsLarge i m :=
  hl.of_regions_eq h.numRegions.symm fun j h1 h2 =>
    (h.other j (h.outside (hl.state_ne_free h1 h2))).symm

/-- Another large object is not touched. -/
lemma isLarge {i m : ℕ} (hl : s.IsLarge i m) (hi : ¬(left ≤ i ∧ i < left + k)) : s'.IsLarge i m := by
  refine hl.of_regions_eq h.numRegions fun j h1 h2 => h.other j fun hin => ?_
  rcases h.whole with ⟨rfl, hs⟩ | hl'
  · obtain rfl : j = left := by omega
    exact hl.state_ne_allocated h1 h2 hs
  · have heq := hl.head_eq hl' h1 h2 hin.1 hin.2
    subst heq
    exact hi ⟨le_rfl, by omega⟩

lemma counted (hevac : ∀ j, left ≤ j → j < left + k → evac j = forEvac) (b : Bool) :
    s.counted evac b = s'.counted evac b + if b = forEvac then k else 0 := by
  refine counted_take h.numRegions.symm (h.numRegions ▸ h.le) (fun j => h.state_eq_free)
    (fun j h1 h2 => ⟨h.state_ne_free h1 h2, hevac j h1 h2⟩) (fun j hj => ⟨?_, rfl⟩) b
  rw [stateOf, stateOf, h.other j hj]

lemma table (ht : s.Table evac) (hevac : ∀ j, left ≤ j → j < left + k → evac j = forEvac) :
    s'.Table evac where
  free := fun i hi hf => by
    by_cases hin : left ≤ i ∧ i < left + k
    · exact h.cleared i hin.1 hin.2
    · rw [stateOf, h.other i hin] at hf
      rw [h.other i hin]
      exact ht.free i (h.numRegions ▸ hi) hf
  typed := fun i hi hf => by
    have hout := h.outside hf
    rw [stateOf, h.other i hout] at hf
    rw [typeOf, h.other i hout]
    exact ht.typed i (h.numRegions ▸ hi) hf
  large := fun i hi hstate => by
    have hout := h.outside (by rw [hstate]; simp)
    rw [stateOf, h.other i hout] at hstate
    obtain ⟨m, hm⟩ := ht.large i (h.numRegions ▸ hi) hstate
    exact ⟨m, h.isLarge hm hout⟩
  tail := fun j hj hstate => by
    have hout := h.outside (by rw [hstate]; simp)
    rw [stateOf, h.other j hout] at hstate
    obtain ⟨i, m, hm, h1, h2⟩ := ht.tail j (h.numRegions ▸ hj) hstate
    refine ⟨i, m, h.isLarge hm fun hin => hout ?_, h1, h2⟩
    -- The tail belongs to the released object if its head does.
    rcases h.whole with ⟨rfl, hs⟩ | hl
    · obtain rfl : i = left := by omega
      exact absurd hs (hm.state_ne_allocated le_rfl (by omega))
    · have heq := hm.head_eq hl le_rfl (by omega) hin.1 hin.2
      subst heq
      rw [hm.length_eq hl] at h2
      exact ⟨h1.le, h2⟩
  tail_top := fun j hj hstate => by
    have hout := h.outside (by rw [hstate]; simp)
    rw [stateOf, h.other j hout] at hstate
    rw [h.other j hout]
    exact ht.tail_top j (h.numRegions ▸ hj) hstate
  evac_tail := fun i m j hl => ht.evac_tail i m j (h.isLarge_of hl)
  nonFree := by rw [h.nonFree, ht.nonFree, h.counted hevac, Nat.add_sub_cancel]
  evacuation := by rw [h.evacuation, ht.evacuation, h.counted hevac, Nat.add_sub_cancel]
  limit := fun i hi hf => by
    have hout := h.outside hf
    rw [stateOf, h.other i hout] at hf
    rw [h.limit]
    exact ht.limit i (h.numRegions ▸ hi) hf

lemma pointers (hp : s.Pointers l) (hu : ∀ j, left ≤ j → j < left + k → s.Unreferenced j) : s'.Pointers l :=
  hp.frame h.toSamePointers hp.used_le fun i hi =>
    ⟨h.other i fun hin => hi (hu i hin.1 hin.2), rfl, rfl⟩

lemma tlabsInToSpace (ht : s.TlabsInToSpace)
    (hu : ∀ j, left ≤ j → j < left + k → s.Unreferenced j) : s'.TlabsInToSpace :=
  ht.frame h.toSamePointers fun i hi => h.other i fun hin => hi (hu i hin.1 hin.2)

lemma phase (hp : s.Phase evac) : s'.Phase evac := by
  have hout : ∀ i, s'.typeOf i ≠ .none → ¬(left ≤ i ∧ i < left + k) := fun i ht hin => by
    rw [typeOf, h.cleared i hin.1 hin.2] at ht
    exact ht rfl
  constructor
  · intro hnull i hi hf
    have ho := h.outside hf
    rw [h.evac] at hnull
    rw [stateOf, h.other i ho] at hf
    rw [typeOf, h.other i ho]
    exact hp.idle hnull i (h.numRegions ▸ hi) hf
  · intro i hi hf ht
    have ho := h.outside hf
    rw [stateOf, h.other i ho] at hf
    rw [typeOf, h.other i ho] at ht
    exact hp.old i (h.numRegions ▸ hi) hf ht
  · intro hnull i hi ht
    have ho := hout i (by rw [ht]; simp)
    rw [h.evac] at hnull
    rw [typeOf, h.other i ho] at ht
    rw [h.other i ho]
    exact hp.live hnull i (h.numRegions ▸ hi) ht
  · intro i hi ht
    have ho := hout i (by rw [ht]; simp)
    rw [typeOf, h.other i ho] at ht
    rw [stateOf, h.other i ho]
    exact hp.from_space i (h.numRegions ▸ hi) ht

/-- An allocation that begins in another region stays where it is. -/
lemma placed (hused : ∀ i, l.used i ≤ kRegionSize) (ha : s.Placed l a)
    (haddr : ¬(left ≤ a.address / kRegionSize ∧ a.address / kRegionSize < left + k)) : s'.Placed l a := by
  by_cases hsize : a.size = 0
  · exact .empty hsize
  cases ha with
  | empty hz => exact absurd hz hsize
  | small i lt state ge le =>
    have hi : a.address / kRegionSize = i := by
      have := hused i
      rw [kRegionSize] at *
      omega
    rw [hi] at haddr
    refine .small i (h.numRegions ▸ lt) ?_ ge le
    rw [stateOf, h.other i haddr]
    exact state
  | large i m hl address size hevac =>
    rw [address, Nat.mul_div_cancel i (by decide)] at haddr
    exact .large i m (h.isLarge hl haddr) address size hevac

end Releases

end RegionSpace

end Art
