import Art.Lib.Counting
import Art.RegionSpace.Space

/-!
# The invariant of the region space

A `Layout` says of each region whether it counts as an evacuation region, who may still allocate in it and
how much of it is used. The invariant has three parts:

* `Table`: the states of the regions, the counters and the limit;
* `Pointers`: each of `current_region_`, `evac_region_`, the TLABs and the partial TLABs owns the unused
  part of its region;

`Placed` says where an allocation lies, so that what is above `used` in a region is not part of any.
-/

namespace Art

namespace RegionSpace

variable (s : RegionSpace)

/-- The state of region `i`. -/
abbrev stateOf (i : ℕ) : RegionState := (s.regions i).state

/-- The type of region `i`. -/
abbrev typeOf (i : ℕ) : RegionType := (s.regions i).type

/-- Region `i` is the large head of an object of `k` regions, and tails follow it. -/
structure IsLarge (s : RegionSpace) (i k : ℕ) : Prop where
  two_le : 2 ≤ k
  le : i + k ≤ s.numRegions
  state : s.stateOf i = .large
  top : (s.regions i).top = k * kRegionSize
  tail : ∀ j, i < j → j < i + k → s.stateOf j = .largeTail
  type : ∀ j, i < j → j < i + k → s.typeOf j = s.typeOf i

/-- Who may allocate in the unused part of a region. -/
inductive Owner
  | nobody
  | current
  | evac
  | tlab (thread : ℕ)
  | leftover

structure Layout where
  /-- The region is counted in `num_evac_regions_`. -/
  evac : ℕ → Bool
  owner : ℕ → Owner
  /-- The objects of the region lie below this offset. -/
  used : ℕ → ℕ

/-- The number of non-free regions that are (not) counted as evacuation regions. -/
def counted (evac : ℕ → Bool) (b : Bool) : ℕ :=
  Nat.count (fun i => s.stateOf i ≠ .free ∧ evac i = b) s.numRegions

/-- The number of non-free regions. -/
def nonFreeCount : ℕ := Nat.count (fun i => s.stateOf i ≠ .free) s.numRegions

structure Table (s : RegionSpace) (evac : ℕ → Bool) : Prop where
  free : ∀ i < s.numRegions, s.stateOf i = .free → s.regions i = Region.cleared
  typed : ∀ i < s.numRegions, s.stateOf i ≠ .free → s.typeOf i ≠ .none
  large : ∀ i < s.numRegions, s.stateOf i = .large → ∃ k, s.IsLarge i k
  tail : ∀ j < s.numRegions, s.stateOf j = .largeTail → ∃ i k, s.IsLarge i k ∧ i < j ∧ j < i + k
  tail_top : ∀ j < s.numRegions, s.stateOf j = .largeTail → (s.regions j).top = 0
  evac_tail : ∀ i k j, s.IsLarge i k → i < j → j < i + k → evac j = evac i
  nonFree : s.numNonFreeRegions = s.counted evac false
  evacuation : s.numEvacRegions = s.counted evac true
  limit : ∀ i < s.numRegions, s.stateOf i ≠ .free → i < s.nonFreeRegionIndexLimit

/-- `o` may allocate in region `i`. -/
structure Owns (s : RegionSpace) (l : Layout) (o : Owner) (i : ℕ) : Prop where
  lt : i < s.numRegions
  state : s.stateOf i = .allocated
  owner : l.owner i = o

/-- The bounds of a buffer in region `i`. -/
structure InRegion (l : Layout) (b : Tlab) (i : ℕ) : Prop where
  start_lt : b.start < (i + 1) * kRegionSize
  used : i * kRegionSize + l.used i ≤ b.pos
  start : i * kRegionSize ≤ b.start
  pos : b.start ≤ b.pos
  stop : b.pos ≤ b.stop
  limit : b.stop ≤ b.limit
  limit_eq : b.limit = (i + 1) * kRegionSize

structure Pointers (s : RegionSpace) (l : Layout) : Prop where
  used_le : ∀ i, l.used i ≤ kRegionSize
  current : ∀ i, s.currentRegion = .region i →
    s.Owns l .current i ∧ s.typeOf i = .toSpace ∧ (s.regions i).top = l.used i
  evac : ∀ i, s.evacRegion = .region i →
    s.Owns l .evac i ∧ s.typeOf i = .toSpace ∧ (s.regions i).top = l.used i
  tlab : ∀ t b, s.tlabs t = some b →
    s.Owns l (.tlab t) (b.start / kRegionSize) ∧ InRegion l b (b.start / kRegionSize)
  leftover : ∀ e ∈ s.partialTlabs,
    s.Owns l .leftover e.2 ∧ s.typeOf e.2 = .toSpace ∧ 0 < e.1 ∧ l.used e.2 + e.1 ≤ kRegionSize
  nodup : (s.partialTlabs.map Prod.snd).Nodup

/-- The types of the regions. Outside of a cycle everything is to-space; in a cycle the live bytes are
    only known for unevacuated from-space, which has all the large objects of before the cycle, and the
    regions of before the cycle are not counted as evacuation regions. -/
structure Phase (s : RegionSpace) (evac : ℕ → Bool) : Prop where
  idle : s.evacRegion = .null →
    ∀ i < s.numRegions, s.stateOf i ≠ .free → s.typeOf i = .toSpace ∧ evac i = false
  old : ∀ i < s.numRegions, s.stateOf i ≠ .free → s.typeOf i ≠ .toSpace → evac i = false
  live : s.evacRegion ≠ .null → ∀ i < s.numRegions, s.typeOf i = .toSpace → (s.regions i).liveBytes = none
  from_space : ∀ i < s.numRegions, s.typeOf i = .fromSpace →
    s.stateOf i = .allocated ∧ (s.regions i).liveBytes = none

structure WellFormed (s : RegionSpace) (l : Layout) : Prop where
  table : s.Table l.evac
  pointers : s.Pointers l
  phase : s.Phase l.evac

/-- No TLAB is in a region that may be freed at the end of the cycle. -/
def TlabsInToSpace : Prop := ∀ t b, s.tlabs t = some b → s.typeOf (b.start / kRegionSize) = .toSpace

/-- An object, with the template argument it was allocated with if that was in the running cycle. -/
structure Allocation where
  address : ℕ
  size : ℕ
  forEvac : Bool
  deriving DecidableEq, Repr

/-- The byte `x` is one of the allocation's. -/
def Allocation.Covers (a : Allocation) (x : ℕ) : Prop := a.address ≤ x ∧ x < a.address + a.size

def Allocation.Separate (a b : Allocation) : Prop := ∀ x, a.Covers x → ¬b.Covers x

/-- Where an allocation lies. -/
inductive Placed (s : RegionSpace) (l : Layout) (a : Allocation) : Prop
  | empty (size : a.size = 0)
  | small (i : ℕ) (lt : i < s.numRegions) (state : s.stateOf i = .allocated)
    (ge : i * kRegionSize ≤ a.address) (le : a.address + a.size ≤ i * kRegionSize + l.used i)
  | large (i k : ℕ) (large : s.IsLarge i k) (address : a.address = i * kRegionSize)
    (size : a.size = k * kRegionSize) (evac : a.forEvac = l.evac i)

/-! ## Large objects -/

variable {s s' : RegionSpace} {l l' : Layout} {evac evac' : ℕ → Bool} {a b : Allocation} {i k : ℕ}

lemma IsLarge.lt (h : s.IsLarge i k) : i < s.numRegions := by
  have := h.two_le
  have := h.le
  omega

variable {j : ℕ}

lemma IsLarge.state_ne_free (h : s.IsLarge i k) (hi : i ≤ j) (hj : j < i + k) : s.stateOf j ≠ .free := by
  rcases hi.eq_or_lt with rfl | hi
  · rw [h.state]; simp
  · rw [h.tail j hi hj]; simp

lemma IsLarge.state_ne_allocated (h : s.IsLarge i k) (hi : i ≤ j) (hj : j < i + k) :
    s.stateOf j ≠ .allocated := by
  rcases hi.eq_or_lt with rfl | hi
  · rw [h.state]; simp
  · rw [h.tail j hi hj]; simp

variable {k' : ℕ}

lemma IsLarge.length_eq (h : s.IsLarge i k) (h' : s.IsLarge i k') : k = k' :=
  Nat.eq_of_mul_eq_mul_right (by decide) (h.top.symm.trans h'.top)

/-- Two large objects with a common region are the same. -/
lemma IsLarge.head_eq {i' : ℕ} (h : s.IsLarge i k) (h' : s.IsLarge i' k') (hi : i ≤ j)
    (hj : j < i + k) (hi' : i' ≤ j) (hj' : j < i' + k') : i = i' := by
  by_contra hne
  rcases Nat.lt_or_gt_of_ne hne with hlt | hlt
  · cases h'.state.symm.trans (h.tail i' hlt (by omega))
  · cases h.state.symm.trans (h'.tail i hlt (by omega))

variable (h : s.IsLarge i k) (hn : s'.numRegions = s.numRegions)

include h hn in
lemma IsLarge.congr (hstate : ∀ j, i ≤ j → j < i + k → s'.stateOf j = s.stateOf j)
    (htop : (s'.regions i).top = (s.regions i).top)
    (htype : ∀ j, i < j → j < i + k → s'.typeOf j = s'.typeOf i) : s'.IsLarge i k where
  two_le := h.two_le
  le := hn ▸ h.le
  state := (hstate i le_rfl (by have := h.two_le; omega)).trans h.state
  top := htop.trans h.top
  tail := fun j hi hj => (hstate j hi.le hj).trans (h.tail j hi hj)
  type := htype

include h hn in
lemma IsLarge.of_regions_eq (hregions : ∀ j, i ≤ j → j < i + k → s'.regions j = s.regions j) :
    s'.IsLarge i k := by
  have hk := h.two_le
  have hi := hregions i le_rfl (by omega)
  refine h.congr hn (fun j h1 h2 => congrArg Region.state (hregions j h1 h2))
    (congrArg Region.top hi) fun j h1 h2 => ?_
  rw [typeOf, typeOf, hregions j h1.le h2, hi]
  exact h.type j h1 h2

/-- The tails of a large object end where it ends. -/
lemma Table.not_tail_after (h : s.Table evac) (hl : s.IsLarge i k) (hlt : i + k < s.numRegions) :
    s.stateOf (i + k) ≠ .largeTail := by
  intro htail
  obtain ⟨i', k', hl', h1, h2⟩ := h.tail (i + k) hlt htail
  have hk := hl.two_le
  -- The last region of the object is also one of the other's.
  have heq := hl.head_eq hl' (by omega : i ≤ i + k - 1) (by omega) (by omega) (by omega)
  subst heq
  have := hl.length_eq hl'
  omega

/-! ## Counting -/

lemma Table.count (h : s.Table evac) : s.numNonFreeRegions + s.numEvacRegions = s.nonFreeCount := by
  rw [h.nonFree, h.evacuation, counted, counted, ← Counting.count_or]
  · refine Counting.count_congr fun i _ => ?_
    cases evac i <;> simp
  · rintro i _ ⟨⟨-, h1⟩, -, h2⟩
    cases h1.symm.trans h2

include hn in
/-- Taking the free regions `[left, left + k)` adds `k` to one of the counters. -/
lemma counted_take {forEvac : Bool} {left : ℕ} (hle : left + k ≤ s.numRegions)
    (hfree : ∀ j, left ≤ j → j < left + k → s.stateOf j = .free)
    (htaken : ∀ j, left ≤ j → j < left + k → s'.stateOf j ≠ .free ∧ evac' j = forEvac)
    (hother : ∀ j, ¬(left ≤ j ∧ j < left + k) → (s'.stateOf j = .free ↔ s.stateOf j = .free) ∧
      evac' j = evac j) (b : Bool) :
    s'.counted evac' b = s.counted evac b + if b = forEvac then k else 0 := by
  have hmem : ∀ j, (s'.stateOf j ≠ .free ∧ evac' j = b) ↔
      (s.stateOf j ≠ .free ∧ evac j = b) ∨ (forEvac = b ∧ left ≤ j ∧ j < left + k) := by
    intro j
    by_cases hj : left ≤ j ∧ j < left + k
    · simp [htaken j hj.1 hj.2, hfree j hj.1 hj.2, hj]
    · rw [(hother j hj).2, ne_eq, (hother j hj).1]
      simp [hj]
  rw [counted, counted, hn]
  rw [Counting.count_congr fun j _ => hmem j, Counting.count_or]
  · congr 1
    by_cases hb : b = forEvac
    · subst hb
      simp only [true_and, if_true]
      rw [Counting.count_interval]
      omega
    · rw [if_neg hb, Counting.count_congr (q := fun _ => False) fun j _ => by
        simp [Ne.symm hb], Nat.count_false]
  · rintro j _ ⟨⟨h1, -⟩, -, h2, h3⟩
    exact h1 (hfree j h2 h3)

/-! ## Where allocations lie -/

/-- The region of a byte of an allocation. -/
lemma Placed.region_of_covers (h : s.Placed l a) (hused : ∀ i, l.used i ≤ kRegionSize) {x : ℕ}
    (hx : a.Covers x) : (s.stateOf (x / kRegionSize) = .allocated ∧
        x < x / kRegionSize * kRegionSize + l.used (x / kRegionSize)) ∨
      (s.stateOf (x / kRegionSize) ≠ .allocated ∧ s.stateOf (x / kRegionSize) ≠ .free) := by
  obtain ⟨hx1, hx2⟩ := hx
  cases h with
  | empty size => omega
  | small i lt state ge le =>
    have hi : x / kRegionSize = i := by
      have := hused i
      rw [kRegionSize] at *
      omega
    rw [hi]
    exact .inl ⟨state, by omega⟩
  | large i k hl address size _ =>
    have h1 : i ≤ x / kRegionSize := by
      rw [kRegionSize] at *
      omega
    have h2 : x / kRegionSize < i + k := by
      rw [kRegionSize] at *
      omega
    exact .inr ⟨hl.state_ne_allocated h1 h2, hl.state_ne_free h1 h2⟩

lemma Placed.mono (h : s.Placed l a) (hn : s'.numRegions = s.numRegions)
    (hsmall : ∀ i < s.numRegions, s.stateOf i = .allocated → s'.stateOf i = .allocated ∧ l.used i ≤ l'.used i)
    (hlarge : ∀ i k, s.IsLarge i k → s'.IsLarge i k ∧ l'.evac i = l.evac i) : s'.Placed l' a := by
  cases h with
  | empty size => exact .empty size
  | small i lt state ge le =>
    obtain ⟨h1, h2⟩ := hsmall i lt state
    exact .small i (hn ▸ lt) h1 ge (le.trans (Nat.add_le_add_left h2 _))
  | large i k hl address size hevac =>
    exact .large i k (hlarge i k hl).1 address size (hevac.trans (hlarge i k hl).2.symm)

/-- An allocation in the unused part of a region, or in a free one, is separate from the others. -/
lemma Placed.separate (h : s.Placed l a) (hused : ∀ i, l.used i ≤ kRegionSize)
    (hb : ∀ x, b.Covers x → s.stateOf (x / kRegionSize) = .free ∨ (s.stateOf (x / kRegionSize) = .allocated ∧
        x / kRegionSize * kRegionSize + l.used (x / kRegionSize) ≤ x)) : b.Separate a := by
  intro x hx ha
  rcases h.region_of_covers hused ha with ⟨h1, h2⟩ | ⟨h1, h2⟩
  · rcases hb x hx with h3 | ⟨-, h4⟩
    · rw [h1] at h3
      cases h3
    · omega
  · rcases hb x hx with h3 | ⟨h3, -⟩
    · exact h2 h3
    · exact h1 h3

/-! ## Changes within allocated regions -/

/-- The table is kept if the states are, and what they say about regions that are free or large. -/
lemma Table.congr (ht : s.Table evac) (hn : s'.numRegions = s.numRegions)
    (hcounts : s'.numNonFreeRegions = s.numNonFreeRegions ∧ s'.numEvacRegions = s.numEvacRegions)
    (hlimit : s'.nonFreeRegionIndexLimit = s.nonFreeRegionIndexLimit) (hstate : ∀ j, s'.stateOf j = s.stateOf j)
    (hfree : ∀ j < s.numRegions, s.stateOf j = .free → s'.regions j = s.regions j)
    (htyped : ∀ j < s.numRegions, s.stateOf j ≠ .free → s'.typeOf j ≠ .none)
    (htop : ∀ j, s.stateOf j = .largeTail → (s'.regions j).top = (s.regions j).top)
    (hlarge : ∀ i k, s.IsLarge i k → s'.IsLarge i k) : s'.Table evac := by
  have hcounted : ∀ b, s'.counted evac b = s.counted evac b := fun b => by simp only [counted, hstate, hn]
  refine ⟨fun i hi hf => ?_, fun i hi hf => ?_, fun i hi hl => ?_, fun j hj hl => ?_, fun j hj hl => ?_,
    fun i k j hl => ?_, ?_, ?_, fun i hi hf => ?_⟩
  · rw [hstate] at hf
    rw [hfree i (hn ▸ hi) hf]
    exact ht.free i (hn ▸ hi) hf
  · exact htyped i (hn ▸ hi) (hstate i ▸ hf)
  · obtain ⟨k, hk⟩ := ht.large i (hn ▸ hi) ((hstate i).symm.trans hl)
    exact ⟨k, hlarge i k hk⟩
  · obtain ⟨i, k, hk, hij⟩ := ht.tail j (hn ▸ hj) ((hstate j).symm.trans hl)
    exact ⟨i, k, hlarge i k hk, hij⟩
  · rw [hstate] at hl
    rw [htop j hl]
    exact ht.tail_top j (hn ▸ hj) hl
  · obtain ⟨k', hk'⟩ := ht.large i (hn ▸ hl.lt) ((hstate i).symm.trans hl.state)
    rw [hl.length_eq (hlarge i k' hk')]
    exact ht.evac_tail i k' j hk'
  · rw [hcounts.1, ht.nonFree, hcounted]
  · rw [hcounts.2, ht.evacuation, hcounted]
  · rw [hlimit]
    exact ht.limit i (hn ▸ hi) (hstate i ▸ hf)

/-- A region that differs only in what is bumped or buffered in an allocated region. -/
structure Region.Bumped (r r' : Region) : Prop where
  state : r'.state = r.state
  type : r'.type = r.type
  liveBytes : r'.liveBytes = r.liveBytes
  eq_of_ne : r.state ≠ .allocated → r' = r

lemma Region.Bumped.refl (r : Region) : Region.Bumped r r := ⟨rfl, rfl, rfl, fun _ => rfl⟩

/-- The spaces differ only within allocated regions, and in the pointers. -/
structure Bumped (s s' : RegionSpace) : Prop where
  numRegions : s'.numRegions = s.numRegions
  numNonFreeRegions : s'.numNonFreeRegions = s.numNonFreeRegions
  numEvacRegions : s'.numEvacRegions = s.numEvacRegions
  limit : s'.nonFreeRegionIndexLimit = s.nonFreeRegionIndexLimit
  phase : s'.evacRegion = .null ↔ s.evacRegion = .null
  regions : ∀ i, Region.Bumped (s.regions i) (s'.regions i)

namespace Bumped

variable {i k : ℕ}

lemma isLarge (h : Bumped s s') (hl : s.IsLarge i k) : s'.IsLarge i k :=
  hl.of_regions_eq h.numRegions fun j h1 h2 =>
    (h.regions j).eq_of_ne (hl.state_ne_allocated h1 h2)

lemma table (h : Bumped s s') (ht : s.Table evac) : s'.Table evac := by
  refine ht.congr h.numRegions ⟨h.numNonFreeRegions, h.numEvacRegions⟩ h.limit (fun j => (h.regions j).state)
    (fun j _ hf => (h.regions j).eq_of_ne ?_) (fun j hj hf => ?_) (fun j hl => ?_) fun _ _ => h.isLarge
  · rw [show (s.regions j).state = .free from hf]
    simp
  · rw [typeOf, (h.regions j).type]
    exact ht.typed j hj hf
  · rw [(h.regions j).eq_of_ne (by rw [show (s.regions j).state = _ from hl]; simp)]

lemma phase_of (h : Bumped s s') (hp : s.Phase evac) : s'.Phase evac where
  idle := fun hnull i hi hf => by
    rw [stateOf, (h.regions i).state] at hf
    rw [typeOf, (h.regions i).type]
    exact hp.idle (h.phase.1 hnull) i (h.numRegions ▸ hi) hf
  old := fun i hi hf ht => by
    rw [stateOf, (h.regions i).state] at hf
    rw [typeOf, (h.regions i).type] at ht
    exact hp.old i (h.numRegions ▸ hi) hf ht
  live := fun hnull i hi ht => by
    rw [typeOf, (h.regions i).type] at ht
    rw [(h.regions i).liveBytes]
    exact hp.live (fun hn => hnull (h.phase.2 hn)) i (h.numRegions ▸ hi) ht
  from_space := fun i hi ht => by
    rw [typeOf, (h.regions i).type] at ht
    rw [stateOf, (h.regions i).state, (h.regions i).liveBytes]
    exact hp.from_space i (h.numRegions ▸ hi) ht

lemma placed (h : Bumped s s') (hused : ∀ i, l.used i ≤ l'.used i) (hevac : l'.evac = l.evac)
    (ha : s.Placed l a) : s'.Placed l' a :=
  ha.mono h.numRegions (fun i _ hs => ⟨(h.regions i).state.trans hs, hused i⟩)
    fun i _ hl => ⟨h.isLarge hl, congrFun hevac i⟩

end Bumped

end RegionSpace

end Art
