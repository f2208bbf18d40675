import Art.RegionSpace.Buffers

/-!
# The beginning of a cycle

`SetFromSpace` goes over the regions once, and counts down the tails that it expects after a large head.
Large objects are never evacuated, so all regions of one become unevacuated from-space; each allocated
region becomes from-space or unevacuated from-space.
-/

namespace Art

namespace RegionSpace

variable {s s' : RegionSpace} {l : Layout} {live : List Allocation} {evac : ℕ → Bool} {a : Allocation}

/-! ## Changing the types -/

/-- The spaces have the same states and counters, and the types of large objects agree. -/
structure Retyped (s s' : RegionSpace) : Prop where
  numRegions : s'.numRegions = s.numRegions
  numNonFreeRegions : s'.numNonFreeRegions = s.numNonFreeRegions
  numEvacRegions : s'.numEvacRegions = s.numEvacRegions
  limit : s'.nonFreeRegionIndexLimit = s.nonFreeRegionIndexLimit
  state : ∀ j, s'.stateOf j = s.stateOf j
  top : ∀ j, (s'.regions j).top = (s.regions j).top
  free : ∀ j < s.numRegions, s.stateOf j = .free → s'.regions j = s.regions j
  typed : ∀ j < s.numRegions, s.stateOf j ≠ .free → s'.typeOf j ≠ .none
  uniform : ∀ i k j, s.IsLarge i k → i < j → j < i + k → s'.typeOf j = s'.typeOf i

namespace Retyped

lemma isLarge (h : Retyped s s') {i k : ℕ} (hl : s.IsLarge i k) : s'.IsLarge i k :=
  hl.congr h.numRegions (fun j _ _ => h.state j) (h.top i) fun j => h.uniform i k j hl

lemma table (h : Retyped s s') (ht : s.Table evac) : s'.Table evac :=
  ht.congr h.numRegions ⟨h.numNonFreeRegions, h.numEvacRegions⟩ h.limit h.state h.free h.typed
    (fun j _ => h.top j) fun _ _ => h.isLarge

lemma placed (h : Retyped s s') (ha : s.Placed l a) : s'.Placed l a :=
  ha.mono h.numRegions (fun i _ hs => ⟨(h.state i).trans hs, le_rfl⟩) fun _ _ hl => ⟨h.isLarge hl, rfl⟩

end Retyped

/-! ## The loop of `SetFromSpace` -/

/-- What the loop makes of a region. -/
structure Flipped (r r' : Region) : Prop where
  state : r'.state = r.state
  top : r'.top = r.top
  free : r.state = .free → r' = r
  type : r.state ≠ .free → r'.type = .fromSpace ∨ r'.type = .unevacFromSpace
  from_space : r'.type = .fromSpace → r.state = .allocated ∧ r'.liveBytes = none

/-- The variable fields of the space: all but the regions. -/
structure SameButRegions (s s' : RegionSpace) : Prop where
  numRegions : s'.numRegions = s.numRegions
  numNonFreeRegions : s'.numNonFreeRegions = s.numNonFreeRegions
  numEvacRegions : s'.numEvacRegions = s.numEvacRegions
  limit : s'.nonFreeRegionIndexLimit = s.nonFreeRegionIndexLimit
  tlabs : s'.tlabs = s.tlabs

/-- The invariant of the loop at index `i`: it expects the rest of the tails of the large object that it
    is in. -/
structure FlipInv (s : RegionSpace) (i : ℕ) (f : Flip) : Prop where
  same : SameButRegions s f.space
  leftover : f.space.partialTlabs = []
  done : ∀ j < i, Flipped (s.regions j) (f.space.regions j)
  todo : ∀ j, i ≤ j → f.space.regions j = s.regions j
  tails : (f.numExpectedLargeTails = 0 ∧ ∀ h k, s.IsLarge h k → h < i → h + k ≤ i) ∨
    ∃ h k, s.IsLarge h k ∧ h < i ∧ i < h + k ∧ f.numExpectedLargeTails = h + k - i ∧
      f.prevLargeEvacuated = false

/-- One iteration on a region that is not free. -/
lemma FlipInv.step {i : ℕ} {f : Flip} (h : FlipInv s i f) {evacuate : Bool} (clearLiveBytes : Bool)
    {numExpected : ℕ} {prev : Bool} (hfree : s.stateOf i ≠ .free)
    (hlarge : s.stateOf i ≠ .allocated → evacuate = false)
    (htails : (numExpected = 0 ∧ ∀ h k, s.IsLarge h k → h < i + 1 → h + k ≤ i + 1) ∨
      ∃ h k, s.IsLarge h k ∧ h < i + 1 ∧ i + 1 < h + k ∧ numExpected = h + k - (i + 1) ∧ prev = false) :
    FlipInv s (i + 1) ⟨f.space.setSpaceOf evacuate clearLiveBytes i, numExpected, prev⟩ where
  same := ⟨h.same.numRegions, h.same.numNonFreeRegions, h.same.numEvacRegions, h.same.limit, h.same.tlabs⟩
  leftover := h.leftover
  done := fun j hj => by
    rcases (Nat.lt_succ_iff.1 hj).eq_or_lt with rfl | hlt
    · simp only [setSpaceOf, setRegion, Function.update_self, h.todo j le_rfl]
      cases evacuate with
      | false => exact ⟨rfl, rfl, fun h => absurd h hfree, fun _ => .inr rfl, fun h => by cases h⟩
      | true =>
        refine ⟨rfl, rfl, fun h => absurd h hfree, fun _ => .inl rfl, fun _ => ⟨?_, rfl⟩⟩
        by_contra hne
        cases hlarge hne
    · simp only [setSpaceOf, setRegion, Function.update_of_ne hlt.ne]
      exact h.done j hlt
  todo := fun j hj => by
    simp only [setSpaceOf, setRegion, Function.update_of_ne (Nat.lt_of_succ_le hj).ne']
    exact h.todo j (Nat.le_of_succ_le hj)
  tails := htails

lemma regionsFor_mul (k : ℕ) : regionsFor (k * kRegionSize) = k := by
  rw [regionsFor, kRegionSize]
  omega

lemma setFromSpaceStep_inv (ht : s.Table evac)
    (hidle : ∀ i < s.numRegions, s.stateOf i ≠ .free → s.typeOf i = .toSpace) (evacMode : EvacMode)
    (clearLiveBytes : Bool) {i : ℕ} (hi : i < s.numRegions) {f : Flip} (h : FlipInv s i f) :
    FlipInv s (i + 1) (setFromSpaceStep evacMode clearLiveBytes f i) := by
  have hregion := h.todo i le_rfl
  rw [setFromSpaceStep]
  by_cases hfree : s.stateOf i = .free
  · rw [if_pos (by rw [isFree_eq_true, stateOf, hregion]; exact hfree)]
    refine ⟨h.same, h.leftover, fun j hj => ?_, fun j hj => h.todo j (by omega), ?_⟩
    · rcases (Nat.lt_succ_iff.1 hj).eq_or_lt with rfl | hlt
      · rw [hregion]
        refine ⟨rfl, rfl, fun _ => rfl, fun hne => absurd hfree hne, fun hfrom => ?_⟩
        rw [ht.free j hi hfree] at hfrom
        cases hfrom
      · exact h.done j hlt
    · rcases h.tails with ⟨h0, hall⟩ | ⟨p, k, hl, h1, h2, -⟩
      · refine .inl ⟨h0, fun p k hl hp => ?_⟩
        rcases (Nat.lt_succ_iff.1 hp).eq_or_lt with rfl | hlt
        · exact absurd hfree (hl.state_ne_free le_rfl (by have := hl.two_le; omega))
        · exact (hall p k hl hlt).trans (Nat.le_succ i)
      · exact absurd hfree (hl.state_ne_free h1.le h2)
  rw [if_neg (by rw [isFree_eq_true, stateOf, hregion]; exact hfree)]
  rcases h.tails with ⟨h0, hall⟩ | ⟨p, k, hl, h1, h2, hexp, hprev⟩
  · rw [if_pos h0]
    simp only [hregion]
    by_cases hlarge : s.stateOf i = .large
    · -- A large head: the tails after it are expected.
      have hevac : f.space.shouldBeEvacuated evacMode i = false := by
        rw [shouldBeEvacuated, if_pos (by rw [hregion]; exact hlarge)]
      obtain ⟨k, hk⟩ := ht.large i hi hlarge
      have htwo := hk.two_le
      rw [if_pos ⟨hlarge, hidle i hi hfree⟩]
      refine h.step _ hfree (fun _ => hevac) (.inr ⟨i, k, hk, Nat.lt_succ_self i, by omega, ?_, hevac⟩)
      have hset : (f.space.setSpaceOf (f.space.shouldBeEvacuated evacMode i) clearLiveBytes i).regions i =
          (s.regions i).setAsUnevacFromSpace clearLiveBytes := by
        rw [hevac, ← hregion]
        exact Function.update_self _ _ _
      rw [bytesAllocated, hset]
      simp only [show ((s.regions i).setAsUnevacFromSpace _).state = .large from hlarge]
      rw [show ((s.regions i).setAsUnevacFromSpace _).top = _ from hk.top, regionsFor_mul]
      omega
    · have halloc : s.stateOf i = .allocated := by
        cases hst : s.stateOf i with
        | free => exact absurd hst hfree
        | allocated => rfl
        | large => exact absurd hst hlarge
        | largeTail =>
          obtain ⟨p, k, hl, h1, h2⟩ := ht.tail i hi hst
          have := hall p k hl h1
          omega
      rw [if_neg fun hc => hlarge hc.1]
      refine h.step _ hfree (absurd halloc) (.inl ⟨h0, fun p k hl hp => ?_⟩)
      rcases (Nat.lt_succ_iff.1 hp).eq_or_lt with rfl | hlt
      · exact absurd halloc (hl.state_ne_allocated le_rfl (by have := hl.two_le; omega))
      · exact (hall p k hl hlt).trans (Nat.le_succ i)
  · rw [if_neg (by omega)]
    refine h.step _ hfree (fun _ => hprev) ?_
    rcases lt_or_ge (i + 1) (p + k) with hlt | hge
    · exact .inr ⟨p, k, hl, by omega, hlt, by omega, hprev⟩
    · refine .inl ⟨by omega, fun q m hm hq => ?_⟩
      by_contra hgt
      -- Another object that goes on would have region `i` in common with this one.
      have heq := hl.head_eq hm h1.le h2 (by omega) (by omega)
      subst heq
      have := hl.length_eq hm
      omega

/-! ## `SetFromSpace` -/

lemma Flipped.of_free {r : Region} (h : r = Region.cleared) : Flipped r r := by
  subst h
  exact ⟨rfl, rfl, fun _ => rfl, absurd rfl, nofun⟩

variable (hw : s.WellFormed l) (hidle : s.evacRegion = .null) (evacMode : EvacMode) (clearLiveBytes : Bool)

include hw hidle in
lemma setFromSpace_flipped : SameButRegions s (s.setFromSpace evacMode clearLiveBytes) ∧
      (s.setFromSpace evacMode clearLiveBytes).partialTlabs = [] ∧
      (∀ j < s.numRegions, Flipped (s.regions j) ((s.setFromSpace evacMode clearLiveBytes).regions j)) ∧
      ∀ j, s.numRegions ≤ j → (s.setFromSpace evacMode clearLiveBytes).regions j = s.regions j := by
  have hinit : FlipInv s 0 ⟨{ s with partialTlabs := [] }, 0, false⟩ :=
    ⟨⟨rfl, rfl, rfl, rfl, rfl⟩, rfl, fun j hj => absurd hj (Nat.not_lt_zero j), fun _ _ => rfl,
      .inl ⟨rfl, fun _ _ _ hj => absurd hj (Nat.not_lt_zero _)⟩⟩
  have hfinal := Loop.foldl_range (n := min s.numRegions s.nonFreeRegionIndexLimit)
    (f := setFromSpaceStep evacMode clearLiveBytes) hinit fun i hi f h =>
      setFromSpaceStep_inv hw.table (fun j hj hf => (hw.phase.idle hidle j hj hf).1) evacMode
        clearLiveBytes (lt_of_lt_of_le hi (min_le_left _ _)) h
  obtain ⟨⟨h1, h2, h3, h4, h5⟩, hleftover, hdone, htodo, -⟩ := hfinal
  refine ⟨⟨h1, h2, h3, h4, h5⟩, hleftover, fun j hj => ?_, fun j hj => htodo j ((min_le_left _ _).trans hj)⟩
  by_cases hlt : j < min s.numRegions s.nonFreeRegionIndexLimit
  · exact hdone j hlt
  · -- The regions from the limit on are free.
    have hfree : s.stateOf j = .free := by
      by_contra hne
      have := hw.table.limit j hj hne
      omega
    exact (htodo j (not_lt.1 hlt)).symm ▸ Flipped.of_free (hw.table.free j hj hfree)

include hw hidle in
lemma setFromSpace_retyped : Retyped s (s.setFromSpace evacMode clearLiveBytes) := by
  obtain ⟨hsame, -, hin, hout⟩ := setFromSpace_flipped hw hidle evacMode clearLiveBytes
  have hunevac : ∀ i k j, s.IsLarge i k → i ≤ j → j < i + k →
      (s.setFromSpace evacMode clearLiveBytes).typeOf j = .unevacFromSpace := fun i k j hl h1 h2 => by
    have hj := hin j (lt_of_lt_of_le h2 hl.le)
    rcases hj.type (hl.state_ne_free h1 h2) with hfrom | hunevac
    · exact absurd (hj.from_space hfrom).1 (hl.state_ne_allocated h1 h2)
    · exact hunevac
  refine ⟨hsame.numRegions, hsame.numNonFreeRegions, hsame.numEvacRegions, hsame.limit, fun j => ?_, fun j => ?_,
    fun j hj => (hin j hj).free, fun j hj hf => ?_, fun i k j hl h1 h2 => ?_⟩
  · rcases lt_or_ge j s.numRegions with hj | hj
    · exact (hin j hj).state
    · rw [stateOf, hout j hj]
  · rcases lt_or_ge j s.numRegions with hj | hj
    · exact (hin j hj).top
    · rw [hout j hj]
  · rcases (hin j hj).type hf with h | h
    · rw [typeOf, h]
      simp
    · rw [typeOf, h]
      simp
  · rw [hunevac i k j hl h1.le h2, hunevac i k i hl le_rfl (by omega)]

include hw hidle in
lemma setFromSpace_wellFormed : (s.setFromSpace evacMode clearLiveBytes).WellFormed l := by
  obtain ⟨hsame, hleftover, hin, -⟩ := setFromSpace_flipped hw hidle evacMode clearLiveBytes
  have hre := setFromSpace_retyped hw hidle evacMode clearLiveBytes
  have hp := hw.pointers
  refine ⟨hre.table hw.table, ⟨hp.used_le, fun i hi => RegionRef.noConfusion hi, fun i hi => RegionRef.noConfusion hi,
    fun t b hb => ?_, fun e he => ?_, ?_⟩, ⟨nofun, fun i hi hf _ => ?_,
    fun _ i hi ht => ?_, fun i hi ht => ?_⟩⟩
  · rw [hsame.tlabs] at hb
    obtain ⟨h1, h2⟩ := hp.tlab t b hb
    exact ⟨h1.congr hsame.numRegions (hre.state _) rfl, h2⟩
  · rw [hleftover] at he
    exact absurd he List.not_mem_nil
  · rw [hleftover]
    exact List.nodup_nil
  · exact (hw.phase.idle hidle i (hsame.numRegions ▸ hi) (hre.state i ▸ hf)).2
  · -- Nothing is to-space yet.
    have hi' : i < s.numRegions := hsame.numRegions ▸ hi
    by_cases hf : s.stateOf i = .free
    · rw [(hin i hi').free hf, hw.table.free i hi' hf]
      rfl
    · rcases (hin i hi').type hf with h | h
      · cases h.symm.trans ht
      · cases h.symm.trans ht
  · obtain ⟨h1, h2⟩ := (hin i (hsame.numRegions ▸ hi)).from_space ht
    exact ⟨(hre.state i).trans h1, h2⟩

/-- Revoking the buffers of the threads one after the other. -/
lemma revokeAll_wellFormed (threads : List ℕ) (hw : s.WellFormed l) (hplaced : ∀ a ∈ live, s.Placed l a) :
    ∃ l', (threads.foldl (fun s t => s.revokeThreadLocalBuffers t false) s).WellFormed l' ∧
      (∀ a ∈ live, (threads.foldl (fun s t => s.revokeThreadLocalBuffers t false) s).Placed l' a) ∧
      ∀ t b, (threads.foldl (fun s t => s.revokeThreadLocalBuffers t false) s).tlabs t = some b →
        t ∉ threads ∧ s.tlabs t = some b := by
  induction threads generalizing s l with
  | nil => exact ⟨l, hw, hplaced, fun t b hb => ⟨List.not_mem_nil, hb⟩⟩
  | cons t ts ih =>
    have hb := revoke_bumped hw.pointers t false
    obtain ⟨l1, hevac, hused, hp1⟩ := revoke_pointers hw.pointers t false nofun
    obtain ⟨l2, hw2, hplaced2, htlabs2⟩ := ih ⟨hevac ▸ hb.table hw.table, hp1, hevac ▸ hb.phase_of hw.phase⟩
      fun a ha => hb.placed (fun i => (congrFun hused i).ge) hevac (hplaced a ha)
    refine ⟨l2, hw2, hplaced2, fun t' b hb' => ?_⟩
    obtain ⟨hts, hold⟩ := htlabs2 t' b hb'
    rw [revoke_tlabs] at hold
    rcases update_eq_some hold with ⟨hne, hold⟩ | ⟨-, hnone⟩
    · exact ⟨fun hmem => (List.mem_cons.1 hmem).elim hne hts, hold⟩
    · cases hnone

/-- The flip keeps the invariant, if it reaches every thread that has a buffer. -/
lemma flip_sound (hs : s.Sound l live) (hidle : s.evacRegion = .null) (evacMode : EvacMode)
    (clearLiveBytes : Bool) {threads : List ℕ} (hthreads : ∀ t, s.tlabs t ≠ none → t ∈ threads) :
    ∃ l', (s.flip evacMode clearLiveBytes threads).Sound l' live := by
  have hw := setFromSpace_wellFormed hs.wellFormed hidle evacMode clearLiveBytes
  have hre := setFromSpace_retyped hs.wellFormed hidle evacMode clearLiveBytes
  have hsame := (setFromSpace_flipped hs.wellFormed hidle evacMode clearLiveBytes).1
  obtain ⟨l', hw', hplaced', htlabs'⟩ := revokeAll_wellFormed threads hw
    fun a ha => hre.placed (hs.placed a ha)
  refine ⟨l', hw', fun t b hb => ?_, hplaced', hs.separate⟩
  obtain ⟨hnot, hold⟩ := htlabs' t b hb
  rw [hsame.tlabs] at hold
  exact absurd (hthreads t (by rw [hold]; exact Option.some_ne_none b)) hnot

end RegionSpace

end Art
