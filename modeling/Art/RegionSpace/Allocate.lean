import Art.RegionSpace.Moves

/-!
# The operations as moves

`AllocateRegion` and `AllocLarge` take regions and `FreeLarge` releases them; the rest of the allocator only
changes allocated regions and the pointers to them.

* `allocateRegion_takes`, `allocLarge_takes`, `freeLarge_releases`;
* `WellFormed.regionAlloc` and so on, for the other operations.
-/

namespace Art

open Region (cleared)

namespace RegionSpace

open Function

variable {s s' : RegionSpace} {l l' : Layout} {evac : ℕ → Bool} {a : Allocation}
  {forEvac : Bool} {left k i : ℕ}

@[simp] lemma isFree_eq_true : s.isFree i = true ↔ s.stateOf i = .free := decide_eq_true_iff

/-! ## Taking a region -/

lemma Takes.setCyclicIndex (h : Takes s s' forEvac left k) (next : ℕ) :
    Takes s (s'.setCyclicIndex next) forEvac left k :=
  ⟨⟨h.numRegions, h.current, h.evac, h.tlabs, h.partialTlabs⟩, h.pos, h.le, h.free, h.other, h.type,
    h.live, h.whole.imp_right fun hl => ⟨hl.1.of_regions_eq rfl fun _ _ _ => rfl, hl.2⟩, h.nonFree,
    h.evacuation, h.limit⟩

lemma IsLarge.setCyclicIndex (h : s.IsLarge i k) (next : ℕ) : (s.setCyclicIndex next).IsLarge i k :=
  h.of_regions_eq rfl fun _ _ _ => rfl

lemma allocateRegion_takes (ht : s.Table evac) (h : s.allocateRegion forEvac = some (s', i)) :
    Takes s s' forEvac i 1 ∧ s'.stateOf i = .allocated ∧ (s'.regions i).top = 0 := by
  rw [allocateRegion] at h
  split at h
  · cases h
  obtain ⟨j, hfind, heq⟩ := Option.map_eq_some_iff.1 h
  obtain ⟨rfl, rfl⟩ := Prod.ext_iff.1 heq
  have hfree : s.stateOf j = .free := isFree_eq_true.1 (List.find?_some hfind)
  have hlt : j < s.numRegions := by
    obtain ⟨m, hm, rfl⟩ := List.mem_map.1 (List.mem_of_find?_eq_some hfind)
    rw [List.mem_range] at hm
    rw [regionIndex]
    split
    · exact Nat.mod_lt _ (by omega)
    · exact hm
  have hclear := ht.free j hlt hfree
  have hone : ∀ m, j ≤ m → m < j + 1 → m = j := fun m h1 h2 => by omega
  have hnew : (s.unfree forEvac .allocated j).regions j = { cleared with
      state := .allocated, type := .toSpace, isNewlyAllocated := !forEvac } := by
    simp [unfree, hclear, cleared]
  have htakes : Takes s (s.unfree forEvac .allocated j) forEvac j 1 := by
    refine ⟨⟨rfl, rfl, rfl, rfl, rfl⟩, Nat.one_pos, hlt, ?_, ?_, ?_, ?_, .inl ⟨rfl, ?_⟩, ?_, ?_, rfl⟩
    · intro m h1 h2
      rw [hone m h1 h2]
      exact hfree
    · intro m hm
      exact update_of_ne (by omega) _ _
    · intro m h1 h2
      rw [hone m h1 h2, typeOf, hnew]
    · intro m h1 h2
      rw [hone m h1 h2, hnew]
      rfl
    · rw [stateOf, hnew]
    · cases forEvac <;> rfl
    · cases forEvac <;> rfl
  exact ⟨htakes.setCyclicIndex _, congrArg _ hnew, congrArg Region.top hnew⟩

/-! ## Large objects -/

/-- The tail that a free region becomes. -/
def asLargeTail (forEvac : Bool) (r : Region) : Region :=
  { r with state := .largeTail, type := .toSpace, isNewlyAllocated := r.isNewlyAllocated || !forEvac }

/-- The loop over the tails of `AllocLargeInRange`. -/
lemma foldl_unfree (forEvac : Bool) (m : ℕ) (s : RegionSpace) (start : ℕ)
    (h : start ≤ s.nonFreeRegionIndexLimit) :
    let s' := (List.range' start m).foldl (unfree forEvac .largeTail) s
    Changes (asLargeTail forEvac) s s' start (start + m) ∧
      s'.numNonFreeRegions = s.numNonFreeRegions + (if false = forEvac then m else 0) ∧
      s'.numEvacRegions = s.numEvacRegions + (if true = forEvac then m else 0) ∧
      s'.nonFreeRegionIndexLimit = max s.nonFreeRegionIndexLimit (start + m) := by
  induction m with
  | zero => exact ⟨.nil _ s start, by simp, by simp, (max_eq_left h).symm⟩
  | succ m ih =>
    obtain ⟨hchanges, hn, he, hl⟩ := ih
    rw [List.range'_1_concat, List.foldl_append, List.foldl_cons, List.foldl_nil]
    refine ⟨hchanges.snoc (Nat.le_add_right ..) ⟨rfl, rfl, rfl, rfl, rfl⟩ rfl, ?_, ?_, ?_⟩
    · cases forEvac <;> simp [unfree] at hn ⊢ <;> omega
    · cases forEvac <;> simp [unfree] at he ⊢ <;> omega
    · simp only [unfree, hl]
      omega

lemma unfreeHead_regions_of_ne {j : ℕ} (h : j ≠ left) :
    (s.unfreeHead forEvac left k).regions j = s.regions j :=
  (update_of_ne h _ _).trans (update_of_ne h _ _)

lemma unfreeHead_regions (forEvac : Bool) (k : ℕ) (h : s.regions left = cleared) :
    (s.unfreeHead forEvac left k).regions left = { cleared with
      state := .large, type := .toSpace, top := k * kRegionSize, isNewlyAllocated := !forEvac } := by
  simp [unfreeHead, setRegion, unfree, h, cleared]

lemma unfreeHead_nonFree : (s.unfreeHead forEvac left k).numNonFreeRegions =
    s.numNonFreeRegions + if false = forEvac then 1 else 0 := by
  cases forEvac <;> rfl

lemma unfreeHead_evacuation : (s.unfreeHead forEvac left k).numEvacRegions =
    s.numEvacRegions + if true = forEvac then 1 else 0 := by
  cases forEvac <;> rfl

lemma unfreeLarge_takes (forEvac : Bool) (ht : s.Table evac) (hk : 2 ≤ k) (hle : left + k ≤ s.numRegions)
    (hfree : ∀ j, left ≤ j → j < left + k → s.stateOf j = .free) :
    Takes s (s.unfreeLarge forEvac left k) forEvac left k ∧
      (s.unfreeLarge forEvac left k).IsLarge left k := by
  have hclear : ∀ j, left ≤ j → j < left + k → s.regions j = cleared := fun j h1 h2 =>
    ht.free j (by omega) (hfree j h1 h2)
  have hhead := unfreeHead_regions forEvac k (hclear left le_rfl (by omega))
  obtain ⟨⟨hsame', hin, hout⟩, hn, he, hl⟩ := foldl_unfree forEvac (k - 1)
    (s.unfreeHead forEvac left k) (left + 1) (le_max_right _ _)
  change SamePointers _ (s.unfreeLarge forEvac left k) at hsame'
  generalize hs' : s.unfreeLarge forEvac left k = s' at *
  rw [unfreeLarge] at hs'
  rw [hs'] at hin hout hn he hl
  rw [← hout left (by omega)] at hhead
  have htail : ∀ j, left < j → j < left + k → s'.regions j = asLargeTail forEvac cleared :=
    fun j h1 h2 => by rw [hin j h1 (by omega), unfreeHead_regions_of_ne (by omega), hclear j h1.le h2]
  have hnew : s'.IsLarge left k := by
    refine ⟨hk, hle.trans_eq hsame'.numRegions.symm, ?_, ?_, fun j h1 h2 => ?_, fun j h1 h2 => ?_⟩
    · rw [stateOf, hhead]
    · rw [hhead]
    · rw [stateOf, htail j h1 h2]
      rfl
    · rw [typeOf, typeOf, htail j h1 h2, hhead]
      rfl
  refine ⟨⟨⟨hsame'.numRegions, hsame'.current, hsame'.evac, hsame'.tlabs, hsame'.partialTlabs⟩, by omega, hle,
    hfree, fun j hj => ?_, fun j h1 h2 => ?_, fun j h1 h2 => ?_, .inr ⟨hnew, fun j h1 h2 => ?_⟩, ?_, ?_, ?_⟩,
    hnew⟩
  · rw [hout j (by omega), unfreeHead_regions_of_ne (by omega)]
  · rcases h1.eq_or_lt with rfl | hlt
    · rw [typeOf, hhead]
    · rw [typeOf, htail j hlt h2]
      rfl
  · rcases h1.eq_or_lt with rfl | hlt
    · rw [hhead]
      rfl
    · rw [htail j hlt h2]
      rfl
  · rw [htail j h1 h2]
    rfl
  · rw [hn, unfreeHead_nonFree]
    split <;> omega
  · rw [he, unfreeHead_evacuation]
    split <;> omega
  · rw [hl, show (s.unfreeHead forEvac left k).nonFreeRegionIndexLimit = max _ (left + 1) from rfl]
    omega

lemma findFreeRegions_eq_some (hk : 0 < k) (h : s.findFreeRegions k = some left) :
    left + k ≤ s.numRegions ∧ ∀ j, left ≤ j → j < left + k → s.stateOf j = .free := by
  rw [findFreeRegions] at h
  split at h
  · obtain ⟨h1, h2⟩ := RunSearch.findCyclic_eq_some hk h
    exact ⟨h1, fun j hj hj' => isFree_eq_true.1 (h2 j hj hj')⟩
  · obtain ⟨-, h1, h2⟩ := RunSearch.find_eq_some h
    exact ⟨by omega, fun j hj hj' => isFree_eq_true.1 (h2 j hj hj')⟩

lemma exists_findFreeRegions_iff (hk : 0 < k) : (∃ left, s.findFreeRegions k = some left) ↔
      ∃ left, left + k ≤ s.numRegions ∧ ∀ j, left ≤ j → j < left + k → s.stateOf j = .free := by
  have hrun : ∀ left, RunSearch.Run s.isFree k left ↔
      ∀ j, left ≤ j → j < left + k → s.stateOf j = .free := fun left =>
    forall₃_congr fun j _ _ => isFree_eq_true
  rw [findFreeRegions]
  split
  · rw [RunSearch.exists_findCyclic_iff hk]
    simp only [hrun]
  · rw [RunSearch.exists_find_iff hk (Nat.le_add_left _ _)]
    simp [hrun]

lemma two_le_regionsFor {numBytes : ℕ} (h : kRegionSize < numBytes) : 2 ≤ regionsFor numBytes := by
  rw [regionsFor, kRegionSize] at *
  omega

lemma allocLarge_takes {numBytes obj size : ℕ} (ht : s.Table evac) (hlarge : kRegionSize < numBytes)
    (h : s.allocLarge forEvac numBytes = some (s', obj, size)) :
    ∃ left k, Takes s s' forEvac left k ∧ s'.IsLarge left k ∧ obj = left * kRegionSize ∧
      size = k * kRegionSize := by
  simp only [allocLarge] at h
  split at h
  · cases h
  obtain ⟨left, hfind, heq⟩ := Option.map_eq_some_iff.1 h
  cases heq
  have hk := two_le_regionsFor hlarge
  obtain ⟨hle, hfree⟩ := findFreeRegions_eq_some (by omega) hfind
  obtain ⟨htakes, hl⟩ := unfreeLarge_takes forEvac ht hk hle hfree
  exact ⟨left, _, htakes.setCyclicIndex _, hl.setCyclicIndex _, rfl, rfl⟩

/-- A large allocation succeeds if there are enough contiguous free regions and, for a mutator, half of the
    regions are left when those allocated for evacuation are not counted. -/
lemma exists_allocLarge_iff {numBytes : ℕ} (hlarge : kRegionSize < numBytes) :
    (∃ r, s.allocLarge forEvac numBytes = some r) ↔
      (forEvac = false → (s.numNonFreeRegions + regionsFor numBytes) * 2 ≤ s.numRegions) ∧
        ∃ left, left + regionsFor numBytes ≤ s.numRegions ∧
          ∀ j, left ≤ j → j < left + regionsFor numBytes → s.stateOf j = .free := by
  have hk : 0 < regionsFor numBytes := by
    have := two_le_regionsFor hlarge
    omega
  rw [← exists_findFreeRegions_iff hk]
  simp only [allocLarge]
  split
  · rename_i hfull
    refine ⟨fun ⟨r, hr⟩ => Option.noConfusion rfl (heq_of_eq hr), fun ⟨h, _⟩ => ?_⟩
    have := h hfull.1
    omega
  · rename_i hroom
    simp only [Option.map_eq_some_iff]
    constructor
    · rintro ⟨_, left, hleft, -⟩
      refine ⟨fun hf => not_lt.1 fun hlt => hroom ⟨hf, hlt⟩, left, hleft⟩
    · rintro ⟨-, left, hleft⟩
      exact ⟨_, left, hleft, rfl⟩

/-- The loop of `FreeLarge`. -/
lemma foldl_freeRegion (forEvac : Bool) (m : ℕ) (s : RegionSpace) (start : ℕ) :
    let s' := (List.range' start m).foldl (freeRegion forEvac) s
    Changes (fun _ => cleared) s s' start (start + m) ∧
      s'.numNonFreeRegions = s.numNonFreeRegions - (if false = forEvac then m else 0) ∧
      s'.numEvacRegions = s.numEvacRegions - (if true = forEvac then m else 0) ∧
      s'.nonFreeRegionIndexLimit = s.nonFreeRegionIndexLimit := by
  induction m with
  | zero => exact ⟨.nil _ s start, by simp, by simp, rfl⟩
  | succ m ih =>
    obtain ⟨hchanges, hn, he, hl⟩ := ih
    rw [List.range'_1_concat, List.foldl_append, List.foldl_cons, List.foldl_nil]
    refine ⟨hchanges.snoc (Nat.le_add_right ..) ⟨rfl, rfl, rfl, rfl, rfl⟩ rfl, ?_, ?_, hl⟩
    · cases forEvac <;> simp [freeRegion, setRegion] at hn ⊢ <;> omega
    · cases forEvac <;> simp [freeRegion, setRegion] at he ⊢ <;> omega

lemma freeLarge_releases (hl : s.IsLarge i k) :
    Releases s (s.freeLarge forEvac (i * kRegionSize) (k * kRegionSize)) forEvac i k := by
  have hi : i * kRegionSize / kRegionSize = i := Nat.mul_div_cancel i (by decide)
  have hk : regionsFor (i * kRegionSize + k * kRegionSize) - i = k := by
    rw [regionsFor, kRegionSize]
    omega
  obtain ⟨⟨hs, hin, hout⟩, hn, he, hlim⟩ := foldl_freeRegion forEvac k s i
  rw [freeLarge, hi, hk]
  exact ⟨hs, by have := hl.two_le; omega, hl.le, .inr hl, hin, hout, hn, he, hlim⟩

end RegionSpace

end Art
