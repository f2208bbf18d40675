import Art.RegionSpace.Allocate

/-!
# Bump allocation and thread-local buffers

`Sound` is the invariant of the space together with the allocations that are live in it. It is kept by
bumping the top of a region, by changing the region that is bumped, and by what threads do with their
buffers: each of these changes one region and the pointers to it.
-/

namespace Art

namespace RegionSpace

open Function List Nat

/-- The invariant: the live allocations have their places, and do not share bytes. -/
structure Sound (s : RegionSpace) (l : Layout) (live : List Allocation) : Prop where
  wellFormed : s.WellFormed l
  tlabs : s.TlabsInToSpace
  placed : ∀ a ∈ live, s.Placed l a
  separate : live.Pairwise Allocation.Separate

variable {s s' : RegionSpace} {l l' : Layout} {live : List Allocation} {a b : Allocation}
  {forEvac : Bool} {left k i numBytes obj thread : ℕ}

lemma Takes.sound (h : Takes s s' forEvac left k) (hs : s.Sound l live)
    (hcycle : forEvac = true → s.evacRegion ≠ .null) : s'.Sound (l.take forEvac left k) live where
  wellFormed := h.wellFormed hs.wellFormed hcycle
  tlabs := h.tlabsInToSpace hs.wellFormed.pointers hs.tlabs
  placed := fun a ha => h.placed (hs.placed a ha)
  separate := hs.separate

lemma Bumped.sound (h : Bumped s s') (hs : s.Sound l live) (hp : s'.Pointers l')
    (hevac : l'.evac = l.evac) (hused : ∀ i, l.used i ≤ l'.used i) (ht : s'.TlabsInToSpace) :
    s'.Sound l' live where
  wellFormed := ⟨hevac ▸ h.table hs.wellFormed.table, hp, hevac ▸ h.phase_of hs.wellFormed.phase⟩
  tlabs := ht
  placed := fun a ha => h.placed hused hevac (hs.placed a ha)
  separate := hs.separate

variable (hs : s.Sound l live)

include hs in
/-- A new allocation in what was free or unused. -/
lemma Sound.cons (hs' : s'.Sound l' live) (hp : s'.Placed l' b)
    (hb : ∀ x, b.Covers x → s.stateOf (x / kRegionSize) = .free ∨ (s.stateOf (x / kRegionSize) = .allocated ∧
        x / kRegionSize * kRegionSize + l.used (x / kRegionSize) ≤ x)) : s'.Sound l' (b :: live) where
  wellFormed := hs'.wellFormed
  tlabs := hs'.tlabs
  placed := forall_mem_cons.2 ⟨hp, hs'.placed⟩
  separate := pairwise_cons.2
    ⟨fun a ha => (hs.placed a ha).separate hs.wellFormed.pointers.used_le hb, hs'.separate⟩

/-! ## One region and its pointers -/

namespace Pointers

variable (h : s.Pointers l)
include h

lemma current_ne {j : ℕ} (hj : s.currentRegion = .region j) (ho : l.owner i ≠ .current) : j ≠ i := by
  rintro rfl
  exact ho (h.current j hj).1.owner

lemma evac_ne {j : ℕ} (hj : s.evacRegion = .region j) (ho : l.owner i ≠ .evac) : j ≠ i := by
  rintro rfl
  exact ho (h.evac j hj).1.owner

lemma tlab_ne {t : ℕ} {b : Tlab} (hb : s.tlabs t = some b)
    (ho : l.owner i ≠ .tlab t) : b.start / kRegionSize ≠ i := by
  rintro rfl
  exact ho (h.tlab t b hb).1.owner

lemma leftover_ne {e : ℕ × ℕ} (he : e ∈ s.partialTlabs) (ho : l.owner i ≠ .leftover) : e.2 ≠ i := by
  rintro rfl
  exact ho (h.leftover e he).1.owner

end Pointers

/-- The update of one region within its state and type. -/
lemma Region.Bumped.update (r : Region) (hr : Region.Bumped (s.regions i) r) (j : ℕ) :
    Region.Bumped (s.regions j) (update s.regions i r j) := by
  by_cases hj : j = i
  · subst hj
    rw [update_self]
    exact hr
  · rw [update_of_ne hj]
    exact .refl _

/-- A region in which nothing is buffered, so that its top is where the objects end. -/
structure Bumpable (s : RegionSpace) (l : Layout) (i : ℕ) : Prop where
  lt : i < s.numRegions
  state : s.stateOf i = .allocated
  top : (s.regions i).top = l.used i
  not_tlab : ∀ t, l.owner i ≠ .tlab t
  not_leftover : l.owner i ≠ .leftover

/-- The layout after region `i` was used up to `n`. -/
def Layout.setUsed (l : Layout) (i n : ℕ) : Layout := { l with used := update l.used i n }

/-- The layout after region `i` got the owner `o`. -/
def Layout.setOwner (l : Layout) (i : ℕ) (o : Owner) : Layout := { l with owner := update l.owner i o }

lemma Layout.setUsed_le {n : ℕ} (h : ∀ j, l.used j ≤ kRegionSize) (hn : n ≤ kRegionSize) (j : ℕ) :
    (l.setUsed i n).used j ≤ kRegionSize :=
  (forall_update_iff l.used fun _ n => n ≤ kRegionSize).2 ⟨hn, fun j _ => h j⟩ j

lemma Layout.le_setUsed {n : ℕ} (h : l.used i ≤ n) (j : ℕ) : l.used j ≤ (l.setUsed i n).used j := by
  by_cases hj : j = i
  · subst hj
    exact h.trans_eq (update_self j n l.used).symm
  · exact (update_of_ne hj n l.used).ge

lemma regionAlloc_eq_some (h : s.regionAlloc numBytes (.region i) = some (s', obj)) :
    (s.regions i).top + numBytes ≤ kRegionSize ∧
      s' = s.setRegion i { s.regions i with top := (s.regions i).top + numBytes } ∧
      obj = i * kRegionSize + (s.regions i).top := by
  rw [regionAlloc] at h
  split at h
  · cases h
  · cases h
    exact ⟨not_lt.1 ‹_›, rfl, rfl⟩

lemma regionAlloc_sound (forEvac : Bool) (hs : s.Sound l live) (hi : s.Bumpable l i)
    (h : s.regionAlloc numBytes (.region i) = some (s', obj)) :
    s'.Sound (l.setUsed i ((s.regions i).top + numBytes)) (⟨obj, numBytes, forEvac⟩ :: live) ∧
      s'.Bumpable (l.setUsed i ((s.regions i).top + numBytes)) i ∧ SamePointers s s' ∧
      s'.typeOf i = s.typeOf i := by
  -- all that is used of the new space is how it differs in region `i`
  obtain ⟨hle, hs', rfl⟩ := regionAlloc_eq_some h
  have hp := hs.wellFormed.pointers
  have hbumped : Bumped s s' := hs' ▸
    ⟨rfl, rfl, rfl, rfl, Iff.rfl, Region.Bumped.update _ ⟨rfl, rfl, rfl, absurd hi.state⟩⟩
  have hself : s'.regions i = { s.regions i with top := (s.regions i).top + numBytes } :=
    hs' ▸ update_self _ _ _
  have hother : ∀ j, j ≠ i → s'.regions j = s.regions j := fun j hj => hs' ▸ update_of_ne hj _ _
  have hsame : SamePointers s s' := hs' ▸ ⟨rfl, rfl, rfl, rfl, rfl⟩
  have hused : (l.setUsed i ((s.regions i).top + numBytes)).used i = (s.regions i).top + numBytes :=
    update_self _ _ _
  have htype : s'.typeOf i = s.typeOf i := by rw [typeOf, hself]
  have hstate : s'.stateOf i = s.stateOf i := by rw [stateOf, hself]
  have hpointers : s'.Pointers (l.setUsed i ((s.regions i).top + numBytes)) := by
    refine hp.change (· ≠ i) hsame.numRegions (fun j hj => ⟨hother j hj, rfl, update_of_ne hj _ _⟩)
      (Layout.setUsed_le hp.used_le hle) (fun j hj => ?_) (fun j hj => ?_) (fun t b hb => ?_) (fun e he => ?_)
      (hsame.partialTlabs ▸ hp.nodup)
    · rw [hsame.current] at hj
      by_cases hji : j = i
      · subst hji
        obtain ⟨h1, h2, -⟩ := hp.current j hj
        exact .inr ⟨h1.congr hsame.numRegions hstate rfl, htype.trans h2, by rw [hself, hused]⟩
      · exact .inl ⟨hji, hj⟩
    · rw [hsame.evac] at hj
      by_cases hji : j = i
      · subst hji
        obtain ⟨h1, h2, -⟩ := hp.evac j hj
        exact .inr ⟨h1.congr hsame.numRegions hstate rfl, htype.trans h2, by rw [hself, hused]⟩
      · exact .inl ⟨hji, hj⟩
    · rw [hsame.tlabs] at hb
      exact .inl ⟨hp.tlab_ne hb (hi.not_tlab t), hb⟩
    · rw [hsame.partialTlabs] at he
      exact .inl ⟨hp.leftover_ne he hi.not_leftover, he⟩
  have htlabs : s'.TlabsInToSpace := fun t b hb => by
    rw [hsame.tlabs] at hb
    rw [typeOf, hother _ (hp.tlab_ne hb (hi.not_tlab t))]
    exact hs.tlabs t b hb
  have hmono := Layout.le_setUsed (l := l) (hi.top.symm.trans_le (le_add_right _ numBytes))
  refine ⟨hs.cons (hbumped.sound hs hpointers rfl hmono htlabs) ?_ ?_, ?_, hsame, htype⟩
  · refine .small i (hsame.numRegions ▸ hi.lt) (hstate.trans hi.state) (le_add_right _ _) ?_
    rw [hused]
    exact (add_assoc _ _ _).le
  · rintro x ⟨hx1, hx2⟩
    have hx : x / kRegionSize = i := by
      simp only at hx1 hx2
      rw [kRegionSize] at *
      omega
    rw [hx, ← hi.top]
    exact .inr ⟨hi.state, hx1⟩
  · exact ⟨hsame.numRegions ▸ hi.lt, hstate.trans hi.state, by rw [hself, hused], hi.not_tlab,
      hi.not_leftover⟩

include hs in
lemma setAllocRegion_sound (hi : s.Bumpable l i) (ht : s.typeOf i = .toSpace)
    (hu : s.Unreferenced i) (hcycle : forEvac = true → s.evacRegion ≠ .null) :
    (s.setAllocRegion forEvac i).Sound (l.setOwner i (if forEvac then .evac else .current)) live := by
  have hp := hs.wellFormed.pointers
  have howner : (l.setOwner i (if forEvac then .evac else .current)).owner i =
      if forEvac then .evac else .current := update_self _ _ _
  have hbumped : Bumped s (s.setAllocRegion forEvac i) := by
    cases forEvac with
    | false => exact ⟨rfl, rfl, rfl, rfl, Iff.rfl, fun j => .refl _⟩
    | true => exact ⟨rfl, rfl, rfl, rfl, ⟨nofun, fun h => absurd h (hcycle rfl)⟩, fun j => .refl _⟩
  cases forEvac <;>
    refine hbumped.sound hs (hp.change (· ≠ i) rfl (fun j hj => ⟨rfl, update_of_ne hj _ _, rfl⟩) hp.used_le
      (fun j hj => ?_) (fun j hj => ?_) (fun t b hb => .inl ⟨hu.tlab t b hb, hb⟩)
      (fun e he => .inl ⟨hu.leftover e he, he⟩) hp.nodup) rfl (fun _ => le_rfl) hs.tlabs
  · cases hj
    exact .inr ⟨⟨hi.lt, hi.state, howner⟩, ht, hi.top⟩
  · exact .inl ⟨fun h => hu.evac (h ▸ hj), hj⟩
  · exact .inl ⟨fun h => hu.current (h ▸ hj), hj⟩
  · cases hj
    exact .inr ⟨⟨hi.lt, hi.state, howner⟩, ht, hi.top⟩

/-! ## Allocation -/

/-- The region that is bumped is never one of a buffer. -/
lemma Pointers.bumpable (h : s.Pointers l)
    (hi : (if forEvac then s.evacRegion else s.currentRegion) = .region i) : s.Bumpable l i := by
  obtain ⟨h1, -, h3⟩ : s.Owns l (if forEvac then .evac else .current) i ∧ s.typeOf i = .toSpace ∧
      (s.regions i).top = l.used i := by
    cases forEvac with
    | false => exact h.current i hi
    | true => exact h.evac i hi
  refine ⟨h1.lt, h1.state, h3, fun t => ?_, ?_⟩
  · rw [h1.owner]
    cases forEvac <;> simp
  · rw [h1.owner]
    cases forEvac <;> simp

variable (hcycle : forEvac = true → s.evacRegion ≠ .null)

include hs hcycle in
/-- A fresh region can be bumped, and nothing points to it. -/
lemma allocateRegion_sound (h : s.allocateRegion forEvac = some (s', i)) :
    s'.Sound (l.take forEvac i 1) live ∧ s'.Bumpable (l.take forEvac i 1) i ∧ s'.Unreferenced i ∧
      s'.typeOf i = .toSpace ∧ SamePointers s s' ∧ (l.take forEvac i 1).used i = 0 := by
  obtain ⟨htakes, hstate, htop⟩ := allocateRegion_takes hs.wellFormed.table h
  have hin : i ≤ i ∧ i < i + 1 := ⟨le_rfl, lt_succ_self i⟩
  have hused : (l.take forEvac i 1).used i = 0 := if_pos hin
  have howner : (l.take forEvac i 1).owner i = .nobody := if_pos hin
  refine ⟨htakes.sound hs hcycle, ⟨htakes.numRegions ▸ htakes.le, hstate, htop.trans hused.symm, fun t => ?_, ?_⟩,
    htakes.unreferenced hs.wellFormed.pointers hin.1 hin.2, htakes.type i hin.1 hin.2,
    htakes.toSamePointers, hused⟩
  · rw [howner]
    simp
  · rw [howner]
    simp

include hs hcycle in
/-- The `CHECK` after a fresh region was allocated does not fail. -/
lemma exists_allocNonvirtual (hsize : numBytes ≤ kRegionSize)
    (h : s.allocateRegion forEvac = some (s', i)) : ∃ r, s.allocNonvirtual forEvac numBytes = some r := by
  obtain ⟨-, hb, -, -, -, hused⟩ := allocateRegion_sound hs hcycle h
  have hfit : ¬(s'.regions i).top + numBytes > kRegionSize := by
    rw [hb.top, hused]
    omega
  rw [allocNonvirtual, if_pos hsize]
  split
  · exact ⟨_, rfl⟩
  · rw [h]
    simp only [Option.bind_eq_bind, Option.bind_some, regionAlloc, if_neg hfit]
    exact ⟨_, rfl⟩

include hs hcycle in
lemma allocLarge_sound {size : ℕ} (hlarge : kRegionSize < numBytes)
    (h : s.allocLarge forEvac numBytes = some (s', obj, size)) :
    ∃ l', s'.Sound l' (⟨obj, size, forEvac⟩ :: live) := by
  obtain ⟨left, k, htakes, hl, rfl, rfl⟩ := allocLarge_takes hs.wellFormed.table hlarge h
  have hk := hl.two_le
  refine ⟨_, hs.cons (htakes.sound hs hcycle) (.large left k hl rfl rfl ?_) ?_⟩
  · exact (if_pos ⟨le_rfl, by omega⟩).symm
  · rintro x ⟨hx1, hx2⟩
    refine .inl (htakes.free _ ?_ ?_)
    · simp only at hx1
      rw [kRegionSize] at *
      omega
    · simp only at hx2
      rw [kRegionSize] at *
      omega

include hs hcycle in
lemma allocNonvirtual_sound {size : ℕ} (h : s.allocNonvirtual forEvac numBytes = some (s', obj, size)) :
    ∃ l', s'.Sound l' (⟨obj, size, forEvac⟩ :: live) := by
  rw [allocNonvirtual] at h
  split at h
  · split at h
    · rename_i s1 obj1 halloc
      cases h
      cases hr : if forEvac then s.evacRegion else s.currentRegion with
      | null => rw [hr] at halloc; cases halloc
      | full => rw [hr] at halloc; cases halloc
      | region i =>
        rw [hr] at halloc
        exact ⟨_, (regionAlloc_sound forEvac hs (hs.wellFormed.pointers.bumpable hr) halloc).1⟩
    · obtain ⟨⟨s1, i⟩, h1, h⟩ := Option.bind_eq_some_iff.1 h
      obtain ⟨⟨s2, obj2⟩, h2, h⟩ := Option.bind_eq_some_iff.1 h
      cases h
      obtain ⟨hs1, hb1, hu1, ht1, hsame1, -⟩ := allocateRegion_sound hs hcycle h1
      obtain ⟨hs2, hb2, hsame2, ht2⟩ := regionAlloc_sound forEvac hs1 hb1 h2
      refine ⟨_, setAllocRegion_sound hs2 hb2 (ht2.trans ht1) (hsame2.unreferenced hu1) fun hf => ?_⟩
      rw [hsame2.evac, hsame1.evac]
      exact hcycle hf
  · exact allocLarge_sound hs hcycle (not_le.1 ‹_›) h

/-! ## Thread-local buffers -/

lemma insertPartialTlab_perm (e : ℕ × ℕ) (es : List (ℕ × ℕ)) : (insertPartialTlab e es).Perm (e :: es) := by
  exact perm_middle.trans (takeWhile_append_dropWhile ▸ List.Perm.refl _)

/-- The buffers after that of one thread was set. -/
lemma update_eq_some {f : ℕ → Option Tlab} {t t' : ℕ} {o : Option Tlab} {b : Tlab}
    (h : update f t o t' = some b) : (t' ≠ t ∧ f t' = some b) ∨ (t' = t ∧ o = some b) := by
  by_cases hne : t' = t
  · subst hne
    exact .inr ⟨rfl, (update_self t' o f).symm.trans h⟩
  · exact .inl ⟨hne, (update_of_ne hne o f).symm.trans h⟩

lemma revoke_tlabs (s : RegionSpace) (thread : ℕ) (reuse : Bool) :
    (s.revokeThreadLocalBuffers thread reuse).tlabs = update s.tlabs thread none := by
  rw [revokeThreadLocalBuffers]
  split
  · rename_i h
    rw [← h, update_eq_self]
  · rfl

lemma revoke_bumped (hp : s.Pointers l) (thread : ℕ) (reuse : Bool) :
    Bumped s (s.revokeThreadLocalBuffers thread reuse) := by
  rw [revokeThreadLocalBuffers]
  split
  · exact ⟨rfl, rfl, rfl, rfl, Iff.rfl, fun j => .refl _⟩
  · rename_i b hb
    have hstate := (hp.tlab thread b hb).1.state
    exact ⟨rfl, rfl, rfl, rfl, Iff.rfl, Region.Bumped.update _ ⟨rfl, rfl, rfl, absurd hstate⟩⟩

/-- The rest of a revoked buffer is kept for the next one, or nobody's. -/
lemma revoke_pointers (hp : s.Pointers l) (thread : ℕ) (reuse : Bool)
    (ht : reuse = true → s.TlabsInToSpace) :
    ∃ l', l'.evac = l.evac ∧ l'.used = l.used ∧ (s.revokeThreadLocalBuffers thread reuse).Pointers l' := by
  rw [revokeThreadLocalBuffers]
  split
  · exact ⟨l, rfl, rfl, hp⟩
  rename_i b hb
  obtain ⟨hown, hin⟩ := hp.tlab thread b hb
  generalize hi : b.start / kRegionSize = i at hown hin
  have htlab : ∀ t b', update s.tlabs thread none t = some b' →
      b'.start / kRegionSize ≠ i ∧ s.tlabs t = some b' := by
    intro t b' hb'
    rcases update_eq_some hb' with ⟨hne, hold⟩ | ⟨-, hnone⟩
    · refine ⟨hp.tlab_ne hold ?_, hold⟩
      rw [hown.owner]
      exact fun h => hne (Owner.tlab.inj h).symm
    · cases hnone
  have hcurrent : ∀ j, s.currentRegion = .region j → j ≠ i := fun j hj =>
    hp.current_ne hj (by rw [hown.owner]; simp)
  have hevac : ∀ j, s.evacRegion = .region j → j ≠ i := fun j hj =>
    hp.evac_ne hj (by rw [hown.owner]; simp)
  have hleftover : ∀ e ∈ s.partialTlabs, e.2 ≠ i := fun e he =>
    hp.leftover_ne he (by rw [hown.owner]; simp)
  by_cases hreuse : (reuse && decide (kPartialTlabSize ≤ (i + 1) * kRegionSize - b.pos)) = true
  · refine ⟨l.setOwner i .leftover, rfl, rfl, ?_⟩
    simp only [hreuse, if_true]
    rw [Bool.and_eq_true, decide_eq_true_iff] at hreuse
    refine hp.change (· ≠ i) rfl (fun j hj => ⟨update_of_ne hj _ _, update_of_ne hj _ _, rfl⟩) hp.used_le
      (fun j hj => .inl ⟨hcurrent j hj, hj⟩) (fun j hj => .inl ⟨hevac j hj, hj⟩)
      (fun t b' hb' => .inl (htlab t b' hb')) (fun e he => ?_) ?_
    · rcases mem_cons.1 ((insertPartialTlab_perm _ _).mem_iff.1 he) with rfl | he
      · have hstop := hin.stop
        have hlimit := hin.limit
        have hused := hin.used
        rw [hin.limit_eq] at hlimit
        refine .inr ⟨⟨hown.lt, ?_, update_self _ _ _⟩, ?_, ?_, ?_⟩
        · simp only [stateOf, update_self]
          exact hown.state
        · simp only [typeOf, update_self]
          exact hi ▸ ht hreuse.1 thread b hb
        · have := hreuse.2
          rw [kPartialTlabSize] at this
          omega
        · change l.used i + ((i + 1) * kRegionSize - b.pos) ≤ kRegionSize
          rw [succ_mul] at *
          omega
      · exact .inl ⟨hleftover e he, he⟩
    · refine ((insertPartialTlab_perm _ _).map Prod.snd).nodup_iff.2 ?_
      rw [map_cons, nodup_cons]
      refine ⟨fun hmem => ?_, hp.nodup⟩
      obtain ⟨e, he, heq⟩ := mem_map.1 hmem
      exact hleftover e he heq
  · refine ⟨l, rfl, rfl, ?_⟩
    simp only [hreuse]
    exact hp.change (· ≠ i) rfl (fun j hj => ⟨update_of_ne hj _ _, rfl, rfl⟩) hp.used_le
      (fun j hj => .inl ⟨hcurrent j hj, hj⟩) (fun j hj => .inl ⟨hevac j hj, hj⟩)
      (fun t b' hb' => .inl (htlab t b' hb')) (fun e he => .inl ⟨hleftover e he, he⟩) hp.nodup

include hs in
lemma revoke_sound (thread : ℕ) (reuse : Bool) :
    ∃ l', (s.revokeThreadLocalBuffers thread reuse).Sound l' live := by
  have hp := hs.wellFormed.pointers
  have hb := revoke_bumped hp thread reuse
  obtain ⟨l', hevac, hused, hp'⟩ := revoke_pointers hp thread reuse fun _ => hs.tlabs
  refine ⟨l', hb.sound hs hp' hevac (fun i => (congrFun hused i).ge) fun t b hb' => ?_⟩
  rw [revoke_tlabs] at hb'
  rcases update_eq_some hb' with ⟨-, hold⟩ | ⟨-, hnone⟩
  · rw [typeOf, (hb.regions _).type]
    exact hs.tlabs t b hold
  · cases hnone

include hs in
lemma setTlab_sound {start tlabSize : ℕ} (hlt : i < s.numRegions)
    (hstate : s.stateOf i = .allocated) (htype : s.typeOf i = .toSpace) (hu : s.Unreferenced i)
    (hnone : s.tlabs thread = none) (hused : i * kRegionSize + l.used i ≤ start)
    (hstart : start < (i + 1) * kRegionSize) (hsize : start + tlabSize ≤ (i + 1) * kRegionSize) :
    (s.setTlab thread i start tlabSize).Sound (l.setOwner i (.tlab thread)) live := by
  have hp := hs.wellFormed.pointers
  have hdiv : start / kRegionSize = i := by
    rw [kRegionSize] at *
    omega
  have hbumped : Bumped s (s.setTlab thread i start tlabSize) :=
    ⟨rfl, rfl, rfl, rfl, Iff.rfl, Region.Bumped.update _ ⟨rfl, rfl, rfl, fun hne => absurd hstate hne⟩⟩
  refine hbumped.sound hs ?_ rfl (fun _ => le_rfl) fun t b hb => ?_
  · refine hp.change (· ≠ i) rfl (fun j hj => ⟨update_of_ne hj _ _, update_of_ne hj _ _, rfl⟩) hp.used_le
      (fun j hj => .inl ⟨fun h => hu.current (h ▸ hj), hj⟩)
      (fun j hj => .inl ⟨fun h => hu.evac (h ▸ hj), hj⟩) (fun t b hb => ?_)
      (fun e he => .inl ⟨hu.leftover e he, he⟩) hp.nodup
    rcases update_eq_some hb with ⟨-, hold⟩ | ⟨rfl, hnew⟩
    · exact .inl ⟨hu.tlab t b hold, hold⟩
    · cases hnew
      rw [hdiv]
      refine .inr ⟨⟨hlt, ?_, update_self _ _ _⟩, ?_⟩
      · exact (hbumped.regions i).state.trans hstate
      · exact ⟨hstart, hused, (le_add_right _ _).trans hused, le_rfl, le_add_right _ _, hsize, rfl⟩
  · rw [typeOf, (hbumped.regions _).type]
    rcases update_eq_some hb with ⟨-, hold⟩ | ⟨-, hnew⟩
    · exact hs.tlabs t b hold
    · cases hnew
      exact hdiv ▸ htype

include hs in
/-- The region of the largest partial TLAB is no longer referred to when that is removed. -/
lemma removePartialTlab_sound {e : ℕ × ℕ} {es : List (ℕ × ℕ)} (he : s.partialTlabs = e :: es) :
    ({ s with partialTlabs := es }).Sound l live ∧ ({ s with partialTlabs := es }).Unreferenced e.2 := by
  have hp := hs.wellFormed.pointers
  have hmem : e ∈ s.partialTlabs := he ▸ mem_cons_self
  obtain ⟨hown, -⟩ := hp.leftover e hmem
  have hnodup := hp.nodup
  rw [he, map_cons, nodup_cons] at hnodup
  have hbumped : Bumped s { s with partialTlabs := es } := ⟨rfl, rfl, rfl, rfl, Iff.rfl, fun j => .refl _⟩
  have hu : ({ s with partialTlabs := es }).Unreferenced e.2 := by
    refine ⟨fun hc => ?_, fun hc => ?_, fun t b hb => hp.tlab_ne hb ?_, fun e' he' heq => ?_⟩
    · exact hp.current_ne hc (by rw [hown.owner]; simp) rfl
    · exact hp.evac_ne hc (by rw [hown.owner]; simp) rfl
    · rw [hown.owner]
      simp
    · exact hnodup.1 (heq ▸ mem_map_of_mem he')
  refine ⟨hbumped.sound hs ?_ rfl (fun _ => le_rfl) hs.tlabs, hu⟩
  exact hp.change (· ≠ e.2) rfl (fun _ _ => ⟨rfl, rfl, rfl⟩) hp.used_le
    (fun j hj => .inl ⟨fun h => hu.current (h ▸ hj), hj⟩)
    (fun j hj => .inl ⟨fun h => hu.evac (h ▸ hj), hj⟩) (fun t b hb => .inl ⟨hu.tlab t b hb, hb⟩)
    (fun e' he' => .inl ⟨hu.leftover e' he', he ▸ mem_cons_of_mem _ he'⟩) hnodup.2

include hs in
lemma allocNewTlab_sound {tlabSize : ℕ} (thread : ℕ) (hsize : tlabSize ≤ kRegionSize) :
    ∃ l', (s.allocNewTlab thread tlabSize).1.Sound l' live := by
  simp only [allocNewTlab]
  obtain ⟨l1, hs1⟩ := revoke_sound hs thread true
  have hnone : (s.revokeThreadLocalBuffers thread true).tlabs thread = none := by
    rw [revoke_tlabs, update_self]
  generalize s.revokeThreadLocalBuffers thread true = s1 at *
  split
  · rename_i remaining i hlargest
    rw [largestPartialTlab] at hlargest
    split at hlargest
    · obtain ⟨hhead, hle⟩ := Option.filter_eq_some_iff.1 hlargest
      obtain ⟨es, hes⟩ := head?_eq_some_iff.1 hhead
      have hmem : (remaining, i) ∈ s1.partialTlabs := hes ▸ mem_cons_self
      obtain ⟨hown, htype, hpos, hused⟩ := hs1.wellFormed.pointers.leftover _ hmem
      obtain ⟨hs2, hu⟩ := removePartialTlab_sound hs1 hes
      rw [hes, tail_cons]
      have hle : tlabSize ≤ remaining := of_decide_eq_true hle
      simp only at hused hpos
      refine ⟨_, setTlab_sound hs2 hown.lt hown.state htype hu hnone ?_ ?_ ?_⟩
      · rw [succ_mul]
        omega
      · rw [succ_mul]
        omega
      · rw [succ_mul]
        omega
    · cases hlargest
  · split
    · rename_i s2 i halloc
      obtain ⟨hs2, hb2, hu2, ht2, hsame2, hused2⟩ := allocateRegion_sound hs1 (fun h => Bool.noConfusion h) halloc
      refine ⟨_, setTlab_sound hs2 hb2.lt hb2.state ht2 hu2 ?_ ?_ ?_ ?_⟩
      · rw [hsame2.tlabs]
        exact hnone
      · rw [hused2]
        exact (add_zero _).le
      · rw [kRegionSize]
        omega
      · rw [succ_mul]
        omega
    · exact ⟨l1, hs1⟩

/-- A change of the buffer of a thread within its region. -/
lemma setBuffer_sound {b : Tlab} (b' : Tlab) (n : ℕ) (hs : s.Sound l live) (hb : s.tlabs thread = some b)
    (hstart : b'.start = b.start) (hused : l.used (b.start / kRegionSize) ≤ n)
    (hn : n ≤ kRegionSize)
    (hin : InRegion (l.setUsed (b.start / kRegionSize) n) b' (b.start / kRegionSize)) :
    ({ s with tlabs := update s.tlabs thread (some b') }).Sound
      (l.setUsed (b.start / kRegionSize) n) live := by
  have hp := hs.wellFormed.pointers
  obtain ⟨hown, -⟩ := hp.tlab thread b hb
  generalize hi : b.start / kRegionSize = i at *
  have hbumped : Bumped s { s with tlabs := update s.tlabs thread (some b') } :=
    ⟨rfl, rfl, rfl, rfl, Iff.rfl, fun j => .refl _⟩
  refine hbumped.sound hs ?_ rfl (Layout.le_setUsed hused) fun t c hc => ?_
  · refine hp.change (· ≠ i) rfl (fun j hj => ⟨rfl, rfl, update_of_ne hj _ _⟩) (Layout.setUsed_le hp.used_le hn)
      (fun j hj => .inl ⟨hp.current_ne hj ?_, hj⟩)
      (fun j hj => .inl ⟨hp.evac_ne hj ?_, hj⟩) (fun t c hc => ?_)
      (fun e he => .inl ⟨hp.leftover_ne he ?_, he⟩) hp.nodup
    · rw [hown.owner]
      simp
    · rw [hown.owner]
      simp
    · rcases update_eq_some hc with ⟨hne, hold⟩ | ⟨rfl, hnew⟩
      · refine .inl ⟨hp.tlab_ne hold ?_, hold⟩
        rw [hown.owner]
        exact fun h => hne (Owner.tlab.inj h).symm
      · cases hnew
        rw [hstart, hi]
        exact .inr ⟨⟨hown.lt, hown.state, hown.owner⟩, hin⟩
    · rw [hown.owner]
      simp
  · rcases update_eq_some hc with ⟨-, hold⟩ | ⟨rfl, hnew⟩
    · exact hs.tlabs t c hold
    · cases hnew
      exact hstart ▸ hs.tlabs t b hb

include hs in
lemma allocTlab_sound {bytes : ℕ} (h : s.allocTlab thread bytes = some (s', obj)) :
    ∃ l', s'.Sound l' (⟨obj, bytes, false⟩ :: live) := by
  obtain ⟨b, hb, h⟩ := Option.bind_eq_some_iff.1 h
  split at h
  · rename_i hfit
    cases h
    obtain ⟨hown, hin⟩ := hs.wellFormed.pointers.tlab thread b hb
    generalize hi : b.start / kRegionSize = i at hown hin
    obtain ⟨h1, h2, h3, h4, h5, h6, h7⟩ := hin
    have hself : ∀ n, (l.setUsed i n).used i = n := fun n => update_self _ _ _
    rw [h7, succ_mul] at h6
    have hs' := setBuffer_sound { b with pos := b.pos + bytes }
      (b.pos + bytes - i * kRegionSize) hs hb rfl (by rw [hi]; omega) (by omega) (by
        rw [hi]
        refine ⟨h1, ?_, h3, ?_, ?_, ?_, h7⟩
        · rw [hself]
          simp only
          omega
        · simp only
          omega
        · simp only
          omega
        · rw [h7, succ_mul]
          exact h6)
    rw [hi] at hs'
    refine ⟨_, hs.cons hs' (.small i hown.lt hown.state ?_ ?_) ?_⟩
    · simp only
      omega
    · rw [hself]
      simp only
      omega
    · rintro x ⟨hx1, hx2⟩
      have hx : x / kRegionSize = i := by
        simp only at hx1 hx2
        rw [kRegionSize] at *
        omega
      rw [hx]
      exact .inr ⟨hown.state, h2.trans hx1⟩
  · cases h

include hs in
lemma expandTlab_sound (thread bytes : ℕ) : ∃ l', (s.expandTlab thread bytes).Sound l' live := by
  rw [expandTlab]
  split
  · exact ⟨l, hs⟩
  rename_i b hb
  split
  · rename_i hle
    have hin := (hs.wellFormed.pointers.tlab thread b hb).2
    refine ⟨_, setBuffer_sound _ _ hs hb rfl le_rfl (hs.wellFormed.pointers.used_le _) ?_⟩
    have hself : ∀ i, (l.setUsed i (l.used i)).used i = l.used i := fun i => update_self _ _ _
    exact { hin.congr (hself _) with stop := hin.stop.trans (le_add_right _ _), limit := hle }
  · exact ⟨l, hs⟩

end RegionSpace

end Art
