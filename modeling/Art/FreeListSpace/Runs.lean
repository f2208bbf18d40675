import Art.FreeListSpace.Free

/-!
# Runs of the free list space

The states that sequences of `Alloc` and `Free` reach, with the objects that are
live in them, and what holds in every one of these.
-/

namespace Art.FreeListSpace

open Block List

/-- The largest size whose page count fits the 32 bits of `prev_free_`. `Alloc` does not check its size, and
    the size that `RoundUp` gives for one near `SIZE_MAX` is zero. -/
def kMaxSize : Nat := (2 ^ 32 - 1) * kAlignment

/-- The space and its live objects, with their sizes, after some allocations and
    deallocations. An allocation may find its key anywhere on the stack. -/
inductive Reachable (begin_ capacity : Nat) : FreeListSpace → List (Nat × Nat) → Prop
  | create : Reachable begin_ capacity (create begin_ capacity) []
  | alloc {s s' : FreeListSpace} {live : List (Nat × Nat)} {temp numBytes obj size : Nat} :
      Reachable begin_ capacity s live → 0 < numBytes → numBytes ≤ kMaxSize →
      s.alloc temp numBytes = (some (obj, size), s') → Reachable begin_ capacity s' ((obj, size) :: live)
  | allocFails {s s' : FreeListSpace} {live : List (Nat × Nat)} {temp numBytes : Nat} :
      Reachable begin_ capacity s live → 0 < numBytes → numBytes ≤ kMaxSize →
      s.alloc temp numBytes = (none, s') → Reachable begin_ capacity s' live
  | free {s s' : FreeListSpace} {live : List (Nat × Nat)} {obj size freed : Nat} :
      Reachable begin_ capacity s live → (obj, size) ∈ live → s.free obj = some (freed, s') →
      Reachable begin_ capacity s' (live.erase (obj, size))

/-- What `Walk` reports of an object. -/
def report (o : Nat × Nat) : List WalkCall := [⟨o.1, o.1 + o.2, o.2⟩, ⟨0, 0, 0⟩]

/-- The space is a coalescing allocator of the live objects. -/
structure Correct (s : FreeListSpace) (live : List (Nat × Nat)) : Prop where
  inside : ∀ o ∈ live, s.begin_ ≤ o.1 ∧ o.1 + o.2 ≤ s.end_
  disjoint : live.Pairwise fun o o' => o.1 + o.2 ≤ o'.1 ∨ o'.1 + o'.2 ≤ o.1
  /-- The chain from the first slot ends where the free region at the end begins. -/
  chain_end : s.getAddressForAllocationInfo s.chain.2 = s.end_ - s.freeEnd
  chain_adjacent : s.chain.1.IsChain fun x y => s.getNextInfo x = y ∧
    ¬ ((s.allocationInfo x).isFree = true ∧ (s.allocationInfo y).isFree = true)
  chain_last : ∀ x ∈ s.chain.1.getLast?, (s.allocationInfo x).isFree = false
  nodup : s.freeBlocks.Nodup
  mem_freeBlocks : ∀ x, x ∈ s.freeBlocks ↔ x ∈ s.chain.1 ∧ (s.allocationInfo x).isFree = false ∧
      ∃ y ∈ s.chain.1, (s.allocationInfo y).isFree = true ∧ s.getNextInfo y = x
  prevFree : ∀ x ∈ s.freeBlocks, ∃ y ∈ s.chain.1, s.getNextInfo y = x ∧ (s.allocationInfo y).isFree = true ∧
      (s.allocationInfo x).getPrevFree = (s.allocationInfo y).alignSize
  /-- No check of `Free` fails. -/
  free_succeeds : ∀ o ∈ live, ∃ s', s.free o.1 = some (o.2, s')
  /-- `Alloc` fails only where every range of its size meets a live object. -/
  alloc_fails : ∀ temp numBytes, 0 < numBytes → numBytes ≤ kMaxSize → (s.alloc temp numBytes).1 = none →
    ∀ a, s.begin_ ≤ a → a + roundUp numBytes ≤ s.end_ → ∃ o ∈ live, a < o.1 + o.2 ∧ o.1 < a + roundUp numBytes
  walk : ∃ objs : List (Nat × Nat), objs.Perm live ∧ objs.Pairwise (fun o o' => o.1 < o'.1) ∧
    s.walk = some (objs.flatMap report)
  numBytes : s.numBytesAllocated = (live.map Prod.snd).sum
  all_free : live = [] → s.freeEnd = s.end_ - s.begin_

variable {s s' : FreeListSpace} {bs : List Block} {live : List (Nat × Nat)}

/-! ## The chain -/

lemma follow_eq {a p fuel : Nat} (h : Describes s.allocationInfo a p bs)
    (hpos : ∀ b ∈ bs, 0 < b.size) (hfuel : total bs ≤ fuel) :
    s.follow (a + total bs) fuel a = (starts a bs, a + total bs) := by
  induction bs generalizing a p fuel with
  | nil => cases fuel <;> simp [follow, starts]
  | cons b bs ih =>
    have hb := hpos b (by simp)
    rw [total_cons] at hfuel ⊢
    obtain ⟨fuel, rfl⟩ : ∃ f, fuel = f + 1 := ⟨fuel - 1, by omega⟩
    have hrest := ih h.2 (fun c hc => hpos c (by simp [hc])) (show total bs ≤ fuel by omega)
    rw [follow, if_pos (by omega), getNextInfo, h.1.size, ← add_assoc, hrest]
    rfl

lemma Layout.chain_eq (h : s.Layout bs) : s.chain = (starts 0 bs, total bs) := by
  have hfollow := follow_eq h.infos (fun b hb => h.coalesced.pos hb) (le_refl _)
  rw [zero_add] at hfollow
  rwa [chain, h.endInfo_eq]

variable {a p : Nat}

lemma isChain_starts (h : Describes s.allocationInfo a p bs) (hc : Coalesced bs) :
    (starts a bs).IsChain fun x y => s.getNextInfo x = y ∧
      ¬ ((s.allocationInfo x).isFree = true ∧ (s.allocationInfo y).isFree = true) := by
  induction bs generalizing a p with
  | nil => exact List.IsChain.nil
  | cons b bs ih =>
    cases bs with
    | nil => exact List.IsChain.singleton a
    | cons c bs =>
      refine isChain_cons_cons.2 ⟨⟨?_, ?_⟩, ih h.2 hc.tail⟩
      · rw [getNextInfo, h.1.size]
      · rw [h.1.free, h.2.1.free]
        rintro ⟨hb, hc'⟩
        simp [hc.2.1 hb] at hc'

lemma getLast_starts (h : Describes s.allocationInfo a p bs) (hc : Coalesced bs) :
    ∀ x ∈ (starts a bs).getLast?, (s.allocationInfo x).isFree = false := by
  induction bs generalizing a p with
  | nil => simp [starts]
  | cons b bs ih =>
    cases bs with
    | nil =>
      intro x hx
      obtain rfl : a = x := by simpa [starts] using hx
      rw [h.1.free]
      exact hc.2
    | cons c bs =>
      have hlast := ih h.2 hc.tail
      rwa [starts, starts, ← starts]

/-- The address and the size in bytes of an allocated block. -/
def object (s : FreeListSpace) (x : Nat × Nat) : Nat × Nat := (s.begin_ + x.1 * kAlignment, x.2 * kAlignment)

lemma object_congr {s s' : FreeListSpace} (h : s'.begin_ = s.begin_) : s'.object = s.object := by
  funext x
  rw [object, object, h]

lemma pairwise_object (s : FreeListSpace) (bs : List Block) :
    ((allocated 0 bs).map s.object).Pairwise fun o o' => o.1 + o.2 ≤ o'.1 := by
  refine pairwise_map.2 ((pairwise_allocated 0 bs).imp fun {x y} hxy => ?_)
  have hle := Nat.mul_le_mul_right kAlignment hxy
  simp only [object, add_mul] at hle ⊢
  omega

lemma sum_map_object (s : FreeListSpace) (l : List (Nat × Nat)) :
    ((l.map s.object).map Prod.snd).sum = (l.map Prod.snd).sum * kAlignment := by
  induction l with
  | nil => rfl
  | cons x l ih => simp only [map_cons, sum_cons, ih, object, add_mul]

lemma flatMap_visit (h : Describes s.allocationInfo a p bs) :
    (starts a bs).flatMap s.visit = ((allocated a bs).map s.object).flatMap report := by
  induction bs generalizing a p with
  | nil => rfl
  | cons b bs ih =>
    rw [starts, allocated, flatMap_cons, map_append, ih h.2, visit,
      h.1.free, AllocationInfo.byteSize, h.1.size]
    cases b.free <;> rfl

lemma roundUp_eq {numBytes : Nat} (hpos : 0 < numBytes) (hmax : numBytes ≤ kMaxSize) :
    ∃ k, roundUp numBytes = k * kAlignment ∧ 0 < k ∧ k < 2 ^ 32 := by
  refine ⟨_, rfl, ?_, ?_⟩ <;>
    simp only [kMaxSize, kAlignment] at hmax ⊢ <;> omega

/-! ## Correctness -/

namespace Layout

variable (h : s.Layout bs) (hlive : live.Perm ((allocated 0 bs).map s.object))

include h

lemma object_bounds {x : Nat × Nat} (hx : x ∈ allocated 0 bs) :
    s.begin_ ≤ (s.object x).1 ∧ (s.object x).1 + (s.object x).2 ≤ s.end_ := by
  have hend := h.freeEnd
  have hle := Nat.mul_le_mul_right kAlignment (allocated_bounds hx).2
  simp only [object, add_mul, zero_add] at hle ⊢
  omega

lemma size_pos {x : Nat × Nat} (hx : x ∈ allocated 0 bs) : 0 < x.2 := by
  obtain ⟨pre, post, rfl, -⟩ := exists_of_mem_allocated hx
  exact h.coalesced.pos (b := ⟨x.2, false⟩) (by simp)

lemma walk_eq : s.walk = some (((allocated 0 bs).map s.object).flatMap report) := by
  rw [walk, h.chain_eq]
  dsimp only
  rw [if_pos h.endInfo_eq.symm, flatMap_visit h.infos]

/-- A member of the set, with the free block before it. -/
lemma exists_prev {x : Nat} (hx : x ∈ s.freeBlocks) :
    x ∈ starts 0 bs ∧ (s.allocationInfo x).isFree = false ∧
      ∃ y ∈ starts 0 bs, s.getNextInfo y = x ∧ (s.allocationInfo y).isFree = true ∧
        (s.allocationInfo x).getPrevFree = (s.allocationInfo y).alignSize := by
  obtain ⟨pre, f, m, post, rfl, rfl, -⟩ := h.exists_block hx
  have hat := h.atFree
  refine ⟨mem_starts.2 ⟨pre ++ [⟨f, true⟩], ⟨m, false⟩, post, by simp, by simp⟩, hat.next.free,
    total pre, mem_starts.2 ⟨pre, ⟨f, true⟩, ⟨m, false⟩ :: post, by simp, by simp⟩, ?_, hat.free.free, ?_⟩
  · rw [getNextInfo, hat.free.size]
  · rw [hat.next.prevFree, hat.free.size]

/-- What follows a free block is in the set. -/
lemma mem_of_isFree {y : Nat} (hy : y ∈ starts 0 bs)
    (hfree : (s.allocationInfo y).isFree = true) : s.getNextInfo y ∈ s.freeBlocks := by
  obtain ⟨pre, ⟨f, free⟩, post, rfl, rfl⟩ := mem_starts.1 hy
  obtain ⟨-, hinfo, -⟩ := describes_append.1 h.infos
  have hf : free = true := by rw [← hfree, hinfo.free]
  subst hf
  obtain ⟨m, post, rfl⟩ := h.coalesced.right.exists_next rfl
  have hlayout : s.Layout (pre ++ [⟨f, true⟩, ⟨m, false⟩] ++ post) := by simpa using h
  rw [getNextInfo, hinfo.size, hlayout.mem_freeBlocks, marked_append, marked_append, zero_add,
    hlayout.atFree.marked_eq]
  simp

include hlive

lemma alloc_fails {temp numBytes a : Nat} (hpos : 0 < numBytes) (hmax : numBytes ≤ kMaxSize)
    (hnone : (s.alloc temp numBytes).1 = none) (ha : s.begin_ ≤ a)
    (hend : a + roundUp numBytes ≤ s.end_) : ∃ o ∈ live, a < o.1 + o.2 ∧ o.1 < a + roundUp numBytes := by
  obtain ⟨k, hround, hk, hk32⟩ := roundUp_eq hpos hmax
  rcases h.alloc_spec temp hround hk hk32 with ⟨-, hfree, hfreeEnd⟩ | ⟨x, s', bs', halloc, -⟩
  · have hlong : ∀ b ∈ bs, b.free = true → b.size * kAlignment < k * kAlignment := fun b hb hbf =>
      Nat.mul_lt_mul_of_pos_right (hfree b hb hbf) (by decide)
    rw [hround] at hend ⊢
    have hrange : a + k * kAlignment ≤ s.begin_ + (0 + total bs) * kAlignment + s.freeEnd := by
      rw [zero_add, h.freeEnd]
      exact hend
    obtain ⟨x, hx, hover⟩ := h.coalesced.exists_overlap hlong hfreeEnd
      (by rwa [zero_mul, add_zero]) hrange
    refine ⟨s.object x, hlive.mem_iff.2 (mem_map_of_mem hx), ?_⟩
    rw [add_mul, ← add_assoc] at hover
    exact hover
  · rw [halloc] at hnone
    simp at hnone

lemma correct : s.Correct live where
  inside o ho := by
    obtain ⟨x, hx, rfl⟩ := mem_map.1 (hlive.mem_iff.1 ho)
    exact h.object_bounds hx
  disjoint := by
    refine (hlive.pairwise_iff fun hxy => hxy.symm).2 ((pairwise_object s bs).imp .inl)
  chain_end := by
    rw [h.chain_eq]
    exact h.freeEndStart_eq.symm
  chain_adjacent := by
    rw [h.chain_eq]
    exact isChain_starts h.infos h.coalesced
  chain_last := by
    rw [h.chain_eq]
    exact getLast_starts h.infos h.coalesced
  nodup := s.isStrict_less.nodup h.sorted
  mem_freeBlocks x := by
    rw [h.chain_eq]
    constructor
    · intro hx
      obtain ⟨hstart, hfree, y, hy, hnext, hyfree, -⟩ := h.exists_prev hx
      exact ⟨hstart, hfree, y, hy, hyfree, hnext⟩
    · rintro ⟨-, -, y, hy, hfree, rfl⟩
      exact h.mem_of_isFree hy hfree
  prevFree x hx := by
    rw [h.chain_eq]
    exact (h.exists_prev hx).2.2
  free_succeeds o ho := by
    obtain ⟨⟨a, m⟩, hx, rfl⟩ := mem_map.1 (hlive.mem_iff.1 ho)
    obtain ⟨s', -, hfree, -⟩ := h.free_spec hx
    exact ⟨s', hfree⟩
  alloc_fails _ _ hpos hmax hnone _ ha hend := h.alloc_fails hlive hpos hmax hnone ha hend
  walk := by
    refine ⟨_, hlive.symm, ?_, h.walk_eq⟩
    refine (pairwise_object s bs).imp_of_mem fun {o o'} ho _ hle => ?_
    obtain ⟨x, hx, rfl⟩ := mem_map.1 ho
    have : 0 < (s.object x).2 := Nat.mul_pos (h.size_pos hx) (by decide)
    omega
  numBytes := by rw [(hlive.map Prod.snd).sum_nat, sum_map_object, h.numBytes]
  all_free hnil := by
    have hmap : (allocated 0 bs).map s.object = [] := by
      rw [hnil] at hlive
      exact nil_perm.1 hlive
    have hbs := h.coalesced.eq_nil (map_eq_nil_iff.1 hmap)
    have hend := h.freeEnd
    rw [hbs, total_nil, zero_mul] at hend
    omega

end Layout

/-- Every reachable space is laid out as blocks, the allocated ones being the live objects. -/
lemma Reachable.exists_layout {begin_ capacity : Nat} (hcapacity : capacity ≤ 2 ^ 32)
    (h : Reachable begin_ capacity s live) :
    ∃ bs, s.Layout bs ∧ live.Perm ((allocated 0 bs).map s.object) := by
  induction h with
  | create => exact ⟨[], layout_create hcapacity, List.Perm.nil⟩
  | @alloc s s' live temp numBytes obj size _ hpos hmax halloc ih =>
    obtain ⟨bs, hlayout, hlive⟩ := ih
    obtain ⟨k, hround, hk, hk32⟩ := roundUp_eq hpos hmax
    rcases hlayout.alloc_spec temp hround hk hk32 with ⟨hnone, -⟩ |
      ⟨a, s1, bs', hsome, hbegin, -, hlayout', hperm⟩
    · simp [hnone] at halloc
    · rw [hsome, Prod.mk.injEq, Option.some.injEq] at halloc
      obtain ⟨⟨rfl, rfl⟩, rfl⟩ := halloc
      refine ⟨bs', hlayout', ?_⟩
      rw [object_congr hbegin]
      exact (hlive.cons _).trans (hperm.map s.object).symm
  | @allocFails s s' live temp numBytes _ hpos hmax halloc ih =>
    obtain ⟨bs, hlayout, hlive⟩ := ih
    obtain ⟨k, hround, hk, hk32⟩ := roundUp_eq hpos hmax
    rcases hlayout.alloc_spec temp hround hk hk32 with ⟨hnone, -⟩ | ⟨a, s1, bs', hsome, -⟩
    · obtain rfl : s = s' := by simpa [hnone] using halloc
      exact ⟨bs, hlayout, hlive⟩
    · simp [hsome] at halloc
  | @free s s' live obj size freed _ hobj hfree ih =>
    obtain ⟨bs, hlayout, hlive⟩ := ih
    obtain ⟨⟨a, m⟩, ha, heq⟩ := mem_map.1 (hlive.mem_iff.1 hobj)
    cases heq
    obtain ⟨s1, bs', hsome, hbegin, -, hlayout', hperm⟩ := hlayout.free_spec ha
    obtain ⟨-, rfl⟩ := Prod.mk.inj (Option.some.inj (hsome.symm.trans hfree))
    refine ⟨bs', hlayout', ?_⟩
    have herase := (hlive.trans (hperm.map s.object)).erase (s.object (a, m))
    rw [map_cons, erase_cons_head] at herase
    rw [object_congr hbegin]
    exact herase

/-- In every state that allocations and deallocations reach, the space is a coalescing allocator of the
    live objects. The mapping is below 4 GiB, since `Create` asks for it there. -/
theorem correct_of_reachable {begin_ capacity : Nat} (hcapacity : capacity ≤ 2 ^ 32)
    (h : Reachable begin_ capacity s live) : s.Correct live := by
  obtain ⟨bs, hlayout, hlive⟩ := h.exists_layout hcapacity
  exact hlayout.correct hlive

/-- Two pages for an object of 5000 bytes in a space of eight. -/
theorem correct_of_reachable_twoPages : ((create 4096 32768).alloc 0 5000).2.Correct [(4096, 8192)] := by
  have halloc : (create 4096 32768).alloc 0 5000 =
      (some (4096, 8192), ((create 4096 32768).alloc 0 5000).2) := Prod.ext (by decide) rfl
  have hreach := Reachable.create.alloc (by decide) (by decide) halloc
  exact correct_of_reachable (by decide) hreach

/-- `Alloc(SIZE_MAX)` returns an object of no bytes: the next object is at the same address, and a check of
    `Free` fails. -/
theorem alloc_wrapsAround :
    let s := create 4096 32768
    (s.alloc 0 (2 ^ 64 - 1)).1 = some (4096, 0) ∧
      ((s.alloc 0 (2 ^ 64 - 1)).2.alloc 0 1).1 = some (4096, 4096) ∧ (s.alloc 0 (2 ^ 64 - 1)).2.free 4096 = none := by
  decide

/-- The chain of two spaces over the same addresses, what the side table says of it, the set of free blocks and
    the free end depend on the live objects only, not on the calls that have led to them. -/
theorem Reachable.eq_of_perm {live' : List (Nat × Nat)} {begin_ capacity begin' capacity' : Nat}
    (hcapacity : capacity ≤ 2 ^ 32) (h : Reachable begin_ capacity s live) (hcapacity' : capacity' ≤ 2 ^ 32)
    (h' : Reachable begin' capacity' s' live') (hbegin : s'.begin_ = s.begin_) (hend : s'.end_ = s.end_)
    (hperm : live.Perm live') : s.chain = s'.chain ∧ s.freeEnd = s'.freeEnd ∧
      (∀ x ∈ s.chain.1, ∃ p b, (s.allocationInfo x).Is p b ∧ (s'.allocationInfo x).Is p b) ∧
      ∀ x, x ∈ s.freeBlocks ↔ x ∈ s'.freeBlocks := by
  obtain ⟨bs, hl, hlive⟩ := h.exists_layout hcapacity
  obtain ⟨bs', hl', hlive'⟩ := h'.exists_layout hcapacity'
  have hsorted := pairwise_object s' bs'
  rw [object_congr hbegin] at hlive' hsorted
  have hmap := (hlive.symm.trans (hperm.trans hlive')).eq_of_pairwise
    (fun o o' _ _ h1 h2 => Prod.ext (by omega) (by omega)) (pairwise_object s bs) hsorted
  have hinj : Function.Injective s.object := fun x y hxy => by
    simpa [object, kAlignment, Prod.ext_iff] using hxy
  -- no two free blocks are adjacent, so that the allocated blocks say where the free ones are
  obtain rfl := hl.coalesced.eq_of_allocated hl'.coalesced (map_injective_iff.2 hinj hmap)
  have hfree := hl.freeEnd
  have hfree' := hl'.freeEnd
  refine ⟨hl.chain_eq.trans hl'.chain_eq.symm, by omega, fun x hx => ?_, fun x =>
    (hl.mem_freeBlocks x).trans (hl'.mem_freeBlocks x).symm⟩
  rw [hl.chain_eq] at hx
  obtain ⟨pre, b, post, rfl, rfl⟩ := mem_starts.1 hx
  exact ⟨_, b, (describes_append.1 hl.infos).2.1, (describes_append.1 hl'.infos).2.1⟩

/-- Where the key stands on the stack is of no account. -/
theorem eq_of_perm_key :
    ((create 4096 32768).alloc 0 5000).2.chain = ((create 4096 32768).alloc 7 5000).2.chain := by
  have h0 : (create 4096 32768).alloc 0 5000 = (some (4096, 8192), _) := Prod.ext (by decide) rfl
  have h7 : (create 4096 32768).alloc 7 5000 = (some (4096, 8192), _) := Prod.ext (by decide) rfl
  exact (Reachable.eq_of_perm (by decide) (.alloc .create (by decide) (by decide) h0) (by decide)
    (.alloc .create (by decide) (by decide) h7) (by decide) (by decide) (.refl _)).1

end Art.FreeListSpace
