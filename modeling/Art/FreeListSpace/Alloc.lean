import Art.FreeListSpace.Layout

/-!
# Allocation on the layout

What `Alloc` does to the list of blocks of a space.
-/

namespace Art.FreeListSpace

open Block List OrderedSet
open AllocationInfo (is_setByteSize zero)

variable {s s' : FreeListSpace} {bs pre mid mid' post : List Block} {k : Nat}
  (h : s.Layout (pre ++ mid ++ post))

include h in
/-- A space that differs from a laid out one in the infos of some blocks and in
    the entries of the set for these. -/
lemma Layout.replace (htotal : total mid' = total mid)
    (hfree : freeBefore 0 (pre ++ mid') = freeBefore 0 (pre ++ mid))
    (hinfos : ∀ x, x < total pre ∨ total pre + total mid ≤ x → s'.allocationInfo x = s.allocationInfo x)
    (hmid : Describes s'.allocationInfo (total pre) (freeBefore 0 pre) mid')
    (hcoalesced : Coalesced (pre ++ mid' ++ post))
    (hends : s'.begin_ = s.begin_ ∧ s'.end_ = s.end_ ∧ s'.freeEnd = s.freeEnd)
    (hsorted : s'.freeBlocks.Pairwise (s'.less · ·)) (hmem : ∀ x, x ∈ s'.freeBlocks ↔
      (x ∈ s.freeBlocks ∧ x ∉ marked (total pre) (freeBefore 0 pre) mid) ∨
        x ∈ marked (total pre) (freeBefore 0 pre) mid') (hnum : s'.numBytesAllocated =
      ((allocated 0 (pre ++ mid' ++ post)).map Prod.snd).sum * kAlignment) :
    s'.Layout (pre ++ mid' ++ post) where
  infos := h.describes_replace htotal hfree hinfos hmid
  coalesced := hcoalesced
  freeEnd := by
    have := h.freeEnd
    simp only [total_append] at this ⊢
    rw [hends.1, hends.2.1, hends.2.2, htotal]
    exact this
  bounded := by rw [hends.1, hends.2.1]; exact h.bounded
  sorted := hsorted
  mem_freeBlocks x := by
    have hpos : ∀ b ∈ pre ++ mid, 0 < b.size := fun b hb =>
      h.coalesced.pos (mem_append_left _ hb)
    rw [hmem, h.mem_freeBlocks, mem_marked_replace hpos htotal hfree]
  numBytes := hnum

include h in
/-- A member of the set is outside some blocks of the layout unless it is one of
    those marked among them. -/
lemma Layout.mem_cases {y : Nat} (hy : y ∈ s.freeBlocks)
    (hmid : y ∉ marked (total pre) (freeBefore 0 pre) mid) : y < total pre ∨ total pre + total mid ≤ y := by
  rw [h.mem_freeBlocks, marked_append, marked_append, mem_append, mem_append,
    zero_add, zero_add, total_append] at hy
  rcases hy with (hy | hy) | hy
  · have := lt_of_mem_marked (fun b hb => h.coalesced.pos (mem_append_left _ (mem_append_left _ hb))) hy
    exact .inl (by omega)
  · exact absurd hy hmid
  · exact .inr (le_of_mem_marked hy)

variable {l : List Nat} (hl : l.Sublist s.freeBlocks)
  (hout : ∀ y ∈ l, y ∉ marked (total pre) (freeBefore 0 pre) mid)
  (hinfos : ∀ y, y < total pre ∨ total pre + total mid ≤ y → s'.allocationInfo y = s.allocationInfo y)

include h hl hout hinfos in
/-- What remains of the set when the marked blocks among `mid` are erased is
    still in order after the infos of `mid` were written. -/
lemma Layout.pairwise_outside : l.Pairwise (s'.less · ·) :=
  pairwise_less_congr (h.sorted.sublist hl) fun y hy =>
    hinfos y (h.mem_cases (hl.subset hy) (hout y hy))

variable {x : Nat}

include h hl hout hinfos in
/-- And so it is with one of the blocks put in, ordered by the infos as they stand then. -/
lemma Layout.pairwise_insert {t : FreeListSpace} (hinfos' : ∀ y, y < total pre ∨ total pre + total mid ≤ y →
      t.allocationInfo y = s'.allocationInfo y) (hx : t.allocationInfo x = s'.allocationInfo x) :
    (insert s'.less x l).Pairwise (t.less · ·) := by
  refine pairwise_less_congr (s'.isStrict_less.pairwise_insert (h.pairwise_outside hl hout hinfos)) ?_
  intro y hy
  rcases s'.isStrict_less.mem_insert.1 hy with rfl | hy
  · exact hx
  · exact hinfos' y (h.mem_cases (hl.subset hy) (hout y hy))

/-! ## Allocation -/

variable {f : Nat}

lemma subSize_pages (hk : k ≤ f) (hf : f ≤ 2 ^ 20) :
    subSize (f * kAlignment) (k * kAlignment) = (f - k) * kAlignment := by
  rw [subSize, Nat.sub_mul]
  simp only [kAlignment]
  omega

/-- The key `Alloc` looks up. -/
def tempInfo (allocationSize : Nat) : AllocationInfo :=
  (zero.setPrevFreeBytes allocationSize).setByteSize 0 false

/-- A free block is below the key when it is too short. -/
lemma sortByPrevFree_tempInfo {info : AllocationInfo} (x temp : Nat) (hk : k < 2 ^ 32)
    (hsize : 0 < info.alignSize) :
    sortByPrevFree (info, x) (tempInfo (k * kAlignment), temp) = true ↔ info.getPrevFree < k := by
  have hprev : (tempInfo (k * kAlignment)).getPrevFree = k := by
    rw [tempInfo, AllocationInfo.getPrevFree_setByteSize]
    exact AllocationInfo.getPrevFree_setPrevFreeBytes _ hk
  have halign : (tempInfo (k * kAlignment)).alignSize = 0 :=
    AllocationInfo.alignSize_setByteSize _ (n := 0) (by decide) false
  rw [sortByPrevFree_iff, hprev, halign]
  dsimp only
  omega

/-- The room taken from the front of the free block before `info`. -/
def takeFront (s : FreeListSpace) (info f k : Nat) : FreeListSpace :=
  let s' := s.modifyInfo info (·.setPrevFreeBytes ((f - k) * kAlignment))
  if k < f then
    (s'.modifyInfo (info - (f - k)) fun i =>
      (i.setPrevFreeBytes 0).setByteSize ((f - k) * kAlignment) true).insertFreeBlock info
  else s'

variable {temp : Nat}

lemma findRoom_of_lowerBound {rest : List Nat} (hk : k ≤ f) (hf : f ≤ 2 ^ 20)
    (hprev : (s.allocationInfo x).getPrevFree = f) (h : lowerBound
      (fun i => sortByPrevFree (s.allocationInfo i, i) (tempInfo (k * kAlignment), temp))
      s.freeBlocks = x :: rest) : s.findRoom temp (k * kAlignment) = some (x - f, takeFront { s with
        freeBlocks := eraseAt
          (fun i => sortByPrevFree (s.allocationInfo i, i) (tempInfo (k * kAlignment), temp))
          s.freeBlocks } x f k) := by
  have hnew : ((s.allocationInfo x).setPrevFreeBytes ((f - k) * kAlignment)).getPrevFree = f - k :=
    AllocationInfo.getPrevFree_setPrevFreeBytes _ (by omega)
  rw [findRoom]
  rw [← tempInfo, h]
  simp only [hprev, subSize_pages hk hf, info_modifyInfo, if_true,
    AllocationInfo.getPrevFreeBytes, hnew, takeFront]
  by_cases hlt : k < f
  · have : 0 < (f - k) * kAlignment := Nat.mul_pos (by omega) (by decide)
    rw [if_pos this, if_pos hlt]
  · have : ¬ 0 < (f - k) * kAlignment := by simp [show f - k = 0 by omega]
    rw [if_neg this, if_neg hlt]

/-- The space after the room at `newInfo` became an object of `k` pages. -/
def place (s : FreeListSpace) (newInfo k : Nat) : FreeListSpace :=
  ({ s with
      numObjectsAllocated := (s.numObjectsAllocated + 1) % 2 ^ 64
      totalObjectsAllocated := (s.totalObjectsAllocated + 1) % 2 ^ 64
      numBytesAllocated := (s.numBytesAllocated + k * kAlignment) % 2 ^ 64
      totalBytesAllocated := (s.totalBytesAllocated + k * kAlignment) % 2 ^ 64 }).modifyInfo
    newInfo fun i => (i.setPrevFreeBytes 0).setByteSize (k * kAlignment) false

/-- The object fits into the count of bytes. -/
lemma Layout.numBytes_place (h : s.Layout bs) (hk : k ≤ 2 ^ 20) :
    (s.numBytesAllocated + k * kAlignment) % 2 ^ 64 =
      (((allocated 0 bs).map Prod.snd).sum + k) * kAlignment := by
  have hsum := sum_allocated_le 0 bs
  have htotal := h.total_le
  rw [h.numBytes, ← add_mul]
  simp only [kAlignment]
  omega

/-- A free block of the layout and the allocation after it. -/
structure AtFree (s : FreeListSpace) (pre : List Block) (f m : Nat) (post : List Block) : Prop where
  layout : s.Layout (pre ++ [⟨f, true⟩, ⟨m, false⟩] ++ post)
  pos : 0 < f
  next_pos : 0 < m
  freeBefore_eq : freeBefore 0 pre = 0
  free : (s.allocationInfo (total pre)).Is 0 ⟨f, true⟩
  next : (s.allocationInfo (total pre + f)).Is f ⟨m, false⟩
  right : Coalesced (⟨m, false⟩ :: post)
  total_le : total pre + f + m ≤ 2 ^ 20
  marked_eq : marked (total pre) (freeBefore 0 pre) [⟨f, true⟩, ⟨m, false⟩] = [total pre + f]

variable {m : Nat}

lemma Layout.atFree (h : s.Layout (pre ++ [⟨f, true⟩, ⟨m, false⟩] ++ post)) : s.AtFree pre f m post := by
  have hcoalesced := h.coalesced
  rw [append_assoc] at hcoalesced
  have hpre : freeBefore 0 pre = 0 := hcoalesced.freeBefore_eq_zero rfl
  have hf : 0 < f := hcoalesced.right.head_pos
  have htotal := h.total_le
  simp only [total_append, total_cons, total_nil] at htotal
  obtain ⟨hinfos, -⟩ := describes_append.1 h.infos
  obtain ⟨-, hinfos⟩ := describes_append.1 hinfos
  rw [zero_add, hpre] at hinfos
  obtain ⟨hfree, halloc, -⟩ := hinfos
  refine ⟨h, hf, hcoalesced.right.tail.head_pos, hpre, hfree, halloc, hcoalesced.right.tail, by omega, ?_⟩
  simp [marked, hpre, freeSize, show f ≠ 0 by omega]

/-- An object takes the front of a longer free block. -/
lemma AtFree.place_of_lt (h : s.AtFree pre f m post) (hk : 0 < k) (hlt : k < f)
    (hl : l.Sublist s.freeBlocks) (hmem : ∀ y, y ∈ l ↔ y ∈ s.freeBlocks ∧ y ≠ total pre + f) :
    ∃ bs', ((takeFront { s with freeBlocks := l } (total pre + f) f k).place (total pre) k).Layout
      bs' ∧ (allocated 0 bs').Perm
        ((total pre, k) :: allocated 0 (pre ++ [⟨f, true⟩, ⟨m, false⟩] ++ post)) := by
  have htotal := h.total_le
  have hm := h.next_pos
  have hnewFree : total pre + f - (f - k) = total pre + k := by omega
  have hx : total pre + k + (f - k) = total pre + f := by omega
  have hperm : (allocated 0 (pre ++ [⟨k, false⟩, ⟨f - k, true⟩, ⟨m, false⟩] ++ post)).Perm
      ((total pre, k) :: allocated 0 (pre ++ [⟨f, true⟩, ⟨m, false⟩] ++ post)) := by
    simp only [allocated_append, allocated, append_assoc, cons_append, nil_append,
      if_true, if_false, Bool.false_eq_true, zero_add, hx]
    exact perm_middle
  -- the block is cut in two, and the one behind it is told the length of the second part
  refine ⟨_, h.layout.replace ?_ ?_ ?_ ?_ ?_ ?_ ?_ ?_ ?_, hperm⟩
  · simp only [total_cons, total_nil]
    omega
  · simp [freeBefore, freeSize]
  · intro x hx
    simp only [total_cons, total_nil] at hx
    simp [place, takeFront, hlt, insertFreeBlock, hnewFree, show x ≠ total pre by omega,
      show x ≠ total pre + f by omega, show x ≠ total pre + k by omega]
  · rw [h.freeBefore_eq]
    refine ⟨?_, ?_, ?_, trivial⟩
    · simp only [place, takeFront, hlt, insertFreeBlock, hnewFree, info_modifyInfo, if_true,
        show total pre ≠ total pre + f by omega, show total pre ≠ total pre + k by omega, if_false]
      exact is_setByteSize _ (by omega) _ (by simp)
    · simp only [place, takeFront, hlt, insertFreeBlock, hnewFree, info_modifyInfo, if_true,
        show total pre + k ≠ total pre by omega, show total pre + k ≠ total pre + f by omega, if_false]
      exact is_setByteSize _ (by omega) _ (by simp [freeSize])
    · simp only [hx, place, takeFront, hlt, insertFreeBlock, hnewFree, info_modifyInfo,
        if_true, show total pre + f ≠ total pre by omega, show total pre + f ≠ total pre + k by omega,
        if_false]
      exact h.next.setPrevFreeBytes (by omega)
  · have hcoalesced := h.layout.coalesced
    rw [append_assoc] at hcoalesced ⊢
    exact coalesced_append_cons.2
      ⟨hcoalesced.cut hk, hk, by simp, by dsimp only; omega, fun _ => rfl, h.right⟩
  · simp [place, takeFront, hlt, insertFreeBlock, modifyInfo]
  · simp only [place, takeFront, hlt, insertFreeBlock, if_true]
    refine h.layout.pairwise_insert hl ?_ ?_ ?_ ?_
    · intro y hy
      rw [h.marked_eq, mem_singleton]
      exact ((hmem y).1 hy).2
    · intro y hy
      simp only [total_cons, total_nil] at hy
      simp [hnewFree, show y ≠ total pre + f by omega, show y ≠ total pre + k by omega]
    · intro y hy
      simp only [total_cons, total_nil] at hy
      simp [show y ≠ total pre by omega]
    · simp [show f ≠ 0 by omega]
  · intro y
    have hmarked' : marked (total pre) (freeBefore 0 pre)
        [⟨k, false⟩, ⟨f - k, true⟩, ⟨m, false⟩] = [total pre + f] := by
      simp [marked, h.freeBefore_eq, freeSize, show f - k ≠ 0 by omega]
      omega
    rw [h.marked_eq, hmarked', mem_singleton, ← hmem]
    simp only [place, takeFront, hlt, insertFreeBlock, if_true, modifyInfo]
    rw [(isStrict_less _).mem_insert, or_comm]
  · have hnum := h.layout.numBytes_place (k := k) (by omega)
    simp only [place, takeFront, hlt, insertFreeBlock, if_true, modifyInfo]
    rw [hnum, (hperm.map Prod.snd).sum_nat, map_cons, sum_cons, add_comm]

/-- An object takes the whole of a free block. -/
lemma AtFree.place_self (h : s.AtFree pre f m post) (hl : l.Sublist s.freeBlocks)
    (hmem : ∀ y, y ∈ l ↔ y ∈ s.freeBlocks ∧ y ≠ total pre + f) :
    ∃ bs', ((takeFront { s with freeBlocks := l } (total pre + f) f f).place (total pre) f).Layout
      bs' ∧ (allocated 0 bs').Perm
        ((total pre, f) :: allocated 0 (pre ++ [⟨f, true⟩, ⟨m, false⟩] ++ post)) := by
  have htotal := h.total_le
  have hm := h.next_pos
  have hf := h.pos
  have hself : ¬ f < f := lt_irrefl f
  have hout : ∀ y ∈ l, y ∉ marked (total pre) (freeBefore 0 pre) [⟨f, true⟩, ⟨m, false⟩] := by
    intro y hy
    rw [h.marked_eq, mem_singleton]
    exact ((hmem y).1 hy).2
  have hinfos : ∀ x, x < total pre ∨ total pre + total [⟨f, true⟩, ⟨m, false⟩] ≤ x →
      ((takeFront { s with freeBlocks := l } (total pre + f) f f).place (total pre) f).allocationInfo x
        = s.allocationInfo x := by
    intro x hx
    simp only [total_cons, total_nil] at hx
    simp [place, takeFront, show x ≠ total pre by omega, show x ≠ total pre + f by omega]
  have hperm : (allocated 0 (pre ++ [⟨f, false⟩, ⟨m, false⟩] ++ post)).Perm
      ((total pre, f) :: allocated 0 (pre ++ [⟨f, true⟩, ⟨m, false⟩] ++ post)) := by
    simp only [allocated_append, allocated, append_assoc, cons_append, nil_append,
      if_true, if_false, Bool.false_eq_true, Nat.zero_add]
    exact perm_middle
  refine ⟨_, h.layout.replace ?_ ?_ hinfos ?_ ?_ ?_ ?_ ?_ ?_, hperm⟩
  · simp
  · simp [freeBefore, freeSize]
  · rw [h.freeBefore_eq]
    refine ⟨?_, ?_, trivial⟩
    · simp only [place, takeFront, hself, info_modifyInfo, if_true,
        show total pre ≠ total pre + f by omega, if_false]
      exact is_setByteSize _ (by omega) _ (by simp)
    · simp only [place, takeFront, hself, info_modifyInfo, if_true,
        show total pre + f ≠ total pre by omega, if_false, Nat.sub_self]
      exact h.next.setPrevFreeBytes (by omega)
  · have hcoalesced := h.layout.coalesced
    rw [append_assoc] at hcoalesced ⊢
    exact coalesced_append_cons.2 ⟨hcoalesced.cut hf, hf, by simp, h.right⟩
  · simp [place, takeFront, modifyInfo]
  · simpa [place, takeFront, modifyInfo] using h.layout.pairwise_outside hl hout hinfos
  · intro y
    have hmarked' : marked (total pre) (freeBefore 0 pre) [⟨f, false⟩, ⟨m, false⟩] = [] := by
      simp [marked, h.freeBefore_eq, freeSize]
    rw [h.marked_eq, hmarked', mem_singleton, ← hmem]
    simp [place, takeFront, modifyInfo]
  · have hnum := h.layout.numBytes_place (k := f) (by omega)
    simp only [place, takeFront, hself, if_false, modifyInfo]
    rw [hnum, (hperm.map Prod.snd).sum_nat, map_cons, sum_cons, Nat.add_comm]

/-- The room taken from the front of the free region at the end. -/
def takeEnd (s : FreeListSpace) (k : Nat) : FreeListSpace := { s with freeEnd := s.freeEnd - k * kAlignment }

/-- An object takes the front of the free region at the end. -/
lemma Layout.place_end (h : s.Layout bs) (hk : 0 < k) (hend : k * kAlignment ≤ s.freeEnd) :
    ((s.takeEnd k).place (total bs) k).Layout (bs ++ [⟨k, false⟩]) := by
  have hfreeEnd := h.freeEnd
  have hbounded := h.bounded
  have hk20 : k ≤ 2 ^ 20 := by
    simp only [kAlignment] at hend hfreeEnd
    omega
  have hinfos : ∀ x, x < total bs → ((s.takeEnd k).place (total bs) k).allocationInfo x =
        s.allocationInfo x := by
    intro x hx
    simp [place, takeEnd, show x ≠ total bs by omega]
  have hlast : freeBefore 0 bs = 0 := by
    by_contra hne
    have hcoalesced := h.coalesced
    rw [← append_nil bs] at hcoalesced
    obtain ⟨pre, hpre, -⟩ := hcoalesced.exists_prev hne
    have := h.coalesced
    rw [hpre] at this
    obtain ⟨n, rest, hnil⟩ := this.right.exists_next rfl
    simp at hnil
  have hpos : ∀ b ∈ bs, 0 < b.size := fun b hb => h.coalesced.pos hb
  have hmem : ∀ x, x ∈ s.freeBlocks → x < total bs := fun x hx => by
    have := lt_of_mem_marked hpos ((h.mem_freeBlocks x).1 hx)
    omega
  refine ⟨?_, ?_, ?_, hbounded, ?_, ?_, ?_⟩
  · rw [describes_append, hlast, zero_add]
    refine ⟨h.infos.congr hpos fun x _ hx => hinfos x (by omega), ?_, trivial⟩
    simp only [place, info_modifyInfo, if_true]
    exact is_setByteSize _ (by omega) _ (by simp)
  · have hcoalesced := h.coalesced
    rw [← append_nil bs] at hcoalesced
    exact hcoalesced.cut hk
  · simp only [place, takeEnd, modifyInfo, total_append, total_cons, total_nil, add_mul]
    omega
  · exact pairwise_less_congr h.sorted fun x hx => hinfos x (hmem x hx)
  · intro x
    rw [marked_append, hlast]
    simpa [place, takeEnd, modifyInfo, marked] using h.mem_freeBlocks x
  · rw [allocated_append]
    simpa [place, takeEnd, modifyInfo, allocated] using h.numBytes_place hk20

variable {numBytes : Nat}

lemma alloc_of_findRoom {r : FreeListSpace} {a : Nat} (hround : roundUp numBytes = k * kAlignment)
    (h : s.findRoom temp (k * kAlignment) = some (a, r)) :
    s.alloc temp numBytes = (some (r.begin_ + a * kAlignment, k * kAlignment), r.place a k) := by
  rw [alloc, hround, h]
  rfl

/-- An allocation finds room for its pages, or there is no free block and no free end of that length. -/
lemma Layout.alloc_spec (h : s.Layout bs) (temp : Nat)
    (hround : roundUp numBytes = k * kAlignment) (hk : 0 < k) (hk32 : k < 2 ^ 32) :
    (s.alloc temp numBytes = (none, s) ∧ (∀ b ∈ bs, b.free = true → b.size < k) ∧
      s.freeEnd < k * kAlignment) ∨
    ∃ a s' bs', s.alloc temp numBytes = (some (s.begin_ + a * kAlignment, k * kAlignment), s') ∧
      s'.begin_ = s.begin_ ∧ s'.end_ = s.end_ ∧ s'.Layout bs' ∧
      (allocated 0 bs').Perm ((a, k) :: allocated 0 bs) := by
  have hbelow : ∀ x ∈ s.freeBlocks,
      (sortByPrevFree (s.allocationInfo x, x) (tempInfo (k * kAlignment), temp) = true ↔
        (s.allocationInfo x).getPrevFree < k) := by
    intro x hx
    obtain ⟨pre, f, m, post, rfl, rfl, -⟩ := h.exists_block hx
    refine sortByPrevFree_tempInfo _ _ hk32 ?_
    rw [h.atFree.next.size]
    exact h.atFree.next_pos
  cases hbound : lowerBound
      (fun i => sortByPrevFree (s.allocationInfo i, i) (tempInfo _, temp))
      _ with
  | cons x rest =>
    right
    have hx : x ∈ s.freeBlocks := mem_of_lowerBound hbound
    have hge := not_lt_of_lowerBound hbound
    rw [← Bool.not_eq_true, hbelow x hx] at hge
    have herase : ∀ y, y ∈ eraseAt
        (fun i => sortByPrevFree (s.allocationInfo i, i) (tempInfo (k * kAlignment), temp))
        s.freeBlocks ↔ y ∈ s.freeBlocks ∧ y ≠ x := fun y =>
      mem_eraseAt (s.isStrict_less.nodup h.sorted) hbound
    obtain ⟨pre, f, m, post, rfl, rfl, -⟩ := h.exists_block hx
    have hat := h.atFree
    have hf := hat.total_le
    rw [hat.next.prevFree] at hge
    have halloc := alloc_of_findRoom hround
      (findRoom_of_lowerBound (by omega) (by omega) hat.next.prevFree hbound)
    rcases lt_or_eq_of_le (not_lt.1 hge) with hlt | rfl
    · obtain ⟨bs', hlayout, hperm⟩ := hat.place_of_lt hk hlt (eraseAt_sublist _ _) herase
      refine ⟨total pre, _, bs', halloc.trans ?_, ?_, ?_, hlayout, hperm⟩ <;>
        simp [place, takeFront, hlt, insertFreeBlock, modifyInfo]
    · obtain ⟨bs', hlayout, hperm⟩ := hat.place_self (eraseAt_sublist _ _) herase
      refine ⟨total pre, _, bs', halloc.trans ?_, ?_, ?_, hlayout, hperm⟩ <;>
        simp [place, takeFront, modifyInfo]
  | nil =>
    -- no free block is long enough, which leaves the region at the end
    have hroom : s.findRoom temp (k * kAlignment) = if s.freeEnd ≥ k * kAlignment then
          some (total bs, s.takeEnd k)
        else none := by
      rw [findRoom]
      rw [← tempInfo, hbound, ← endInfo, h.endInfo_eq]
      rfl
    by_cases hend : s.freeEnd ≥ k * kAlignment
    · right
      rw [if_pos hend] at hroom
      have halloc := alloc_of_findRoom hround hroom
      refine ⟨total bs, _, _, halloc, rfl, rfl, h.place_end hk hend, ?_⟩
      simp only [allocated_append, allocated, Bool.false_eq_true, if_false, zero_add, append_nil]
      exact perm_append_singleton _ _
    · left
      rw [if_neg hend] at hroom
      refine ⟨by rw [alloc, hround, hroom], ?_, not_le.1 hend⟩
      rintro ⟨f, _⟩ hb rfl
      obtain ⟨pre, post, rfl⟩ := append_of_mem hb
      obtain ⟨m, post, rfl⟩ := h.coalesced.right.exists_next rfl
      have hlayout : s.Layout (pre ++ [⟨f, true⟩, ⟨m, false⟩] ++ post) := by simpa using h
      have hx : total pre + f ∈ s.freeBlocks := by
        rw [hlayout.mem_freeBlocks, marked_append, marked_append, zero_add, hlayout.atFree.marked_eq]
        simp
      have hlt := lt_of_lowerBound_nil hbound hx
      rwa [hbelow _ hx, hlayout.atFree.next.prevFree] at hlt

end Art.FreeListSpace
