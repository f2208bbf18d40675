import Art.FreeListSpace.Alloc
import Mathlib.Algebra.Order.BigOperators.Group.List

/-!
# Deallocation on the layout

What `Free` does to the list of blocks of a space.
-/

namespace Art.FreeListSpace

open Block List
open AllocationInfo (alignSize_setByteSize byteSize getPrevFreeBytes)

variable {s s' : FreeListSpace} {bs pre post : List Block}

/-- The first write of `Free`. -/
def markFree (s : FreeListSpace) (info m : Nat) : FreeListSpace :=
  s.modifyInfo info (·.setByteSize (m * kAlignment) true)

variable {a m : Nat}

/-- Marking a block as free leaves the order as it was. -/
lemma less_markFree (hm : m < 2 ^ 30) (hsize : (s.allocationInfo a).alignSize = m) (x y : Nat) :
    (s.markFree a m).less x y = s.less x y := by
  have hsame : ∀ z, ((s.markFree a m).allocationInfo z).getPrevFree = (s.allocationInfo z).getPrevFree ∧
      ((s.markFree a m).allocationInfo z).alignSize = (s.allocationInfo z).alignSize := by
    intro z
    rw [markFree, info_modifyInfo]
    split
    · rename_i hz
      rw [alignSize_setByteSize _ hm, hz, hsize]
      exact ⟨rfl, rfl⟩
    · exact ⟨rfl, rfl⟩
  rw [Bool.eq_iff_iff, less, less, sortByPrevFree_iff, sortByPrevFree_iff]
  rw [(hsame x).1, (hsame x).2, (hsame y).1, (hsame y).2]

/-- `RemoveFreePrev` finds what is in the set. -/
lemma removeFreePrev_of_mem {x : Nat} (hsorted : s.freeBlocks.Pairwise (s.less · ·))
    (hx : x ∈ s.freeBlocks) (hprev : (s.allocationInfo x).getPrevFree ≠ 0) :
    ∃ l, s.removeFreePrev x = some { s with freeBlocks := l } ∧ l.Sublist s.freeBlocks ∧
      ∀ y, y ∈ l ↔ y ∈ s.freeBlocks ∧ y ≠ x := by
  obtain ⟨rest, hrest⟩ := s.isStrict_less.lowerBound_self hsorted hx
  refine ⟨OrderedSet.eraseAt (s.less · x) _, ?_, OrderedSet.eraseAt_sublist _ _, fun y =>
    OrderedSet.mem_eraseAt (s.isStrict_less.nodup hsorted) hrest⟩
  rw [removeFreePrev, if_neg hprev, hrest]
  simp

/-- The chunk that `Free` starts from, with the free block before it if there is one. -/
structure Chunk (s : FreeListSpace) (pre before : List Block) (m : Nat) (post : List Block) :
    Prop where
  layout : s.Layout (pre ++ before ++ ⟨m, false⟩ :: post)
  freeBefore_eq : freeBefore 0 pre = 0
  before_eq : before = [] ∨ ∃ p, before = [⟨p, true⟩]

namespace Chunk

variable {before : List Block} {m : Nat}

lemma exists_of_layout (h : s.Layout (bs ++ ⟨m, false⟩ :: post)) :
    ∃ pre before, bs = pre ++ before ∧ s.Chunk pre before m post := by
  by_cases hfree : freeBefore 0 bs = 0
  · exact ⟨bs, [], by simp, by simpa using h, hfree, .inl rfl⟩
  · obtain ⟨pre, hpre, hzero⟩ := h.coalesced.exists_prev hfree
    exact ⟨pre, _, hpre, hpre ▸ h, hzero, .inr ⟨_, rfl⟩⟩

variable (h : s.Chunk pre before m post)

include h

lemma m_pos : 0 < m := h.layout.coalesced.pos (b := ⟨m, false⟩) (by simp)

lemma freeBefore_before : freeBefore 0 before = total before := by
  rcases h.before_eq with hb | ⟨p, hb⟩
  · simp [hb, freeBefore]
  · simp [hb, freeBefore, freeSize]

lemma total_le : total pre + total before + m + total post ≤ 2 ^ 20 := by
  have := h.layout.total_le
  simp only [total_append, total_cons] at this
  omega

/-- The info of the chunk. -/
lemma info : (s.allocationInfo (total pre + total before)).Is (total before) ⟨m, false⟩ := by
  obtain ⟨-, hinfos, -⟩ := describes_append.1 h.layout.infos
  rwa [total_append, zero_add, freeBefore_append, h.freeBefore_eq, h.freeBefore_before] at hinfos

/-- Nothing free comes before the joined chunk. -/
lemma prevFree_eq_zero : (s.allocationInfo (total pre)).getPrevFree = 0 := by
  rcases h.before_eq with hb | ⟨p, hb⟩
  · have := h.info.prevFree
    rwa [hb, total_nil, add_zero] at this
  · have hinfos := h.layout.infos
    rw [append_assoc, describes_append, hb, h.freeBefore_eq, zero_add] at hinfos
    exact hinfos.2.1.prevFree

lemma next : Describes s.allocationInfo (total pre + total before + m) 0 post := by
  obtain ⟨-, -, hinfos⟩ := describes_append.1 h.layout.infos
  rwa [total_append, zero_add] at hinfos

/-- Joining with the free block before the chunk. -/
lemma coalescePrev : ∃ l, (s.markFree (total pre + total before) m).coalescePrev (total pre + total before)
        (m * kAlignment) = some ({ s.markFree (total pre + total before) m with freeBlocks := l }, total pre,
        (total before + m) * kAlignment) ∧ l.Sublist s.freeBlocks ∧
      ∀ y, y ∈ l ↔ y ∈ s.freeBlocks ∧ y ∉ marked (total pre) 0 (before ++ [⟨m, false⟩]) := by
  have htotal := h.total_le
  have hprev : ((s.markFree (total pre + total before) m).allocationInfo
      (total pre + total before)).getPrevFree = total before := by
    simp only [markFree, info_modifyInfo, if_true, AllocationInfo.getPrevFree_setByteSize]
    exact h.info.prevFree
  rw [FreeListSpace.coalescePrev]
  rw [getPrevFreeBytes, hprev]
  rcases h.before_eq with rfl | ⟨p, rfl⟩
  · refine ⟨_, ?_, List.Sublist.refl _, ?_⟩
    · simp [markFree, modifyInfo]
    · simp [marked]
  · have hp : 0 < p := h.layout.coalesced.pos (b := ⟨p, true⟩) (by simp)
    simp only [total_cons, total_nil, add_zero] at hprev htotal ⊢
    have hsorted : (s.markFree (total pre + p) m).freeBlocks.Pairwise
        ((s.markFree (total pre + p) m).less · ·) :=
      h.layout.sorted.imp fun {x y} hxy => by
        rw [less_markFree (by omega) (by simpa using h.info.size)]
        exact hxy
    have hmem : total pre + p ∈ s.freeBlocks := by
      rw [h.layout.mem_freeBlocks, append_assoc, marked_append, h.freeBefore_eq]
      simp [marked, freeSize, show p ≠ 0 by omega]
    obtain ⟨l, hl, hsub, hmeml⟩ := removeFreePrev_of_mem hsorted hmem (by omega)
    refine ⟨l, ?_, hsub, ?_⟩
    · rw [if_pos (Nat.mul_pos hp (by decide)).ne', hl]
      have hzero : ((s.markFree (total pre + p) m).allocationInfo (total pre)).getPrevFree = 0 := by
        simp only [markFree, info_modifyInfo, show total pre ≠ total pre + p by omega, if_false]
        exact h.prevFree_eq_zero
      rw [add_comm p m, add_mul]
      simp only [hprev, Nat.add_sub_cancel, getPrevFreeBytes, hzero, zero_mul, if_true]
    · intro y
      rw [hmeml]
      simp [marked, freeSize, markFree, modifyInfo, show p ≠ 0 by omega]

end Chunk

/-- A chunk that is not at the end: with the free block after it if there is
    one, and the allocation behind. -/
structure InnerChunk (s : FreeListSpace) (pre before : List Block) (m : Nat) (after : List Block)
    (n : Nat) (post : List Block) : Prop where
  chunk : s.Chunk pre before m (after ++ ⟨n, false⟩ :: post)
  after_eq : after = [] ∨ ∃ g, after = [⟨g, true⟩]

variable {before : List Block}

lemma Chunk.exists_inner (h : s.Chunk pre before m post) (hpost : post ≠ []) :
    ∃ after n rest, post = after ++ ⟨n, false⟩ :: rest ∧ s.InnerChunk pre before m after n rest := by
  obtain _ | ⟨⟨g, free⟩, rest⟩ := post
  · exact absurd rfl hpost
  · cases free with
    | false => exact ⟨[], g, rest, rfl, h, .inl rfl⟩
    | true =>
      obtain ⟨n, rest, rfl⟩ := h.layout.coalesced.right.tail.exists_next rfl
      exact ⟨[⟨g, true⟩], n, rest, rfl, h, .inr ⟨g, rfl⟩⟩

namespace InnerChunk

variable {before after : List Block} {m n : Nat}
variable (h : s.InnerChunk pre before m after n post)

include h

/-- The blocks that the chunk and its surroundings are. -/
lemma layout : s.Layout (pre ++ (before ++ [⟨m, false⟩] ++ after ++ [⟨n, false⟩]) ++ post) := by
  simpa using h.chunk.layout

lemma total_le : total pre + total before + m + total after + n ≤ 2 ^ 20 := by
  have := h.chunk.total_le
  simp only [total_append, total_cons] at this
  omega

lemma n_pos : 0 < n := h.chunk.layout.coalesced.pos (b := ⟨n, false⟩) (by simp)

lemma freeBefore_after : freeBefore 0 after = total after := by
  rcases h.after_eq with hb | ⟨p, hb⟩
  · simp [hb, freeBefore]
  · simp [hb, freeBefore, freeSize]

/-- The info of the allocation behind. -/
lemma info :
    (s.allocationInfo (total pre + total before + m + total after)).Is (total after) ⟨n, false⟩ := by
  have hinfos := h.chunk.next
  rw [describes_append, h.freeBefore_after] at hinfos
  exact hinfos.2.1

/-- Marking the object as free leaves the allocation behind it. -/
lemma info_markFree : ((s.markFree (total pre + total before) m).allocationInfo
      (total pre + total before + m + total after)).Is (total after) ⟨n, false⟩ := by
  have hm := h.chunk.m_pos
  rw [markFree, info_modifyInfo, if_neg (by omega)]
  exact h.info

/-- The set without the entries that the joined chunk replaces. -/
structure Erased (h : s.InnerChunk pre before m after n post) (l : List Nat) : Prop where
  sublist : l.Sublist s.freeBlocks
  mem_iff : ∀ y, y ∈ l ↔ y ∈ s.freeBlocks ∧
    y ∉ marked (total pre) (freeBefore 0 pre) (before ++ [⟨m, false⟩] ++ after ++ [⟨n, false⟩])

/-- What `Free` writes once the set is rid of those entries. -/
def joined (s : FreeListSpace) (info newFreeInfo t : Nat) : FreeListSpace :=
  ((s.modifyInfo newFreeInfo (·.setPrevFreeBytes (t * kAlignment))).insertFreeBlock
    newFreeInfo).modifyInfo info (·.setByteSize (t * kAlignment) true)

variable {l : List Nat}

/-- Joining with the free block after the chunk. -/
lemma coalesceNext (hsub : l.Sublist s.freeBlocks)
    (hmem : ∀ y, y ∈ l ↔ y ∈ s.freeBlocks ∧ y ∉ marked (total pre) 0 (before ++ [⟨m, false⟩])) :
    ∃ l', h.Erased l' ∧ FreeListSpace.coalesceNext
        { s.markFree (total pre + total before) m with freeBlocks := l } (total pre)
        (total pre + total before + m) ((total before + m) * kAlignment) =
      some (joined { s.markFree (total pre + total before) m with freeBlocks := l' } (total pre)
        (total pre + total before + m + total after) (total before + m + total after)) := by
  have htotal := h.total_le
  have hm := h.chunk.m_pos
  have hsorted : l.Pairwise ((s.markFree (total pre + total before) m).less · ·) :=
    (h.chunk.layout.sorted.sublist hsub).imp fun {x y} hxy => by
      rw [less_markFree (m := m) (by omega) h.chunk.info.size]
      exact hxy
  have hnext : ∀ l', (joined { s.markFree (total pre + total before) m with freeBlocks := l' }
      (total pre) (total pre + total before + m + total after)
      (total before + m + total after)).getNextInfo (total pre) =
        total pre + total before + m + total after := by
    intro l'
    simp only [joined, getNextInfo, info_modifyInfo, if_true]
    rw [alignSize_setByteSize _ (by omega)]
    omega
  have hbehind := h.info_markFree
  rw [FreeListSpace.coalesceNext]
  rcases h.after_eq with rfl | ⟨g, rfl⟩
  · refine ⟨l, ⟨hsub, ?_⟩, ?_⟩
    · intro y
      rw [hmem, h.chunk.freeBefore_eq]
      simp [marked, freeSize]
    · simp only [total_nil, add_zero] at hbehind hnext ⊢
      rw [hbehind.free]
      exact if_pos (hnext l)
  · have hg : 0 < g := h.chunk.layout.coalesced.pos (b := ⟨g, true⟩) (by simp)
    simp only [total_cons, total_nil, add_zero] at hbehind hnext htotal ⊢
    have hfree : ((s.markFree (total pre + total before) m).allocationInfo
        (total pre + total before + m)).Is 0 ⟨g, true⟩ := by
      rw [markFree, info_modifyInfo, if_neg (by omega)]
      exact h.chunk.next.1
    have hbetween : total pre + total before + m + g ∉ marked (total pre) 0 (before ++ [⟨m, false⟩]) := by
      intro hmem
      have := lt_of_mem_marked (fun b hb => h.chunk.layout.coalesced.pos (by
        rcases mem_append.1 hb with hb | hb
        · simp [hb]
        · simp [mem_singleton.1 hb])) hmem
      simp only [total_append, total_cons, total_nil] at this
      omega
    have hin : total pre + total before + m + g ∈ l := by
      rw [hmem, h.chunk.layout.mem_freeBlocks]
      refine ⟨?_, hbetween⟩
      simp [marked, freeSize, show g ≠ 0 by omega]
    obtain ⟨l', hremove, hsub', hmem'⟩ := removeFreePrev_of_mem
      (s := { s.markFree _ m with freeBlocks := l }) hsorted hin
      (by rw [hbehind.prevFree]; omega)
    refine ⟨l', ⟨hsub'.trans hsub, ?_⟩, ?_⟩
    · intro y
      rw [hmem', hmem, and_assoc, h.chunk.freeBefore_eq]
      simp [marked, freeSize, show g ≠ 0 by omega, and_assoc]
    · rw [hfree.free, getNextInfo]
      rw [hfree.size, if_pos rfl, hbehind.free, hremove, getPrevFreeBytes, hbehind.prevFree, ← add_mul]
      exact if_pos (hnext l')

/-- The allocated blocks are those without the object. -/
lemma perm_allocated : (allocated 0 (pre ++ (before ++ [⟨m, false⟩] ++ after ++ [⟨n, false⟩]) ++ post)).Perm
      ((total pre + total before, m) ::
        allocated 0 (pre ++ [⟨total before + m + total after, true⟩, ⟨n, false⟩] ++ post)) := by
  have hbefore : ∀ a, allocated a before = [] := fun a => by
    rcases h.chunk.before_eq with hb | ⟨p, hb⟩ <;> simp [hb, allocated]
  have hafter : ∀ a, allocated a after = [] := fun a => by
    rcases h.after_eq with hb | ⟨p, hb⟩ <;> simp [hb, allocated]
  simp only [allocated_append, allocated, hbefore, hafter, Bool.false_eq_true, if_false, if_true,
    nil_append, append_assoc, cons_append, zero_add, ← add_assoc]
  exact perm_middle

/-- The joined chunk is one free block of the layout. -/
lemma layout_joined (hl : h.Erased l)
    (hs' : s' = { joined { s.markFree (total pre + total before) m with freeBlocks  := l } (total pre)
          (total pre + total before + m + total after) (total before + m + total after) with
        numObjectsAllocated := (s.numObjectsAllocated + (2 ^ 64 - 1)) % 2 ^ 64
        numBytesAllocated := s.numBytesAllocated - m * kAlignment }) :
    s'.Layout (pre ++ [⟨total before + m + total after, true⟩, ⟨n, false⟩] ++ post) := by
  have htotal := h.total_le
  have hm := h.chunk.m_pos
  have hn := h.n_pos
  have hmarked : marked (total pre) (freeBefore 0 pre)
      [⟨total before + m + total after, true⟩, ⟨n, false⟩] =
        [total pre + total before + m + total after] := by
    simp [marked, freeSize, h.chunk.freeBefore_eq, show m ≠ 0 by omega, ← add_assoc]
  subst hs'
  refine h.layout.replace ?_ ?_ ?_ ?_ ?_ ?_ ?_ ?_ ?_
  · simp only [total_append, total_cons, total_nil]
    omega
  · simp [freeBefore, freeSize]
  · intro x hx
    simp only [total_append, total_cons, total_nil] at hx
    simp [joined, insertFreeBlock, markFree, show x ≠ total pre by omega,
      show x ≠ total pre + total before by omega,
      show x ≠ total pre + total before + m + total after by omega]
  · rw [h.chunk.freeBefore_eq]
    refine ⟨?_, ?_, trivial⟩
    · simp only [joined, insertFreeBlock, info_modifyInfo, if_true]
      refine AllocationInfo.is_setByteSize _ (by omega) _ ?_
      rw [if_neg (by omega), markFree, info_modifyInfo]
      split
      · exact h.chunk.prevFree_eq_zero
      · exact h.chunk.prevFree_eq_zero
    · have hat : total pre + (total before + m + total after) =
          total pre + total before + m + total after := by omega
      simp only [joined, insertFreeBlock, info_modifyInfo, hat]
      rw [if_neg (by omega), if_pos trivial]
      exact h.info_markFree.setPrevFreeBytes (by omega)
  · have hcoalesced := h.layout.coalesced
    rw [append_assoc] at hcoalesced ⊢
    refine (hcoalesced.left h.chunk.freeBefore_eq).insert_free (by omega) ?_
    have hright := h.layout.coalesced
    rw [append_assoc, append_assoc] at hright
    exact hright.right.right
  · exact ⟨rfl, rfl, rfl⟩
  · refine h.layout.pairwise_insert hl.sublist (fun y hy => ((hl.mem_iff y).1 hy).2) ?_ ?_ ?_
    · intro y hy
      simp only [total_append, total_cons, total_nil] at hy
      simp [markFree, show y ≠ total pre + total before by omega,
        show y ≠ total pre + total before + m + total after by omega]
    · intro y hy
      simp only [total_append, total_cons, total_nil] at hy
      simp [joined, insertFreeBlock, show y ≠ total pre by omega]
    · simp only [joined, insertFreeBlock, info_modifyInfo]
      rw [if_neg (by omega)]
  · intro y
    rw [hmarked, mem_singleton, ← hl.mem_iff]
    simp only [joined, insertFreeBlock, modifyInfo]
    rw [(isStrict_less _).mem_insert, or_comm]
  · have hnum := h.layout.numBytes
    rw [(h.perm_allocated.map Prod.snd).sum_nat, map_cons, sum_cons, add_mul] at hnum
    rw [hnum, Nat.add_sub_cancel_left]

end InnerChunk

/-- The last object of the layout goes to the free region at the end. -/
lemma Chunk.layout_end (h : s.Chunk pre before m []) {l : List Nat} (hsub : l.Sublist s.freeBlocks)
    (hmem : ∀ y, y ∈ l ↔ y ∈ s.freeBlocks ∧ y ∉ marked (total pre) 0 (before ++ [⟨m, false⟩]))
    (hs' : s' = { s.markFree (total pre + total before) m with
        freeBlocks := l
        freeEnd := s.freeEnd + (total before + m) * kAlignment
        numObjectsAllocated := (s.numObjectsAllocated + (2 ^ 64 - 1)) % 2 ^ 64
        numBytesAllocated := s.numBytesAllocated - m * kAlignment }) :
    s'.Layout pre ∧ (allocated 0 (pre ++ before ++ [⟨m, false⟩])).Perm
      ((total pre + total before, m) :: allocated 0 pre) := by
  have hbefore : ∀ a, allocated a before = [] := fun a => by
    rcases h.before_eq with hb | ⟨p, hb⟩ <;> simp [hb, allocated]
  have hperm : (allocated 0 (pre ++ before ++ [⟨m, false⟩])).Perm
      ((total pre + total before, m) :: allocated 0 pre) := by
    simp only [allocated_append, allocated, hbefore, append_nil, Bool.false_eq_true, if_false,
      zero_add, total_append]
    exact perm_append_singleton _ _
  have hcoalesced := h.layout.coalesced
  rw [append_assoc] at hcoalesced
  have hpre := hcoalesced.left h.freeBefore_eq
  have hpos : ∀ b ∈ pre, 0 < b.size := fun b hb => hpre.pos hb
  have hinfos : ∀ x, x < total pre → s'.allocationInfo x = s.allocationInfo x := by
    intro x hx
    simp [hs', markFree, show x ≠ total pre + total before by omega]
  have hmarked : ∀ y, y ∈ l ↔ y ∈ marked 0 0 pre := by
    intro y
    rw [hmem, h.layout.mem_freeBlocks, append_assoc, marked_append, h.freeBefore_eq, zero_add, mem_append]
    refine ⟨fun hy => hy.1.resolve_right hy.2, fun hy => ⟨.inl hy, fun hy' => ?_⟩⟩
    have := lt_of_mem_marked hpos hy
    have := le_of_mem_marked hy'
    omega
  refine ⟨⟨?_, hpre, ?_, ?_, ?_, ?_, ?_⟩, hperm⟩
  · have hdescribes := h.layout.infos
    rw [append_assoc, describes_append] at hdescribes
    exact hdescribes.1.congr hpos fun x _ hx => hinfos x (by omega)
  · have hend := h.layout.freeEnd
    simp only [total_append, total_cons, total_nil, add_mul] at hend
    simp only [hs', markFree, modifyInfo, add_mul]
    omega
  · simpa [hs', markFree, modifyInfo] using h.layout.bounded
  · have hl : s'.freeBlocks = l := by rw [hs']
    rw [hl]
    refine pairwise_less_congr (h.layout.sorted.sublist hsub) fun x hx => hinfos x ?_
    have := lt_of_mem_marked hpos ((hmarked x).1 hx)
    omega
  · rw [hs']
    exact hmarked
  · have hnum := h.layout.numBytes
    rw [(hperm.map Prod.snd).sum_nat, map_cons, sum_cons, add_mul] at hnum
    rw [hs']
    rw [hnum, Nat.add_sub_cancel_left]

variable {info next size : Nat}

lemma release_end (h : s.getAddressForAllocationInfo next = s.freeEndStart) :
    s.release info next size = some { s with freeEnd := s.freeEnd + size } := by
  rw [release]
  rw [if_pos h.ge, if_pos h]

lemma release_inner (h : s.getAddressForAllocationInfo next < s.freeEndStart) :
    s.release info next size = s.coalesceNext info next size := by
  rw [release]
  rw [if_neg (not_le.2 h)]

/-- Freeing an object succeeds, returns its size, and takes it out of the allocated blocks. -/
lemma Layout.free_spec (h : s.Layout bs) (ha : (a, m) ∈ allocated 0 bs) :
    ∃ s' bs', s.free (s.begin_ + a * kAlignment) = some (m * kAlignment, s') ∧
      s'.begin_ = s.begin_ ∧ s'.end_ = s.end_ ∧ s'.Layout bs' ∧
      (allocated 0 bs).Perm ((a, m) :: allocated 0 bs') := by
  obtain ⟨pre', post, rfl, rfl⟩ := exists_of_mem_allocated ha
  obtain ⟨pre, before, rfl, hchunk⟩ := Chunk.exists_of_layout h
  rw [zero_add, total_append]
  have htotal := hchunk.total_le
  have hm := hchunk.m_pos
  obtain ⟨l, hprev, hsub, hmem⟩ := hchunk.coalescePrev
  have hbytes : (s.allocationInfo (total pre + total before)).byteSize = m * kAlignment := by
    rw [byteSize, hchunk.info.size]
  have hnext : (s.markFree (total pre + total before) m).getNextInfo (total pre + total before) =
      total pre + total before + m := by
    rw [getNextInfo, markFree, info_modifyInfo, if_pos rfl, alignSize_setByteSize _ (by omega)]
  have hcheck : ¬ ((s.allocationInfo (total pre + total before)).isFree = true ∨ m * kAlignment = 0) := by
    rw [hchunk.info.free]
    have : m * kAlignment ≠ 0 := (Nat.mul_pos hm (by decide)).ne'
    simp [this]
  have hle : m * kAlignment ≤ s.numBytesAllocated := by
    rw [h.numBytes]
    exact Nat.mul_le_mul_right _ (le_sum_of_mem (mem_map.2 ⟨_, ha, rfl⟩))
  have hend : s.freeEndStart = s.begin_ + (total pre + total before + m + total post) * kAlignment := by
    rw [h.freeEndStart_eq]
    simp only [total_append, total_cons, add_assoc]
  rw [free]
  dsimp only
  rw [slotIndex_address, hbytes, if_neg hcheck, ← markFree, hprev, hnext]
  dsimp only
  by_cases hpost : post = []
  · subst hpost
    obtain ⟨hlayout, hperm⟩ := hchunk.layout_end hsub hmem rfl
    rw [release_end]
    · exact ⟨_, pre, if_pos hle, rfl, rfl, hlayout, hperm⟩
    · exact hend.symm
  · obtain ⟨after, n, rest, rfl, hinner⟩ := hchunk.exists_inner hpost
    obtain ⟨l', hl', hjoin⟩ := hinner.coalesceNext hsub hmem
    have hn := hinner.n_pos
    rw [release_inner, hjoin]
    · exact ⟨_, _, if_pos hle, rfl, rfl, hinner.layout_joined hl' rfl, by
        simpa using hinner.perm_allocated⟩
    · have hlt : total pre + total before + m <
          total pre + total before + m + total (after ++ ⟨n, false⟩ :: rest) := by
        simp only [total_append, total_cons]
        omega
      have := Nat.mul_lt_mul_of_pos_right hlt (show 0 < kAlignment by decide)
      have hgoal : s.begin_ + (total pre + total before + m) * kAlignment < s.freeEndStart := by omega
      exact hgoal

end Art.FreeListSpace
