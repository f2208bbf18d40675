import Art.FreeListSpace.Space
import Art.Lib.Blocks
import Mathlib.Data.Nat.Bitwise

/-!
# The layout of the free list space

What the side table, the set of free blocks and the counters say, as one list of
blocks.

* `Layout.alloc` and `Layout.free`, the operations on the list
-/

namespace Art

open Block Nat

/-! ## Infos -/

namespace AllocationInfo

variable (info : AllocationInfo) {n : Nat}

lemma alignSize_setByteSize (hn : n < 2 ^ 30) (free : Bool) :
    (info.setByteSize (n * kAlignment) free).alignSize = n := by
  have hdiv : n * kAlignment / kAlignment = n := Nat.mul_div_cancel _ (by decide)
  have hmask : kFlagsMask.toNat = 2 ^ 30 - 1 := by decide
  have hflag : (if free then kFlagFree else 0#32).toNat % 2 ^ 30 = 0 := by cases free <;> decide
  rw [alignSize, setByteSize, hdiv, BitVec.toNat_and, hmask, Nat.and_two_pow_sub_one_eq_mod,
    BitVec.toNat_or, Nat.or_mod_two_pow, hflag, Nat.or_zero, BitVec.toNat_ofNat]
  omega

lemma isFree_setByteSize (hn : n < 2 ^ 30) (free : Bool) :
    (info.setByteSize (n * kAlignment) free).isFree = free := by
  have hdiv : n * kAlignment / kAlignment = n := Nat.mul_div_cancel _ (by decide)
  have hflag : kFlagFree.toNat = 2 ^ 31 := by decide
  have hbit : (n % 2 ^ 32).testBit 31 = false := by
    rw [mod_eq_of_lt (by omega)]
    exact testBit_lt_two_pow (by omega)
  have hzero : (info.setByteSize (n * kAlignment) free).isFree = true ↔
      ((info.setByteSize (n * kAlignment) free).allocSize &&& kFlagFree).toNat ≠ 0 := by
    rw [isFree, bne_iff_ne, ne_eq, ne_eq, ← BitVec.toNat_inj, BitVec.toNat_ofNat, zero_mod]
  rw [Bool.eq_iff_iff, hzero, setByteSize, hdiv, BitVec.toNat_and, BitVec.toNat_or, hflag,
    and_two_pow, testBit_or, BitVec.toNat_ofNat, hbit, Bool.false_or]
  cases free <;> decide

@[simp]
lemma getPrevFree_setByteSize (size : Nat) (free : Bool) :
    (info.setByteSize size free).getPrevFree = info.getPrevFree := rfl

lemma getPrevFree_setPrevFreeBytes (hn : n < 2 ^ 32) :
    (info.setPrevFreeBytes (n * kAlignment)).getPrevFree = n := by
  have hdiv : n * kAlignment / kAlignment = n := Nat.mul_div_cancel _ (by decide)
  rw [getPrevFree, setPrevFreeBytes, hdiv, BitVec.toNat_ofNat, mod_eq_of_lt hn]

@[simp]
lemma getPrevFree_setPrevFreeBytes_zero : (info.setPrevFreeBytes 0).getPrevFree = 0 := by
  simp [getPrevFree, setPrevFreeBytes]

/-- The info is that of block `b`, with `p` free pages before it. -/
structure Is (info : AllocationInfo) (p : Nat) (b : Block) : Prop where
  prevFree : info.getPrevFree = p
  size : info.alignSize = b.size
  free : info.isFree = b.free

/-- The info that `Alloc` and `Free` write at the start of a block. -/
lemma is_setByteSize {n p : Nat} (hn : n < 2 ^ 30) (free : Bool) (hp : info.getPrevFree = p) :
    (info.setByteSize (n * kAlignment) free).Is p ⟨n, free⟩ :=
  ⟨hp, info.alignSize_setByteSize hn free, info.isFree_setByteSize hn free⟩

lemma Is.setPrevFreeBytes {info : AllocationInfo} {p n : Nat} {b : Block} (h : info.Is p b)
    (hn : n < 2 ^ 32) : (info.setPrevFreeBytes (n * kAlignment)).Is n b :=
  ⟨info.getPrevFree_setPrevFreeBytes hn, h.size, h.free⟩

end AllocationInfo

/-- The side table describes the blocks from slot `a` on, with `p` free pages before the first one. -/
def Describes (infos : Nat → AllocationInfo) : Nat → Nat → List Block → Prop
  | _, _, [] => True
  | a, p, b :: bs => (infos a).Is p b ∧ Describes infos (a + b.size) b.freeSize bs

lemma describes_append {infos : Nat → AllocationInfo} {a p : Nat} {bs cs : List Block} :
    Describes infos a p (bs ++ cs) ↔
      Describes infos a p bs ∧ Describes infos (a + total bs) (freeBefore p bs) cs := by
  induction bs generalizing a p with
  | nil => simp [Describes, freeBefore]
  | cons b bs ih => simp [Describes, freeBefore, ih, and_assoc, add_assoc]

/-- Only the slots that the blocks cover matter. -/
lemma Describes.congr {infos infos' : Nat → AllocationInfo} {a p : Nat} {bs : List Block}
    (h : Describes infos a p bs) (hpos : ∀ b ∈ bs, 0 < b.size)
    (heq : ∀ x, a ≤ x → x < a + total bs → infos' x = infos x) : Describes infos' a p bs := by
  induction bs generalizing a p with
  | nil => trivial
  | cons b bs ih =>
    have hb := hpos b (by simp)
    rw [total_cons] at heq
    refine ⟨?_, ih h.2 (fun c hc => hpos c (by simp [hc])) fun x hx hlt => ?_⟩
    · rw [heq a (by omega) (by omega)]
      exact h.1
    · exact heq x (by omega) (by omega)

namespace FreeListSpace

variable {s s' : FreeListSpace}

@[simp]
lemma info_modifyInfo (s : FreeListSpace) (i j : Nat) (f : AllocationInfo → AllocationInfo) :
    (s.modifyInfo i f).allocationInfo j = if j = i then f (s.allocationInfo j) else s.allocationInfo j := rfl

/-! ## The order of the free blocks -/

lemma sortByPrevFree_iff {a b : AllocationInfo × Nat} :
    sortByPrevFree a b = true ↔ a.1.getPrevFree < b.1.getPrevFree ∨
      a.1.getPrevFree = b.1.getPrevFree ∧ (a.1.alignSize < b.1.alignSize ∨
        a.1.alignSize = b.1.alignSize ∧ a.2 < b.2) := by
  rw [sortByPrevFree]
  split
  · simp [*]
  · split
    · simp only [Bool.false_eq_true, false_iff]
      omega
    · split
      · simp only [true_iff]
        omega
      · split
        · simp only [Bool.false_eq_true, false_iff]
          omega
        · rw [decide_eq_true_iff]
          omega

lemma isStrict_less (s : FreeListSpace) : OrderedSet.IsStrict s.less where
  irrefl x := by
    rw [← Bool.not_eq_true, less, sortByPrevFree_iff]
    omega
  trans x y z hxy hyz := by
    rw [less, sortByPrevFree_iff] at hxy hyz ⊢
    omega
  total x y hne := by
    rw [less, less, sortByPrevFree_iff, sortByPrevFree_iff]
    omega

/-- The order among members whose infos are not written stays. -/
lemma pairwise_less_congr {l : List Nat} (h : l.Pairwise (s.less · ·))
    (heq : ∀ x ∈ l, s'.allocationInfo x = s.allocationInfo x) : l.Pairwise (s'.less · ·) :=
  h.imp_of_mem fun {x y} hx hy hxy => by
    rw [less, heq x hx, heq y hy]
    exact hxy

/-- The space is laid out as the blocks `bs`, followed by the free region at its end. -/
structure Layout (s : FreeListSpace) (bs : List Block) : Prop where
  infos : Describes s.allocationInfo 0 0 bs
  coalesced : Coalesced bs
  freeEnd : s.begin_ + total bs * kAlignment + s.freeEnd = s.end_
  /-- The mapping is below 4 GiB. -/
  bounded : s.end_ ≤ s.begin_ + 2 ^ 32
  sorted : s.freeBlocks.Pairwise (s.less · ·)
  mem_freeBlocks : ∀ x, x ∈ s.freeBlocks ↔ x ∈ marked 0 0 bs
  numBytes : s.numBytesAllocated = ((allocated 0 bs).map Prod.snd).sum * kAlignment

lemma layout_create {begin_ capacity : Nat} (hcapacity : capacity ≤ 2 ^ 32) :
    (create begin_ capacity).Layout [] where
  infos := trivial
  coalesced := trivial
  freeEnd := by simp [create]
  bounded := by simpa [create] using hcapacity
  sorted := List.Pairwise.nil
  mem_freeBlocks := by simp [create, marked]
  numBytes := rfl

variable {bs pre mid mid' post : List Block}

lemma Layout.total_le (h : s.Layout bs) : total bs ≤ 2 ^ 20 := by
  have h1 := h.freeEnd
  have h2 := h.bounded
  simp only [kAlignment] at h1
  omega

/-- The slot where the free region at the end begins is the one after the blocks. -/
lemma Layout.freeEndStart_eq (h : s.Layout bs) : s.freeEndStart = s.begin_ + total bs * kAlignment := by
  have := h.freeEnd
  rw [freeEndStart]
  omega

lemma slotIndex_address (s : FreeListSpace) (n : Nat) :
    s.getSlotIndexForAddress (s.begin_ + n * kAlignment) = n := by
  rw [getSlotIndexForAddress, Nat.add_sub_cancel_left, Nat.mul_div_cancel _ (by decide)]

lemma Layout.endInfo_eq (h : s.Layout bs) : s.endInfo = total bs := by
  rw [endInfo, h.freeEndStart_eq, slotIndex_address]

/-- A member of the set of free blocks is an allocation after a free block. -/
lemma Layout.exists_block (h : s.Layout bs) {x : Nat} (hx : x ∈ s.freeBlocks) :
    ∃ pre f m post, bs = pre ++ [⟨f, true⟩, ⟨m, false⟩] ++ post ∧ x = total pre + f ∧
      freeBefore 0 pre = 0 := by
  obtain ⟨pre', b, post, rfl, rfl, hfree⟩ := exists_of_mem_marked ((h.mem_freeBlocks x).1 hx)
  obtain ⟨pre, hpre, hzero⟩ := h.coalesced.exists_prev hfree
  generalize freeBefore 0 pre' = f at hpre
  subst hpre
  have hcoalesced := h.coalesced
  rw [List.append_assoc] at hcoalesced
  obtain ⟨m, rest, heq⟩ := hcoalesced.right.exists_next rfl
  obtain ⟨rfl, rfl⟩ := List.cons.inj heq
  exact ⟨pre, f, m, post, by simp, by simp, hzero⟩

/-- Rewriting the infos of some blocks as blocks of the same length. -/
lemma Layout.describes_replace (h : s.Layout (pre ++ mid ++ post)) (htotal : total mid' = total mid)
    (hfree : freeBefore 0 (pre ++ mid') = freeBefore 0 (pre ++ mid))
    (hinfos : ∀ x, x < total pre ∨ total pre + total mid ≤ x → s'.allocationInfo x = s.allocationInfo x)
    (hmid : Describes s'.allocationInfo (total pre) (freeBefore 0 pre) mid') :
    Describes s'.allocationInfo 0 0 (pre ++ mid' ++ post) := by
  have hpos : ∀ b ∈ pre ++ mid ++ post, 0 < b.size := fun b hb => h.coalesced.pos hb
  obtain ⟨h1, hpost⟩ := describes_append.1 h.infos
  obtain ⟨hpre, -⟩ := describes_append.1 h1
  rw [describes_append, describes_append, hfree, total_append, htotal, ← total_append, zero_add, zero_add]
  refine ⟨⟨?_, hmid⟩, ?_⟩
  · refine hpre.congr (fun b hb => hpos b (by simp [hb])) fun x _ hx => hinfos x (.inl ?_)
    omega
  · rw [zero_add] at hpost
    refine hpost.congr (fun b hb => hpos b (by simp [hb])) fun x hx _ => hinfos x (.inr ?_)
    rwa [total_append] at hx

end FreeListSpace

end Art
