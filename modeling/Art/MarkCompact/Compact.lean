import Art.MarkCompact.LiveWords

/-!
# Addresses after compaction

`MarkCompact::PrepareForCompaction` of `runtime/gc/collector/mark_compact.cc` and `PostCompactAddress` of
`mark_compact-inl.h`: the vector is replaced by its prefix sums, and the new address of an object is that
of its chunk and of the live words before it in one word of the bitmap.
-/

namespace Art

open List Nat Counting

namespace MarkCompact

variable {w : ℕ} (space : Space w)

/-! ## The code -/

variable (vec : ℕ → ℕ)

/-- `std::exclusive_scan` of the first `n` entries of the vector, in place. -/
def exclusiveScan (n : ℕ) (i : ℕ) : ℕ :=
  if i < n then (List.range i).foldl (fun sum j => (sum + vec j) % 2 ^ 32) 0 else vec i

/-- What `PrepareForCompaction` leaves. -/
structure Prepared (w : ℕ) extends Info w where
  postCompactEnd : ℕ
  blackObjsSlideDiff : ℕ

def vectorLength : ℕ := (space.spaceLimit - space.spaceBegin) / kOffsetChunkSize w

/-- The prefix sums in `PrepareForCompaction`, with the total of live bytes. -/
def scanChunks : (ℕ → ℕ) × ℕ :=
  let vectorLen := (space.blackAllocationsBegin - space.spaceBegin) / kOffsetChunkSize w
  if vectorLen < vectorLength space then
    let scanned := exclusiveScan vec (vectorLen + 1)
    (scanned, scanned vectorLen)
  else
    -- the last entry is fetched before it is overwritten
    let total := vec (vectorLen - 1)
    let scanned := exclusiveScan vec vectorLen
    (scanned, (total + scanned (vectorLen - 1)) % 2 ^ 32)

def prepareForCompaction (info : Info w) : Prepared w :=
  let (vec, total) := scanChunks space info.chunkInfoVec
  let postCompactEnd := (space.spaceBegin + total + kPageSize - 1) / kPageSize * kPageSize
  { liveWordsBitmap := info.liveWordsBitmap
    chunkInfoVec := vec
    postCompactEnd
    blackObjsSlideDiff := space.blackAllocationsBegin - postCompactEnd }

/-- `HasAddress`: a smaller address than that of the space gives a large number. -/
def hasAddress (addr : ℕ) : Bool :=
  decide (space.spaceBegin ≤ addr) && decide ((addr - space.spaceBegin) / kAlignment <
      (space.spaceLimit - space.spaceBegin) / kAlignment)

def postCompactOldObjAddr (p : Prepared w) (oldRef : ℕ) : ℕ :=
  let addrOffset := oldRef - space.spaceBegin
  let vecIdx := addrOffset / kOffsetChunkSize w
  let liveBytesInBitmapWord := countLiveWordsUpto p.liveWordsBitmap (addrOffset / kAlignment) * kAlignment
  space.spaceBegin + p.chunkInfoVec vecIdx + liveBytesInBitmapWord

def postCompactAddress (p : Prepared w) (oldRef : ℕ) : ℕ :=
  if hasAddress space oldRef then
    if space.blackAllocationsBegin ≤ oldRef then oldRef - p.blackObjsSlideDiff
    else postCompactOldObjAddr space p oldRef
  else oldRef

variable {space}

/-- Reports of objects to `UpdateLivenessInfo`, one after the other. -/
def updateAll (objs : List (LiveObject space)) (info : Info w) : Option (Info w) :=
  objs.foldlM (fun info o => updateLivenessInfo space info o.objBegin o.objSize) info

/-! ## All objects -/

namespace LiveObject

/-- The objects do not overlap. -/
def Disjoint (o p : LiveObject space) : Prop :=
  o.objBegin + o.objSize ≤ p.objBegin ∨ p.objBegin + p.objSize ≤ o.objBegin

/-- The size that an object takes. -/
def roundedSize (o : LiveObject space) : ℕ := o.words * kAlignment

variable {o p : LiveObject space}

lemma Disjoint.words (h : o.Disjoint p) :
    o.firstWord + o.words ≤ p.firstWord ∨ p.firstWord + p.words ≤ o.firstWord := by
  have ho := o.objBegin_eq
  have hp := p.objBegin_eq
  unfold Disjoint at h
  unfold LiveObject.words
  unfold kAlignment at *
  omega

instance : Std.Symm (@Disjoint w space) := ⟨fun _ _ => Or.symm⟩

lemma Disjoint.not_covers (h : o.Disjoint p) (i : ℕ) : ¬(o.Covers i ∧ p.Covers i) := by
  rintro ⟨⟨ho, ho'⟩, hp, hp'⟩
  rcases h.words with h | h <;> omega

end LiveObject

variable {objs : List (LiveObject space)} {info : Info w}

/-- After all objects were reported, the bitmap has their words, and the vector agrees. -/
lemma updateAll_spec (hobjs : objs.Pairwise LiveObject.Disjoint) (hagrees : info.Agrees)
    (hinfo : ∀ o ∈ objs, ∀ i, o.Covers i → ¬Live info.liveWordsBitmap i) :
    ∃ info', updateAll objs info = some info' ∧ info'.Agrees ∧ ∀ i, Live info'.liveWordsBitmap i ↔
        Live info.liveWordsBitmap i ∨ ∃ o ∈ objs, o.Covers i := by
  induction objs generalizing info with
  | nil => exact ⟨info, rfl, hagrees, fun i => by simp⟩
  | cons o objs ih =>
    obtain ⟨ho, hobjs⟩ := pairwise_cons.1 hobjs
    obtain ⟨next, hstep, hnext, hlive⟩ := updateLivenessInfo_spec space o hagrees (hinfo o mem_cons_self)
    obtain ⟨last, hrun, hlast, hlive'⟩ := ih hobjs hnext fun p hp i hi hl => by
      rcases (hlive i).1 hl with hl | hl
      · exact hinfo p (mem_cons_of_mem o hp) i hi hl
      · exact (ho p hp).not_covers i ⟨hl, hi⟩
    refine ⟨last, ?_, hlast, fun i => ?_⟩
    · rw [updateAll, foldlM_cons, hstep]
      exact hrun
    · rw [hlive', hlive, exists_mem_cons_iff, or_assoc]

/-! ## The prefix sums -/

variable (space)

/-- The number of words below `black_allocations_begin_`. -/
def Space.words : ℕ := (space.blackAllocationsBegin - space.spaceBegin) / kAlignment

/-- The chunks below `black_allocations_begin_` are whole, and there are fewer than `2 ^ 32` bytes. -/
lemma Space.words_eq :
    (space.blackAllocationsBegin - space.spaceBegin) / kOffsetChunkSize w * w = space.words ∧
      space.spaceBegin + kAlignment * space.words = space.blackAllocationsBegin ∧
      kAlignment * space.words < 2 ^ 32 := by
  obtain ⟨b, hb⟩ := space.dvd_spaceBegin
  obtain ⟨e, he⟩ := space.dvd_blackAllocationsBegin
  have hle := space.spaceBegin_le
  have hlimit := space.blackAllocationsBegin_le
  have hend := space.spaceLimit_le
  have hpos := space.spaceBegin_pos
  rcases space.width with rfl | rfl <;> unfold Space.words <;>
    unfold kOffsetChunkSize kAlignment kPageSize at * <;> omega

lemma vectorLength_pos : 0 < vectorLength space := by
  obtain ⟨b, hb⟩ := space.dvd_spaceBegin
  obtain ⟨e, he⟩ := space.dvd_spaceLimit
  have hlt := space.spaceBegin_lt
  rcases space.width with rfl | rfl <;> unfold vectorLength <;>
    unfold kOffsetChunkSize kAlignment kPageSize at * <;> omega

variable {space}

lemma foldl_range_add_mod (i : ℕ) : (List.range i).foldl (fun sum j => (sum + vec j) % 2 ^ 32) 0 =
      (∑ j ∈ Finset.range i, vec j) % 2 ^ 32 := by
  induction i with
  | zero => rfl
  | succ i ih =>
    rw [range_succ, foldl_append, ih, Finset.sum_range_succ]
    exact mod_add_mod _ _ _

lemma Info.Agrees.sum_eq (h : info.Agrees) (i : ℕ) : ∑ j ∈ Finset.range i, info.chunkInfoVec j =
      kAlignment * count (Live info.liveWordsBitmap) (i * w) := by
  rw [← sum_count_block, Finset.mul_sum]
  exact Finset.sum_congr rfl fun j _ => h j

/-- The live bytes before a chunk. -/
lemma Info.Agrees.exclusiveScan_eq (h : info.Agrees) {n i : ℕ} (hi : i < n) (hw : i * w ≤ space.words) :
    exclusiveScan info.chunkInfoVec n i = kAlignment * Nat.count (Live info.liveWordsBitmap) (i * w) := by
  have hlt : kAlignment * Nat.count (Live info.liveWordsBitmap) (i * w) < 2 ^ 32 :=
    (Nat.mul_le_mul_left _ ((Nat.count_le _).trans hw)).trans_lt space.words_eq.2.2
  rw [exclusiveScan, if_pos hi, foldl_range_add_mod, h.sum_eq, Nat.mod_eq_of_lt hlt]

/-- After `PrepareForCompaction` the vector has the live bytes before each chunk, and the total is that of
    the live words. -/
lemma scanChunks_spec (h : info.Agrees) :
    (∀ i, i * w < space.words → (scanChunks space info.chunkInfoVec).1 i =
        kAlignment * Nat.count (Live info.liveWordsBitmap) (i * w)) ∧ (scanChunks space info.chunkInfoVec).2 =
        kAlignment * Nat.count (Live info.liveWordsBitmap) space.words := by
  obtain ⟨hlen, hblack, hlt⟩ := space.words_eq
  have htotal : kAlignment * Nat.count (Live info.liveWordsBitmap) space.words < 2 ^ 32 :=
    (Nat.mul_le_mul_left _ (Nat.count_le _)).trans_lt hlt
  unfold scanChunks
  generalize (space.blackAllocationsBegin - space.spaceBegin) / kOffsetChunkSize w = n at hlen
  dsimp only
  have hbelow : ∀ i, i * w < space.words → i < n := fun i hi =>
    Nat.lt_of_mul_lt_mul_right (hlen ▸ hi)
  split_ifs with hfull
  · refine ⟨fun i hi => h.exclusiveScan_eq (by have := hbelow i hi; omega) hi.le, ?_⟩
    rw [h.exclusiveScan_eq (Nat.lt_succ_self n) hlen.le, hlen]
  · refine ⟨fun i hi => h.exclusiveScan_eq (hbelow i hi) hi.le, ?_⟩
    -- the space is full, and not empty
    have hpos := vectorLength_pos space
    obtain ⟨m, rfl⟩ : ∃ m, n = m + 1 := Nat.exists_eq_succ_of_ne_zero (by omega)
    have hm : m * w ≤ space.words := by
      rw [← hlen]
      exact Nat.mul_le_mul_right w (Nat.le_succ m)
    rw [Nat.add_sub_cancel, h.exclusiveScan_eq (Nat.lt_succ_self m) hm, h m, ← Nat.mul_add,
      Nat.add_comm (Nat.count _ w), ← Nat.count_add, ← Nat.succ_mul, hlen, Nat.mod_eq_of_lt htotal]

/-! ## The new addresses -/

namespace LiveObject

lemma firstWord_add_words_le (o : LiveObject space) : o.firstWord + o.words ≤ space.words := by
  have hbegin := o.objBegin_eq
  have hend := o.end_le
  have hblack := space.words_eq.2.1
  unfold LiveObject.words
  unfold kAlignment at *
  omega

lemma objBegin_lt_iff {o p : LiveObject space} : o.objBegin < p.objBegin ↔ o.firstWord < p.firstWord := by
  rw [o.objBegin_eq, p.objBegin_eq]
  unfold kAlignment
  omega

lemma hasAddress (o : LiveObject space) : hasAddress space o.objBegin = true := by
  have hle := o.firstWord_add_words_le
  have hpos := o.words_pos
  have hblack : space.words ≤ (space.spaceLimit - space.spaceBegin) / kAlignment :=
    Nat.div_le_div_right (Nat.sub_le_sub_right space.blackAllocationsBegin_le _)
  have hlt : (o.objBegin - space.spaceBegin) / kAlignment <
      (space.spaceLimit - space.spaceBegin) / kAlignment :=
    lt_of_lt_of_le (lt_of_lt_of_le (Nat.lt_add_of_pos_right hpos) hle) hblack
  rw [MarkCompact.hasAddress, decide_eq_true o.spaceBegin_le, decide_eq_true hlt]
  rfl

end LiveObject

/-- The new address of an object is that of the live words before it. -/
lemma postCompactAddress_eq (h : info.Agrees) (o : LiveObject space) :
    postCompactAddress space (prepareForCompaction space info) o.objBegin =
      space.spaceBegin + kAlignment * count (Live info.liveWordsBitmap) o.firstWord := by
  have hw := space.width_pos
  have hpos := o.words_pos
  have hle := o.firstWord_add_words_le
  have hbelow : ¬space.blackAllocationsBegin ≤ o.objBegin := by
    have := o.end_le
    have := o.objSize_pos
    omega
  have hchunk : o.firstWord / w * w < space.words := lt_of_le_of_lt (div_mul_le_self _ _) (by omega)
  have hword : (o.objBegin - space.spaceBegin) / kAlignment = o.firstWord := rfl
  have hvec : (prepareForCompaction space info).chunkInfoVec = (scanChunks space info.chunkInfoVec).1 := rfl
  have hbitmap : (prepareForCompaction space info).liveWordsBitmap = info.liveWordsBitmap := rfl
  rw [postCompactAddress, if_pos o.hasAddress, if_neg hbelow, postCompactOldObjAddr,
    o.chunkIdx_eq, hword, hvec, hbitmap, (scanChunks_spec h).1 _ hchunk,
    countLiveWordsUpto_eq hw, mul_comm _ kAlignment, add_assoc, ← mul_add, ← count_add, div_add_mod']

/-- The live words before a boundary of objects are those of the objects before it. -/
lemma count_covers (hobjs : objs.Pairwise LiveObject.Disjoint) {b : ℕ}
    (hb : ∀ o ∈ objs, o.firstWord + o.words ≤ b ∨ b ≤ o.firstWord) :
    kAlignment * Nat.count (fun i => ∃ o ∈ objs, o.Covers i) b =
      ((objs.filter fun o => o.firstWord < b).map LiveObject.roundedSize).sum := by
  induction objs with
  | nil =>
    rw [Nat.count_iff_forall_not.2 fun i _ ⟨o, ho, _⟩ => not_mem_nil ho]
    rfl
  | cons o objs ih =>
    obtain ⟨ho, hobjs⟩ := pairwise_cons.1 hobjs
    have hrest := ih hobjs fun p hp => hb p (mem_cons_of_mem o hp)
    have hcount : Nat.count o.Covers b = min b (o.firstWord + o.words) - o.firstWord :=
      count_interval _ _ _
    have hsplit : Nat.count (fun i => ∃ p ∈ o :: objs, p.Covers i) b =
        Nat.count o.Covers b + Nat.count (fun i => ∃ p ∈ objs, p.Covers i) b := by
      have hdisjoint : ∀ i < b, ¬(o.Covers i ∧ ∃ p ∈ objs, p.Covers i) :=
        fun i _ ⟨hi, p, hp, hi'⟩ => (ho p hp).not_covers i ⟨hi, hi'⟩
      rw [← count_or hdisjoint]
      exact count_congr fun i _ => exists_mem_cons_iff _ _ _
    rw [hsplit, mul_add, hrest, hcount]
    have hpos := o.words_pos
    rcases hb o mem_cons_self with hle | hle
    · rw [filter_cons, if_pos (decide_eq_true (by omega)), map_cons, sum_cons,
        Nat.min_eq_right hle, Nat.add_sub_cancel_left, LiveObject.roundedSize, mul_comm]
    · rw [filter_cons, if_neg (by simpa using hle), Nat.min_eq_left (by omega),
        Nat.sub_eq_zero_of_le hle, mul_zero, zero_add]

/-- The state after exactly these objects were reported. -/
structure Reported (objs : List (LiveObject space)) (info : Info w) : Prop where
  pairwise : objs.Pairwise LiveObject.Disjoint
  agrees : info.Agrees
  live_iff : ∀ i, Live info.liveWordsBitmap i ↔ ∃ o ∈ objs, o.Covers i

lemma updateAll_cleared (hobjs : objs.Pairwise LiveObject.Disjoint) :
    ∃ info, updateAll objs (Info.cleared w) = some info ∧ Reported objs info := by
  have hcleared : ∀ i, ¬Live (Info.cleared w).liveWordsBitmap i := fun i => by
    change ¬(0#w).getLsbD (i % w) = true
    rw [BitVec.getLsbD_zero]
    exact Bool.false_ne_true
  have hempty : (Info.cleared w).Agrees := fun j => by
    rw [count_iff_forall_not.2 fun i _ => hcleared _]
    rfl
  obtain ⟨info, hrun, hagrees, hlive⟩ := updateAll_spec hobjs hempty fun o _ i _ => hcleared i
  exact ⟨info, hrun, hobjs, hagrees, fun i => (hlive i).trans (or_iff_right (hcleared i))⟩

namespace Reported

variable {objs : List (LiveObject space)} {info : Info w} (h : Reported objs info)

include h

variable {o : LiveObject space}

/-- The words of an object are live, so they are counted one by one. -/
lemma count_firstWord_add (ho : o ∈ objs) {d : ℕ} (hd : d ≤ o.words) :
    count (Live info.liveWordsBitmap) (o.firstWord + d) =
      count (Live info.liveWordsBitmap) o.firstWord + d := by
  have hall : count (fun k => Live info.liveWordsBitmap (o.firstWord + k)) d = d :=
    count_iff_forall.2 fun k hk => (h.live_iff _).2 ⟨o, ho, by omega, by omega⟩
  rw [count_add, hall]

lemma count_eq_sum {b : ℕ} (hb : ∀ o ∈ objs, o.firstWord + o.words ≤ b ∨ b ≤ o.firstWord) :
    kAlignment * count (Live info.liveWordsBitmap) b =
      ((objs.filter fun o => o.firstWord < b).map LiveObject.roundedSize).sum := by
  rw [← count_covers h.pairwise hb]
  exact congrArg _ (count_congr fun i _ => h.live_iff i)

variable {q : LiveObject space}

lemma disjoint_or_eq (ho : o ∈ objs) (hq : q ∈ objs) : o = q ∨ o.Disjoint q := by
  by_cases hne : o = q
  · exact .inl hne
  · exact .inr (h.pairwise.forall ho hq hne)

lemma total_eq : kAlignment * count (Live info.liveWordsBitmap) space.words =
    (objs.map LiveObject.roundedSize).sum := by
  rw [h.count_eq_sum fun o _ => .inl o.firstWord_add_words_le, filter_eq_self.2]
  intro o _
  have hpos := o.words_pos
  have hle := o.firstWord_add_words_le
  exact decide_eq_true (by omega)

/-- The new address of an object, from the sizes of the objects before it. -/
lemma postCompactAddress_object (ho : o ∈ objs) :
    postCompactAddress space (prepareForCompaction space info) o.objBegin = space.spaceBegin +
      ((objs.filter fun q => q.objBegin < o.objBegin).map LiveObject.roundedSize).sum := by
  have hboundary : ∀ q ∈ objs, q.firstWord + q.words ≤ o.firstWord ∨ o.firstWord ≤ q.firstWord := by
    intro q hq
    rcases h.disjoint_or_eq hq ho with rfl | hdisjoint
    · exact .inr le_rfl
    · rcases hdisjoint.words with hle | hle <;> omega
  simp only [postCompactAddress_eq h.agrees, h.count_eq_sum hboundary, LiveObject.objBegin_lt_iff]

/-- The image of an object ends before that of a later one. -/
lemma postCompactAddress_add_le (ho : o ∈ objs) (hq : q ∈ objs) (hlt : o.objBegin < q.objBegin) :
    postCompactAddress space (prepareForCompaction space info) o.objBegin + o.roundedSize ≤
      postCompactAddress space (prepareForCompaction space info) q.objBegin := by
  have hfirst := LiveObject.objBegin_lt_iff.1 hlt
  have hle : o.firstWord + o.words ≤ q.firstWord := by
    rcases h.disjoint_or_eq ho hq with rfl | hdisjoint
    · exact absurd hfirst (lt_irrefl _)
    · rcases hdisjoint.words with hle | hle <;> omega
  have hcount := Nat.count_monotone (Live info.liveWordsBitmap) hle
  rw [h.count_firstWord_add ho le_rfl] at hcount
  rw [postCompactAddress_eq h.agrees, postCompactAddress_eq h.agrees, LiveObject.roundedSize,
    Nat.add_assoc, mul_comm o.words, ← Nat.mul_add]
  exact Nat.add_le_add_left (Nat.mul_le_mul_left _ hcount) _

variable {a : ℕ}

/-- Each address up to the total of the sizes is that of an image. -/
lemma exists_postCompactAddress (ha : space.spaceBegin ≤ a)
    (hlt : a < space.spaceBegin + (objs.map LiveObject.roundedSize).sum) :
    ∃ o ∈ objs, postCompactAddress space (prepareForCompaction space info) o.objBegin ≤ a ∧
      a < postCompactAddress space (prepareForCompaction space info) o.objBegin + o.roundedSize := by
  have hk : (a - space.spaceBegin) / kAlignment < Nat.count (Live info.liveWordsBitmap) space.words := by
    rw [← h.total_eq] at hlt
    exact Nat.div_lt_of_lt_mul (by omega)
  obtain ⟨i, -, hi, hcount⟩ := exists_count_eq hk
  obtain ⟨o, ho, hbegin, hend⟩ := (h.live_iff i).1 hi
  have hcount' := h.count_firstWord_add ho (le_of_lt (Nat.sub_lt_left_of_lt_add hbegin hend))
  rw [Nat.add_sub_of_le hbegin, hcount] at hcount'
  refine ⟨o, ho, ?_⟩
  rw [postCompactAddress_eq h.agrees, LiveObject.roundedSize]
  unfold kAlignment at *
  omega

lemma postCompactEnd_eq : (prepareForCompaction space info).postCompactEnd =
    (space.spaceBegin + (objs.map LiveObject.roundedSize).sum + kPageSize - 1) / kPageSize * kPageSize := by
  rw [← h.total_eq, ← (scanChunks_spec h.agrees).2]
  rfl

/-- The end of the images is a page boundary that is not after `black_allocations_begin_`. -/
lemma postCompactEnd_le :
    (prepareForCompaction space info).postCompactEnd ≤ space.blackAllocationsBegin := by
  obtain ⟨e, he⟩ := space.dvd_blackAllocationsBegin
  have hblack := space.words_eq.2.1
  have hle : count (Live info.liveWordsBitmap) space.words ≤ space.words := count_le _
  rw [h.postCompactEnd_eq, ← h.total_eq]
  unfold kAlignment kPageSize at *
  omega

lemma postCompactAddress_add_le_end (ho : o ∈ objs) :
    postCompactAddress space (prepareForCompaction space info) o.objBegin + o.roundedSize ≤
        (prepareForCompaction space info).postCompactEnd ∧
      postCompactAddress space (prepareForCompaction space info) o.objBegin ≤ o.objBegin := by
  have hcount := count_monotone (Live info.liveWordsBitmap) o.firstWord_add_words_le
  have hfirst : count (Live info.liveWordsBitmap) o.firstWord ≤ o.firstWord := count_le _
  have hbegin := o.objBegin_eq
  rw [h.count_firstWord_add ho le_rfl] at hcount
  rw [h.postCompactEnd_eq, ← h.total_eq, postCompactAddress_eq h.agrees, LiveObject.roundedSize]
  unfold kAlignment kPageSize at *
  omega

/-- What was allocated after the marking pause moves by one distance. -/
lemma postCompactAddress_black (hblack : space.blackAllocationsBegin ≤ a)
    (hlimit : a < space.spaceLimit) : postCompactAddress space (prepareForCompaction space info) a +
        (prepareForCompaction space info).blackObjsSlideDiff = a ∧
      (prepareForCompaction space info).postCompactEnd ≤
        postCompactAddress space (prepareForCompaction space info) a := by
  have hend := h.postCompactEnd_le
  have hdiff : (prepareForCompaction space info).blackObjsSlideDiff =
    space.blackAllocationsBegin - (prepareForCompaction space info).postCompactEnd := rfl
  have hbegin := space.spaceBegin_le.trans hblack
  have hword : (a - space.spaceBegin) / kAlignment < (space.spaceLimit - space.spaceBegin) / kAlignment := by
    obtain ⟨b, hb⟩ := space.dvd_spaceBegin
    obtain ⟨e, he⟩ := space.dvd_spaceLimit
    unfold kAlignment kPageSize at *
    omega
  have hhas : hasAddress space a = true := by
    rw [hasAddress, decide_eq_true hbegin, decide_eq_true hword]
    rfl
  rw [postCompactAddress, if_pos hhas, if_pos hblack, hdiff]
  omega

end Reported

/-- After the objects below `black_allocations_begin_` were reported in any order, `PostCompactAddress`
    moves each one to the start of the space and the sizes of those before it. The new places are in the
    same order, disjoint and without gaps, and end before `post_compact_end_`. All addresses from
    `black_allocations_begin_` on move by one distance, to `post_compact_end_` or after it. No address
    grows. -/
theorem postCompactAddress_slides (space : Space w) (objs : List (LiveObject space))
    (hobjs : objs.Pairwise LiveObject.Disjoint) : ∃ info, updateAll objs (Info.cleared w) = some info ∧
      let p := prepareForCompaction space info
      let post := postCompactAddress space p
      (∀ o ∈ objs, post o.objBegin = space.spaceBegin +
        ((objs.filter fun q => q.objBegin < o.objBegin).map LiveObject.roundedSize).sum) ∧
      (∀ o ∈ objs, ∀ q ∈ objs, o.objBegin < q.objBegin → post o.objBegin + o.roundedSize ≤ post q.objBegin) ∧
      (∀ a, space.spaceBegin ≤ a → a < space.spaceBegin + (objs.map LiveObject.roundedSize).sum →
        ∃ o ∈ objs, post o.objBegin ≤ a ∧ a < post o.objBegin + o.roundedSize) ∧
      (∀ o ∈ objs, post o.objBegin + o.roundedSize ≤ p.postCompactEnd ∧ post o.objBegin ≤ o.objBegin) ∧
      ∀ a, space.blackAllocationsBegin ≤ a → a < space.spaceLimit →
        post a + p.blackObjsSlideDiff = a ∧ p.postCompactEnd ≤ post a := by
  obtain ⟨info, hrun, h⟩ := updateAll_cleared hobjs
  exact ⟨info, hrun, fun _ => h.postCompactAddress_object, fun _ ho _ => h.postCompactAddress_add_le ho,
    fun _ => h.exists_postCompactAddress, fun _ => h.postCompactAddress_add_le_end,
    fun _ => h.postCompactAddress_black⟩

/-- A space of two pages, with one page before the marking pause. -/
def twoPages : Space 64 where
  spaceBegin := 4096
  spaceLimit := 12288
  blackAllocationsBegin := 8192
  width := Or.inr rfl
  dvd_spaceBegin := by decide
  dvd_spaceLimit := by decide
  dvd_blackAllocationsBegin := by decide
  spaceBegin_pos := by decide
  spaceBegin_lt := by decide
  spaceBegin_le := by decide
  blackAllocationsBegin_le := by decide
  spaceLimit_le := by decide

/-- The second object of two moves to the end of the first one. -/
theorem postCompactAddress_slides_two :
    let o : LiveObject twoPages := ⟨4112, 12, by decide, by decide, by decide, by decide⟩
    let q : LiveObject twoPages := ⟨5000, 600, by decide, by decide, by decide, by decide⟩
    [q, o].Pairwise LiveObject.Disjoint ∧ ∃ info, updateAll [q, o] (Info.cleared 64) = some info ∧
      postCompactAddress twoPages (prepareForCompaction twoPages info) 5000 = 4112 := by
  intro o q
  have hobjs : [q, o].Pairwise LiveObject.Disjoint := by
    refine pairwise_pair.2 (.inr ?_)
    decide
  obtain ⟨info, hrun, hpost, -⟩ := postCompactAddress_slides twoPages [q, o] hobjs
  exact ⟨hobjs, info, hrun, (hpost q mem_cons_self).trans (by decide)⟩

end MarkCompact

end Art
