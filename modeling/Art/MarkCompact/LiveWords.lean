import Art.Lib.Counting
import Art.Lib.Loop
import Mathlib.Data.Nat.Bitwise

/-!
# Live words

`LiveWordsBitmap` and `MarkCompact::UpdateLivenessInfo` of `runtime/gc/collector/mark_compact-inl.h` and
`mark_compact.cc`. The live objects of the moving space are recorded twice: in a bitmap with one bit for
`kAlignment` bytes, and in a vector with the number of live bytes of each chunk, which are the bytes that
a word of the bitmap stands for.
-/

namespace Art

namespace MarkCompact

open Function
open BitVec (allOnes getLsbD getLsbD_and getLsbD_or)

def kAlignment : ℕ := 8

def kPageSize : ℕ := 4096

/-- The moving space, for a machine word of `w` bits. A reference has 32 bits, and null is not the address
    of an object. -/
structure Space (w : ℕ) where
  spaceBegin : ℕ
  spaceLimit : ℕ
  blackAllocationsBegin : ℕ
  width : w = 32 ∨ w = 64
  dvd_spaceBegin : kPageSize ∣ spaceBegin
  dvd_spaceLimit : kPageSize ∣ spaceLimit
  dvd_blackAllocationsBegin : kPageSize ∣ blackAllocationsBegin
  spaceBegin_pos : 0 < spaceBegin
  spaceBegin_lt : spaceBegin < spaceLimit
  spaceBegin_le : spaceBegin ≤ blackAllocationsBegin
  blackAllocationsBegin_le : blackAllocationsBegin ≤ spaceLimit
  spaceLimit_le : spaceLimit ≤ 2 ^ 32

def kOffsetChunkSize (w : ℕ) : ℕ := w * kAlignment

/-- The bitmap and the vector. -/
structure Info (w : ℕ) where
  liveWordsBitmap : ℕ → BitVec w
  chunkInfoVec : ℕ → ℕ

/-- The cleared bitmap and vector. -/
def Info.cleared (w : ℕ) : Info w := ⟨fun _ => 0, fun _ => 0⟩

variable {w : ℕ} (space : Space w)

/-! ## The bitmap -/

def bitIndexFromAddr (addr : ℕ) : ℕ := (addr - space.spaceBegin) / kAlignment

def bitIndexToMask (w bitIdx : ℕ) : BitVec w := 1#w <<< (bitIdx % w)

variable (bitmap : ℕ → BitVec w)

/-- `SetLiveWords`, with the index of the first bit. -/
def setLiveWords (objBegin size : ℕ) : (ℕ → BitVec w) × ℕ :=
  let beginBitIdx := bitIndexFromAddr space objBegin
  let endBitIdx := bitIndexFromAddr space (objBegin + size - kAlignment)
  let beginWord := beginBitIdx / w
  let endWord := endBitIdx / w
  let mask := ~~~(bitIndexToMask w beginBitIdx - 1)
  let endMask := bitIndexToMask w endBitIdx
  if beginWord < endWord then
    let bitmap := update bitmap beginWord (bitmap beginWord ||| mask)
    -- `memset` of the words in between
    let bitmap := fun i => if beginWord < i ∧ i < endWord then allOnes w else bitmap i
    (update bitmap endWord
      (bitmap endWord ||| (allOnes w &&& (endMask ||| (endMask - 1)))), beginBitIdx)
  else
    (update bitmap endWord (bitmap endWord ||| (mask &&& (endMask ||| (endMask - 1)))), beginBitIdx)

def popcount (word : BitVec w) : ℕ := Nat.count (fun i => word.getLsbD i = true) w

/-- `CountLiveWordsUpto`; a word of the vector is one word of the bitmap. -/
def countLiveWordsUpto (bitIdx : ℕ) : ℕ :=
  popcount (bitmap (bitIdx / w) &&& (bitIndexToMask w bitIdx - 1))

/-! ## The vector -/

/-- `chunk_info_vec_[i] += size`. -/
def addTo (vec : ℕ → ℕ) (i size : ℕ) : ℕ → ℕ := update vec i ((vec i + size) % 2 ^ 32)

/-- The loop of `UpdateLivenessInfo` over the chunks after the first one: the vector, `chunk_idx` and
    `size`. -/
def addChunks (w : ℕ) (s : (ℕ → ℕ) × ℕ × ℕ) : Option ((ℕ → ℕ) × ℕ × ℕ) :=
  Loop.whileM (fun s => decide (kOffsetChunkSize w < s.2.2))
    (fun s => some (update s.1 s.2.1 (kOffsetChunkSize w), s.2.1 + 1, s.2.2 - kOffsetChunkSize w))
    s.2.2 s

/-- `UpdateLivenessInfo`, for an object of `objSize` bytes at `objBegin`. -/
def updateLivenessInfo (info : Info w) (objBegin objSize : ℕ) : Option (Info w) := do
  let size := (objSize + kAlignment - 1) / kAlignment * kAlignment
  let (bitmap, bitIndex) := setLiveWords space info.liveWordsBitmap objBegin size
  let chunkIdx := (objBegin - space.spaceBegin) / kOffsetChunkSize w
  let firstChunkPortion := min size ((w - bitIndex % w) * kAlignment)
  let vec := addTo info.chunkInfoVec chunkIdx firstChunkPortion
  let (vec, chunkIdx, size) ← addChunks w (vec, chunkIdx + 1, size - firstChunkPortion)
  return ⟨bitmap, addTo vec chunkIdx size⟩

/-! ## The bits of an object -/

/-- The bit of the word at an index. -/
def Live (i : ℕ) : Prop := (bitmap (i / w)).getLsbD (i % w) = true

instance (bitmap : ℕ → BitVec w) : DecidablePred (Live bitmap) := fun _ => instDecidableEqBool _ _

include space in
lemma Space.width_pos : 0 < w := by
  rcases space.width with rfl | rfl <;> decide

variable (hw : 0 < w)
include hw

lemma toNat_bitIndexToMask (i : ℕ) : (bitIndexToMask w i).toNat = 2 ^ (i % w) := by
  have hlt : 2 ^ (i % w) < 2 ^ w := Nat.pow_lt_pow_right (by decide) (Nat.mod_lt i hw)
  rw [bitIndexToMask, BitVec.toNat_shiftLeft, BitVec.toNat_one hw, Nat.shiftLeft_eq, one_mul,
    Nat.mod_eq_of_lt hlt]

/-- A mask without its bit is that of the bits below. -/
lemma getLsbD_bitIndexToMask_sub_one (i j : ℕ) :
    (bitIndexToMask w i - 1).getLsbD j = decide (j < i % w) := by
  have hmask := toNat_bitIndexToMask hw i
  have hpos := Nat.two_pow_pos (i % w)
  have hone : (1 : BitVec w).toNat = 1 := BitVec.toNat_one hw
  have hle : (1 : BitVec w) ≤ bitIndexToMask w i := by
    rw [BitVec.le_def, hone, hmask]
    omega
  rw [getLsbD, BitVec.toNat_sub_of_le hle, hone, hmask, Nat.testBit_two_pow_sub_one]

lemma getLsbD_bitIndexToMask (i j : ℕ) : (bitIndexToMask w i).getLsbD j = decide (j = i % w) := by
  rw [getLsbD, toNat_bitIndexToMask hw, Nat.testBit_two_pow]
  exact decide_eq_decide.2 eq_comm

lemma getLsbD_endMask (i j : ℕ) :
    (bitIndexToMask w i ||| (bitIndexToMask w i - 1)).getLsbD j = decide (j ≤ i % w) := by
  rw [getLsbD_or, getLsbD_bitIndexToMask hw, getLsbD_bitIndexToMask_sub_one hw, ← Bool.decide_or]
  exact decide_eq_decide.2 (by omega)

lemma getLsbD_beginMask (i : ℕ) {j : ℕ} (hj : j < w) :
    (~~~(bitIndexToMask w i - 1)).getLsbD j = decide (i % w ≤ j) := by
  rw [BitVec.getLsbD_not, getLsbD_bitIndexToMask_sub_one hw, decide_eq_true hj, ← decide_not]
  exact decide_eq_decide.2 not_lt

omit hw

lemma le_iff_div_mod (a b w : ℕ) : a ≤ b ↔ a / w < b / w ∨ a / w = b / w ∧ a % w ≤ b % w := by
  have ha := Nat.div_add_mod a w
  have hb := Nat.div_add_mod b w
  rcases lt_trichotomy (a / w) (b / w) with h | h | h
  · exact ⟨fun _ => .inl h, fun _ => (Nat.lt_of_div_lt_div h).le⟩
  · rw [h] at ha ⊢
    omega
  · have := Nat.lt_of_div_lt_div h
    omega

/-- `SetLiveWords` sets the bits from the first word of the object to the last one. -/
lemma live_setLiveWords (objBegin size i : ℕ)
    (hle : bitIndexFromAddr space objBegin ≤ bitIndexFromAddr space (objBegin + size - kAlignment)) :
    Live (setLiveWords space bitmap objBegin size).1 i ↔ Live bitmap i ∨
      bitIndexFromAddr space objBegin ≤ i ∧ i ≤ bitIndexFromAddr space (objBegin + size - kAlignment) := by
  have hw := space.width_pos
  have hi := Nat.mod_lt i hw
  unfold setLiveWords
  generalize bitIndexFromAddr space objBegin = b at hle ⊢
  generalize bitIndexFromAddr space _ = e at hle ⊢
  rw [le_iff_div_mod b e w] at hle
  rw [le_iff_div_mod, le_iff_div_mod i e w, Live, Live]
  -- a word before, the first one, one in between, the last one, and one after
  by_cases hwords : b / w < e / w
  · rw [if_pos hwords]
    dsimp only
    rcases eq_or_ne (i / w) (e / w) with he | he
    · rw [he, update_self, if_neg (fun h => lt_irrefl _ h.2),
        update_of_ne hwords.ne', getLsbD_or, getLsbD_and,
        BitVec.getLsbD_allOnes, getLsbD_endMask hw, decide_eq_true hi]
      simp only [Bool.true_and, Bool.or_eq_true, decide_eq_true_eq, true_and]
      exact or_congr_right (by omega)
    · rw [update_of_ne he]
      split_ifs with hbetween
      · rw [BitVec.getLsbD_allOnes, decide_eq_true hi]
        exact iff_of_true rfl (.inr (by omega))
      · rcases eq_or_ne (i / w) (b / w) with hb | hb
        · rw [hb, update_self, getLsbD_or, getLsbD_beginMask hw b hi]
          simp only [Bool.or_eq_true, decide_eq_true_eq, true_and]
          exact or_congr_right (by omega)
        · rw [update_of_ne hb]
          exact (or_iff_left (by omega)).symm
  · rw [if_neg hwords]
    dsimp only
    rcases eq_or_ne (i / w) (e / w) with he | he
    · rw [he, update_self, getLsbD_or, getLsbD_and, getLsbD_endMask hw, getLsbD_beginMask hw b hi]
      simp only [Bool.or_eq_true, Bool.and_eq_true, decide_eq_true_eq, true_and]
      exact or_congr_right (by omega)
    · rw [update_of_ne he]
      exact (or_iff_left (by omega)).symm

/-- The bits of a word below an index. -/
lemma countLiveWordsUpto_eq (hw : 0 < w) (bitmap : ℕ → BitVec w) (bitIdx : ℕ) :
    countLiveWordsUpto bitmap bitIdx =
      Nat.count (fun i => Live bitmap (bitIdx / w * w + i)) (bitIdx % w) := by
  have hlt := Nat.mod_lt bitIdx hw
  have hbits : ∀ i, (bitmap (bitIdx / w) &&& (bitIndexToMask w bitIdx - 1)).getLsbD i = true ↔
      (bitmap (bitIdx / w)).getLsbD i = true ∧ i < bitIdx % w := by
    intro i
    rw [getLsbD_and, getLsbD_bitIndexToMask_sub_one hw, Bool.and_eq_true, decide_eq_true_eq]
  have habove : Nat.count (fun k => (bitmap (bitIdx / w) &&& (bitIndexToMask w bitIdx - 1)).getLsbD
      (bitIdx % w + k) = true) (w - bitIdx % w) = 0 :=
    Nat.count_iff_forall_not.2 fun k _ hk => by
      have := ((hbits _).1 hk).2
      omega
  have hsplit := Nat.count_add (fun k => (bitmap (bitIdx / w) &&&
    (bitIndexToMask w bitIdx - 1)).getLsbD k = true) (bitIdx % w) (w - bitIdx % w)
  rw [habove, add_zero, Nat.add_sub_of_le hlt.le] at hsplit
  rw [countLiveWordsUpto, popcount, hsplit]
  refine Counting.count_congr fun i hi => (hbits i).trans ?_
  rw [Live, mul_comm, Nat.mul_add_mod, Nat.mod_eq_of_lt (hi.trans hlt), Nat.mul_add_div hw,
    Nat.div_eq_of_lt (hi.trans hlt), add_zero]
  exact and_iff_left hi

/-! ## The bytes of an object -/

/-- All chunks but the last one are full. -/
lemma addChunks_spec (hw : 0 < w) (vec : ℕ → ℕ) (chunkIdx size : ℕ) :
    ∃ lastIdx lastSize, addChunks w (vec, chunkIdx, size) =
        some (fun j => if chunkIdx ≤ j ∧ j < lastIdx then kOffsetChunkSize w else vec j, lastIdx,
          lastSize) ∧ chunkIdx ≤ lastIdx ∧ lastSize ≤ kOffsetChunkSize w ∧
      lastIdx * kOffsetChunkSize w + lastSize = chunkIdx * kOffsetChunkSize w + size := by
  have hK : 0 < kOffsetChunkSize w := Nat.mul_pos hw (by decide)
  obtain ⟨⟨vec', lastIdx, lastSize⟩, hrun, ⟨hidx, hvec, hsize⟩, hcond⟩ := Loop.whileM_rule
    (fun s : (ℕ → ℕ) × ℕ × ℕ => decide (kOffsetChunkSize w < s.2.2))
    (fun s => some (update s.1 s.2.1 _, s.2.1 + 1, s.2.2 - kOffsetChunkSize w))
    (P := fun s => chunkIdx ≤ s.2.1 ∧
      s.1 = (fun j => if chunkIdx ≤ j ∧ j < s.2.1 then kOffsetChunkSize w else vec j) ∧
      s.2.1 * kOffsetChunkSize w + s.2.2 = chunkIdx * kOffsetChunkSize w + size)
    (fun s => s.2.2)
    (by
      rintro ⟨v, k, n⟩ ⟨hk, hv, hn⟩ hcond
      replace hcond : kOffsetChunkSize w < n := of_decide_eq_true hcond
      dsimp only at hk hv hn
      refine ⟨_, rfl, ⟨by dsimp only; omega, ?_, ?_⟩, by dsimp only; omega⟩
      · funext j
        dsimp only
        rw [hv, update_apply]
        rcases eq_or_ne j k with rfl | hj
        · rw [if_pos rfl, if_pos ⟨hk, Nat.lt_succ_self j⟩]
        · rw [if_neg hj]
          exact if_congr (by omega) rfl rfl
      · dsimp only
        rw [Nat.succ_mul]
        omega)
    (s := (vec, chunkIdx, size))
    ⟨le_rfl, funext fun j => (if_neg (by dsimp only; omega)).symm, rfl⟩ le_rfl
  have hle : lastSize ≤ kOffsetChunkSize w := not_lt.1 (of_decide_eq_false hcond)
  exact ⟨lastIdx, lastSize, by rw [← hvec]; exact hrun, hidx, hle, hsize⟩

/-- The vector counts what the bitmap has. -/
def Info.Agrees (info : Info w) : Prop :=
  ∀ j, info.chunkInfoVec j = kAlignment * Nat.count (fun i => Live info.liveWordsBitmap (j * w + i)) w

include space in
/-- The vector after an object of `n` words at the bit `b` was added, if what it had in chunks inside of
    the object was nothing. -/
lemma addObject_vec {vec : ℕ → ℕ} {b n : ℕ} (hvec : ∀ j, vec j ≤ kOffsetChunkSize w)
    (hzero : ∀ j, b ≤ j * w → j * w + w ≤ b + n → vec j = 0) : ∃ vec' lastIdx lastSize,
      addChunks w (addTo vec (b / w) (min (n * kAlignment) ((w - b % w) * kAlignment)), b / w + 1,
        n * kAlignment - min (n * kAlignment) ((w - b % w) * kAlignment)) = some (vec', lastIdx, lastSize) ∧
      ∀ j, addTo vec' lastIdx lastSize j = vec j + kAlignment * (min w (b + n - j * w) - (b - j * w)) := by
  obtain ⟨lastIdx, lastSize, hrun, hidx, hlast, hsum⟩ := addChunks_spec space.width_pos
    (addTo vec (b / w) (min (n * kAlignment) ((w - b % w) * kAlignment))) (b / w + 1)
    (n * kAlignment - min (n * kAlignment) ((w - b % w) * kAlignment))
  refine ⟨_, _, _, hrun, fun j => ?_⟩
  have hj := hvec j
  have hjzero := hzero j
  rw [addTo, update_apply]
  -- the last chunk, the first one, those in between, and the others
  rcases eq_or_ne j lastIdx with rfl | hne
  · rw [if_pos rfl, if_neg (fun h => lt_irrefl j h.2), addTo, update_of_ne (by omega)]
    rcases space.width with rfl | rfl <;> unfold kOffsetChunkSize kAlignment at * <;> omega
  · rw [if_neg hne]
    rcases eq_or_ne j (b / w) with rfl | hfirst
    · rw [if_neg (fun h => by omega), addTo, update_self]
      rcases space.width with rfl | rfl <;> unfold kOffsetChunkSize kAlignment at * <;> omega
    · rw [addTo, update_of_ne hfirst]
      rcases space.width with rfl | rfl <;> unfold kOffsetChunkSize kAlignment at * <;>
        split_ifs <;> omega

/-! ## One object -/

/-- An object below `black_allocations_begin_`. -/
structure LiveObject where
  objBegin : ℕ
  objSize : ℕ
  dvd_objBegin : kAlignment ∣ objBegin
  objSize_pos : 0 < objSize
  spaceBegin_le : space.spaceBegin ≤ objBegin
  end_le : objBegin + objSize ≤ space.blackAllocationsBegin

namespace LiveObject

variable {space} (o : LiveObject space)

/-- The first word of the object. -/
def firstWord : ℕ := bitIndexFromAddr space o.objBegin

/-- The number of words of the object. -/
def words : ℕ := (o.objSize + kAlignment - 1) / kAlignment

/-- The words of the object. -/
def Covers (i : ℕ) : Prop := o.firstWord ≤ i ∧ i < o.firstWord + o.words

instance : DecidablePred o.Covers := fun _ => instDecidableAnd

lemma words_pos : 0 < o.words := by
  have := o.objSize_pos
  unfold words kAlignment
  omega

lemma objBegin_eq : o.objBegin = space.spaceBegin + kAlignment * o.firstWord := by
  have hle := o.spaceBegin_le
  have hdvd := o.dvd_objBegin
  have hpage : kAlignment ∣ space.spaceBegin := Dvd.dvd.trans (by decide) space.dvd_spaceBegin
  rw [firstWord, bitIndexFromAddr, Nat.mul_div_cancel' (Nat.dvd_sub hdvd hpage)]
  omega

lemma bitIndexFromAddr_end : bitIndexFromAddr space (o.objBegin + o.words * kAlignment - kAlignment) =
      o.firstWord + o.words - 1 := by
  have hbegin := o.objBegin_eq
  unfold bitIndexFromAddr
  unfold kAlignment at *
  omega

lemma chunkIdx_eq : (o.objBegin - space.spaceBegin) / kOffsetChunkSize w = o.firstWord / w := by
  rw [kOffsetChunkSize, mul_comm, ← Nat.div_div_eq_div_mul]
  rfl

end LiveObject

/-- `UpdateLivenessInfo` adds the words of an object, to the bitmap and to the vector. -/
lemma updateLivenessInfo_spec {info : Info w} (o : LiveObject space) (hagrees : info.Agrees)
    (hdisjoint : ∀ i, o.Covers i → ¬Live info.liveWordsBitmap i) :
    ∃ info', updateLivenessInfo space info o.objBegin o.objSize = some info' ∧ info'.Agrees ∧
      ∀ i, Live info'.liveWordsBitmap i ↔ Live info.liveWordsBitmap i ∨ o.Covers i := by
  have hlive : ∀ i, Live (setLiveWords space info.liveWordsBitmap o.objBegin
      (o.words * kAlignment)).1 i ↔ Live info.liveWordsBitmap i ∨ o.Covers i := by
    intro i
    have hpos := o.words_pos
    rw [live_setLiveWords, o.bitIndexFromAddr_end]
    · exact or_congr_right (and_congr_right fun _ => by omega)
    · rw [o.bitIndexFromAddr_end]
      exact Nat.le_sub_one_of_lt (Nat.lt_add_of_pos_right hpos)
  have hbound : ∀ j, info.chunkInfoVec j ≤ kOffsetChunkSize w := by
    intro j
    rw [hagrees, kOffsetChunkSize, mul_comm w]
    exact Nat.mul_le_mul_left _ (Nat.count_le _)
  have hzero : ∀ j, o.firstWord ≤ j * w → j * w + w ≤ o.firstWord + o.words → info.chunkInfoVec j = 0 := by
    intro j hbegin hend
    rw [hagrees, Nat.count_iff_forall_not.2, Nat.mul_zero]
    exact fun i hi => hdisjoint _ ⟨by omega, by omega⟩
  obtain ⟨vec, lastIdx, lastSize, hrun, hvec⟩ := addObject_vec space hbound hzero
  rcases hset : setLiveWords space _ o.objBegin _ with ⟨bitmap, first⟩
  rw [hset] at hlive
  obtain rfl : first = o.firstWord := by
    refine (congrArg Prod.snd hset).symm.trans ?_
    unfold setLiveWords
    dsimp only
    split_ifs <;> rfl
  refine ⟨⟨bitmap, addTo vec lastIdx lastSize⟩, ?_, fun j => ?_, hlive⟩
  · unfold updateLivenessInfo
    dsimp only
    rw [show (o.objSize + kAlignment - 1) / kAlignment = o.words from rfl, hset]
    rw [o.chunkIdx_eq, hrun]
    rfl
  · -- the words of the object in this chunk were not counted before
    dsimp only
    rw [hvec, hagrees, ← Counting.count_interval_add, ← Nat.mul_add, ← Counting.count_or]
    · exact congrArg _ (Counting.count_congr fun i _ => (hlive _).symm)
    · exact fun i _ h => hdisjoint _ h.2 h.1

end MarkCompact

end Art
