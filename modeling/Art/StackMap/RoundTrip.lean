import Art.StackMap.Encode
import Art.StackMap.StreamInv

/-!
# Stack maps are read back

Decoding the bytes of `Encode` gives the stack maps that were recorded.
-/

namespace Art

open InlineInfo (kIsLast kMore)

open DexRegisterLocation (ext packValue unpackValue)
open StackMap (kInlineInfoIndex)

open Parsing List StackMapStream CodeInfo Nat StackMap
open StackMapStream (beginMethod record recordMethod)

/-- What the format can hold: the offset of a column is a `uint16_t`, the bits of a table are
    counted by a `uint32_t`, and its rows from 0 to `kNoValue`; the index of a stack map is an
    `int32_t` in `DecodeDexRegisterMap`. -/
structure StackMapStream.Limits (s : StackMapStream) : Prop where
  numStackMaps : s.stackMaps.length < 2 ^ 31
  numRows : ∀ table ∈ s.bitTables, table.1 < kNoValue
  size : ∀ table ∈ s.bitTables, table.2.length < 2 ^ 32
  stackMaskBits : s.stackMasks.maxNumBits < 2 ^ 16
  dexRegisterMaskBits : s.dexRegisterMasks.maxNumBits < 2 ^ 16

variable {alignment : ℕ} {entries : List StackMapEntry}
  {changes : List (List (Option DexRegisterLocation))} {s : StackMapStream}

/-! ## The tables fit -/

variable {k : ℕ} {rows : List (List ℕ)}

lemma tableFits_of_length (hrows : RowsOk k rows) (hn : rows.length < kNoValue)
    (hsize : (encodeTable k rows).length < 2 ^ 32) : TableFits k rows := by
  refine ⟨hrows, hn, ?_⟩
  rw [← length_tableData hrows]
  rw [encodeTable, length_append] at hsize
  omega

variable {b : BitmapTableBuilder}

lemma bitmapsFit_of_length (hm : b.maxNumBits < 2 ^ 16) (hn : b.table.rows.length < kNoValue)
    (hsize : (encodeBitmaps b.maxNumBits b.table.rows).length < 2 ^ 32) : BitmapsFit b := by
  refine ⟨hm, hn, ?_⟩
  rw [encodeBitmaps, length_append, length_flatMap_const fun row _ => length_padRow ..] at hsize
  omega

lemma TableOk.rowsOk {bound : ℕ} (h : TableOk bound k rows) (hb : bound < 2 ^ 32) : RowsOk k rows := fun row hrow =>
  ⟨(h row hrow).1, fun v hv => ((h row hrow).2 v hv).elim id hb.trans_le'⟩

variable {i : ℕ}

lemma StackMapStream.Limits.numRows_lt (hl : s.Limits) (hi : i < 8) :
    (s.bitTables.getD i (0, [])).1 < kNoValue := by
  rw [getD_eq_getElem _ _ hi]
  exact hl.numRows _ (getElem_mem _)

lemma StackMapStream.Limits.size_lt (hl : s.Limits) (hi : i < 8) :
    (s.bitTables.getD i (0, [])).2.length < 2 ^ 32 := by
  rw [getD_eq_getElem _ _ hi]
  exact hl.size _ (getElem_mem _)

lemma StackMapStream.Limits.maxRows_lt (hl : s.Limits) : s.maxRows < 2 ^ 32 := by
  refine lt_of_lt_of_le ?_ kNoValue_lt.le
  simp only [maxRows, max_lt_iff]
  exact ⟨hl.numRows_lt (i := 1) (by decide), hl.numRows_lt (i := 3) (by decide),
    hl.numRows_lt (i := 4) (by decide), hl.numRows_lt (i := 5) (by decide),
    hl.numRows_lt (i := 6) (by decide), hl.numRows_lt (i := 7) (by decide)⟩

/-- The index of a row of a table within the limits is not `kNoValue`. -/
lemma SliceAt.lt_kNoValue {ρ : Type} {rows values : List ρ} (h : SliceAt rows i values)
    (hn : rows.length < kNoValue) : i < kNoValue := h.1.trans_lt hn

variable {n : ℕ}

/-- Each column of a stack map is a `uint32_t`. -/
lemma Complete.column_lt (h : Complete alignment entries changes s) (hl : s.Limits)
    (hi : i < entries.length) (hv : entries[i].Valid alignment n) {c : ℕ} (hc : c < 8) :
    (s.stackMaps.getD i []).getD c 0 < 2 ^ 32 := by
  have hrow := h.columns i hi
  have hstored := h.stored i hi
  have hslice : ∀ {ρ : Type} {rows values : List ρ} {v : ℕ}, SliceAt rows v values →
      rows.length < kNoValue → v < 2 ^ 32 := fun hs hn => (hs.lt_kNoValue hn).trans kNoValue_lt
  interval_cases c
  · have hkind : entries[i].kind.code < 2 ^ 32 := by cases entries[i].kind <;> decide
    exact hrow.kind ▸ hkind
  · exact hrow.nativePc ▸ (div_le_self ..).trans_lt hv.nativePc
  · exact hrow.dexPc ▸ hv.dexPc
  · have hr := hrow.registerMask
    split at hr
    · exact hr ▸ kNoValue_lt
    · exact hslice hr (hl.numRows_lt (i := 1) (by decide))
  · rcases h.stackMask i hi with ⟨hm, -⟩ | hm
    · exact hm ▸ kNoValue_lt
    · exact hslice hm (hl.numRows_lt (i := 2) (by decide))
  · have hr := hrow.inlineInfos
    split at hr
    · exact hr ▸ kNoValue_lt
    · obtain ⟨rows, hrows, -⟩ := hr
      exact hslice hrows (hl.numRows_lt (i := 3) (by decide))
  · rcases hstored.mask with ⟨hm, -⟩ | hm
    · exact hm ▸ kNoValue_lt
    · exact hslice hm (hl.numRows_lt (i := 5) (by decide))
  · by_cases h0 : entries[i].allRegisters = []
    · exact hrow.registers h0 ▸ kNoValue_lt
    · have hne : changes.getD i [] ≠ [] := by rwa [← length_pos_iff, h.lengthStored i hi, length_pos_iff]
      obtain ⟨rows, hrows, -⟩ := hstored.map hne
      exact hslice hrows (hl.numRows_lt (i := 6) (by decide))

lemma Complete.rowsOk (h : Complete alignment entries changes s) (hl : s.Limits)
    (hv : ∀ e ∈ entries, e.Valid alignment n) : RowsOk 8 s.stackMaps := by
  intro row hrow
  obtain ⟨i, hi, rfl⟩ := getElem_of_mem hrow
  have hi' : i < entries.length := h.length ▸ hi
  have hlen := (h.columns i hi').length
  rw [getD_eq_getElem _ _ hi] at hlen
  refine ⟨hlen, fun v hv' => ?_⟩
  obtain ⟨c, hc, rfl⟩ := getElem_of_mem hv'
  have := h.column_lt hl hi' (hv _ (getElem_mem hi')) (hlen ▸ hc)
  rwa [getD_eq_getElem _ _ hi, getD_eq_getElem] at this

/-- The tables of a method within the limits can be encoded. -/
lemma fits_recordMethod {rowHash : List (List ℕ) → ℕ} {bitmapHash : List (List Bool) → ℕ}
    {m : MethodEntry} (hm : m.Valid alignment)
    (hl : (recordMethod alignment rowHash bitmapHash m).Limits) :
    (recordMethod alignment rowHash bitmapHash m).Fits := by
  obtain ⟨changes, h, hsize, hfields⟩ := complete_recordMethod rowHash bitmapHash hm
  have hb := hl.maxRows_lt
  have ht := h.tables
  simp only [methodFields, Prod.mk.injEq] at hfields
  obtain ⟨hframe, hcore, hfp, hregs, -⟩ := hfields
  exact {
    stackMaps := tableFits_of_length (h.rowsOk hl hm.stackMaps) (hl.numRows_lt (i := 0) (by decide))
      (hl.size_lt (i := 0) (by decide))
    registerMasks := tableFits_of_length (ht.registerMasks.rowsOk hb)
      (hl.numRows_lt (i := 1) (by decide)) (hl.size_lt (i := 1) (by decide))
    stackMasks := bitmapsFit_of_length hl.stackMaskBits (hl.numRows_lt (i := 2) (by decide))
      (hl.size_lt (i := 2) (by decide))
    inlineInfos := tableFits_of_length (ht.inlineInfos.rowsOk hb)
      (hl.numRows_lt (i := 3) (by decide)) (hl.size_lt (i := 3) (by decide))
    methodInfos := tableFits_of_length (ht.methodInfos.rowsOk hb)
      (hl.numRows_lt (i := 4) (by decide)) (hl.size_lt (i := 4) (by decide))
    dexRegisterMasks := bitmapsFit_of_length hl.dexRegisterMaskBits
      (hl.numRows_lt (i := 5) (by decide)) (hl.size_lt (i := 5) (by decide))
    dexRegisterMaps := tableFits_of_length (ht.dexRegisterMaps.rowsOk hb)
      (hl.numRows_lt (i := 6) (by decide)) (hl.size_lt (i := 6) (by decide))
    dexRegisterCatalog := tableFits_of_length (ht.dexRegisterCatalog.rowsOk hb)
      (hl.numRows_lt (i := 7) (by decide)) (hl.size_lt (i := 7) (by decide))
    codeSize := hsize ▸ hm.codeSize
    packedFrameSize := hframe ▸ (div_le_self ..).trans_lt hm.frameSizeInBytes
    coreSpillMask := hcore ▸ hm.coreSpillMask
    fpSpillMask := hfp ▸ hm.fpSpillMask
    numDexRegisters := hregs ▸ hm.numDexRegisters }

/-! ## Masks -/

lemma shiftLeft_shiftRight_leastSignificantBit (m : ℕ) :
    (m >>> leastSignificantBit m) <<< leastSignificantBit m = m := by
  refine Nat.eq_of_testBit_eq fun j => ?_
  rw [Nat.testBit_shiftLeft, Nat.testBit_shiftRight]
  by_cases hj : leastSignificantBit m ≤ j
  · rw [decide_eq_true hj, Bool.true_and, Nat.add_sub_cancel' hj]
  · have hlt : j < leastSignificantBit m := by omega
    have hbit : m.testBit j = false := by
      have hlt' := hlt
      have hnot := not_of_lt_findIdx hlt'
      rwa [getElem_range] at hnot
    rw [decide_eq_false hj, Bool.false_and, hbit]

lemma getD_padRow {m : ℕ} {row : List Bool} (h : ∀ i, m ≤ i → row.getD i false = false) (i : ℕ) :
    (padRow m row).getD i false = row.getD i false := by
  by_cases hi : m ≤ i
  · rw [h i hi, getD_eq_default _ _ (by rwa [length_padRow])]
  · rw [padRow, getD_append_replicate, getD_eq_getElem?_getD, getElem?_take,
      if_pos (by omega), getD_eq_getElem?_getD]

/-- The bits of a mask are read back from a table of bitmaps. -/
lemma getD_region (hok : b.Ok) (hfits : BitmapsFit b) {index : ℕ} {mask : List Bool}
    (h : SliceAt b.table.rows index [rawStorage mask (getNumberOfBits mask)]) (i : ℕ) :
    ((storedBitmaps b).getBitMemoryRegion index).getD i false = mask.getD i false := by
  have hlt : index < b.table.rows.length := h.length_le
  have hrow := h.getD (k := 0) zero_lt_one []
  rw [add_zero, getD_cons_zero] at hrow
  rw [region_storedBitmaps hfits hlt, hrow, getD_padRow, getD_rawStorage]
  rw [← hrow, getD_eq_getElem _ _ hlt]
  exact hok _ (getElem_mem hlt)

/-! ## Changes of registers -/

variable {α : Type}

lemma length_reduceOption_eq_count (l : List (Option α)) :
    l.reduceOption.length = (l.map Option.isSome).count true := by
  induction l with
  | nil => rfl
  | cons o l ih =>
    rcases o with _ | x
    · simpa [reduceOption_cons_of_none] using ih
    · simpa [reduceOption_cons_of_some] using ih

lemma getD_map_isSome (l : List (Option α)) (i : ℕ) :
    (l.map Option.isSome).getD i false = (l.getD i none).isSome := by
  rw [getD_eq_getElem?_getD, getElem?_map, getD_eq_getElem?_getD]
  rcases l[i]? with _ | _ <;> rfl

variable {l : List (Option α)} {x : α}

lemma lt_length_of_getD (h : l.getD n none = some x) : n < l.length := by
  by_contra hn
  rw [getD_eq_default _ _ (by omega)] at h
  cases h

lemma mem_of_getD (h : l.getD n none = some x) : some x ∈ l := by
  rw [← h, getD_eq_getElem _ _ (lt_length_of_getD h)]
  exact getElem_mem _

/-- The place of a change among the changes. -/
lemma getD_reduceOption (h : l.getD n none = some x) :
    (l.take n).reduceOption.length < l.reduceOption.length ∧
      ∀ d, l.reduceOption.getD (l.take n).reduceOption.length d = x := by
  have hn := lt_length_of_getD h
  rw [getD_eq_getElem _ _ hn] at h
  have hl : l.reduceOption = (l.take n).reduceOption ++ x :: (l.drop (n + 1)).reduceOption := by
    conv_lhs => rw [← take_append_drop n l, drop_eq_getElem_cons hn, h,
      reduceOption_append, reduceOption_cons_of_some]
  rw [hl, length_append, length_cons]
  exact ⟨by omega, fun d => by
    rw [getD_append_right _ _ _ _ le_rfl, Nat.sub_self, getD_cons_zero]⟩

lemma take_eq_of_getD {l l' : List Bool} (h : ∀ i, l.getD i false = l'.getD i false)
    (hn : n ≤ l.length) (hn' : n ≤ l'.length) : l.take n = l'.take n := by
  refine ext_getElem (by rw [length_take, length_take]; omega) fun i hi hi' => ?_
  have heq := h i
  rw [getD_eq_getElem, getD_eq_getElem] at heq
  rwa [getElem_take, getElem_take]

variable {loc : DexRegisterLocation}

lemma unpackValue_packValue (h : loc.Valid) : unpackValue loc.kind (packValue loc.kind loc.value) =
      loc.value := by
  rw [unpackValue, packValue]
  split
  case isTrue hk => rw [Nat.div_mul_cancel (h.inStack hk), Nat.mod_eq_of_lt h.value]
  case isFalse => rfl

/-- A location is read back from the catalog. -/
lemma getDexRegisterCatalogEntry_eq (hf : s.Fits) (hloc : loc.Valid) {row : List ℕ}
    (h : CatalogIndex s.dexRegisterCatalog.rows loc row) :
    s.codeInfo.getDexRegisterCatalogEntry (row.getD 0 0) = loc := by
  obtain ⟨index, rfl, hindex⟩ := h
  rw [getDexRegisterCatalogEntry, getD_cons_zero]
  split at hindex
  case isTrue =>
    have hrow := hindex.getD (k := 0) zero_lt_one []
    rw [add_zero, getD_cons_zero] at hrow
    have hget : ∀ c < 2, s.codeInfo.dexRegisterCatalog.get index c =
        (catalogRow loc).getD c 0 := fun c hc =>
      (get_storedTable hf.dexRegisterCatalog hindex.length_le hc).trans (by rw [hrow])
    have hkind : DexRegisterLocation.Kind.ofCode (s.codeInfo.dexRegisterCatalog.get index 0) = loc.kind := by
      rw [hget 0 (by decide)]
      exact DexRegisterLocation.Kind.ofCode_code _
    rw [if_neg (hindex.lt_kNoValue hf.dexRegisterCatalog.numRows).ne, hkind, hget 1 (by decide)]
    exact ext rfl (unpackValue_packValue hloc)
  case isFalse hlive =>
    have hkind : loc.kind = .none := by simpa [DexRegisterLocation.isLive] using hlive
    rw [if_pos hindex]
    exact ext hkind.symm (hloc.none hkind).symm

/-- A stack map with registers has those of the method. -/
lemma StackMapEntry.Valid.registers_length {e : StackMapEntry} (h : e.Valid alignment n)
    (hne : e.allRegisters ≠ []) : e.registers.length = n := by
  rw [h.length]
  cases hneeds : e.needsVregInfo with
  | true => rfl
  | false =>
    refine absurd (append_eq_nil_iff.2 ⟨?_, ?_⟩) hne
    · rw [← length_eq_zero_iff, h.length, hneeds]
      rfl
    · exact flatMap_eq_nil_iff.2 fun i hi => h.noVregInfo hneeds i hi

lemma map_getD_range {l : List α} {f : ℕ → α} {d : α} (h : ∀ j < l.length, f j = l.getD j d) :
    (List.range l.length).map f = l := by
  refine ext_getElem (by simp) fun j hj hj' => ?_
  rw [getElem_map, getElem_range, h j hj', getD_eq_getElem]

/-- The rows of inline infos up to the last one. -/
lemma inlineInfosFrom_eq {c : CodeInfo} {fuel row : ℕ} (hn : n < fuel)
    (hmore : ∀ k < n, c.inlineInfos.get (row + k) kIsLast = kMore)
    (hlast : c.inlineInfos.get (row + n) kIsLast ≠ kMore) :
    c.inlineInfosFrom fuel row = range' row (n + 1) := by
  induction n generalizing fuel row with
  | zero =>
    obtain ⟨fuel, rfl⟩ : ∃ f, fuel = f + 1 := ⟨fuel - 1, by omega⟩
    rw [add_zero] at hlast
    rw [inlineInfosFrom, if_neg hlast]
    rfl
  | succ n ih =>
    obtain ⟨fuel, rfl⟩ : ∃ f, fuel = f + 1 := ⟨fuel - 1, by omega⟩
    have hfirst := hmore 0 (succ_pos n)
    rw [add_zero] at hfirst
    rw [inlineInfosFrom, if_pos hfirst, range'_succ]
    refine congrArg _ (ih (by omega) (fun k hk => ?_) ?_)
    · rw [add_right_comm, add_assoc]
      exact hmore (k + 1) (by omega)
    · rwa [add_right_comm, add_assoc]

variable (e : StackMapEntry) (hk : k < e.inlineInfos.length)

lemma StackMapEntry.registerCount_succ :
    e.registerCount (k + 1) = e.registerCount k + e.inlineInfos[k].registers.length := by
  rw [registerCount, registerCount, map_take, map_take,
    sum_take_succ _ _ (by simpa using hk), getElem_map, add_assoc]

/-- The registers of the inlined frame `k` come after those of the frames before it. -/
lemma StackMapEntry.allRegisters_eq :
    ∃ before after, e.allRegisters = before ++ (e.inlineInfos[k].registers ++ after) ∧
      before.length = e.registerCount k := by
  refine ⟨e.registers ++ (e.inlineInfos.take k).flatMap (·.registers),
    (e.inlineInfos.drop (k + 1)).flatMap (·.registers), ?_, ?_⟩
  · rw [allRegisters, ← flatMap_cons, ← drop_eq_getElem_cons hk, append_assoc,
      ← flatMap_append, take_append_drop]
  · rw [length_append, length_flatMap, registerCount]

lemma StackMapEntry.registerCount_le (hk : k < e.inlineInfos.length) :
    e.registerCount (k + 1) ≤ e.allRegisters.length := by
  obtain ⟨before, after, heq, hlen⟩ := e.allRegisters_eq hk
  rw [heq, e.registerCount_succ hk, length_append, length_append, hlen]
  omega

lemma StackMapEntry.getD_allRegisters {j : ℕ} (hk : k < e.inlineInfos.length)
    (hj : j < e.inlineInfos[k].registers.length) :
    e.allRegisters.getD (e.registerCount k + j) .none = e.inlineInfos[k].registers.getD j .none := by
  obtain ⟨before, after, heq, hlen⟩ := e.allRegisters_eq hk
  rw [heq, ← hlen, getD_append_right _ _ _ _ (Nat.le_add_right ..), Nat.add_sub_cancel_left,
    getD_append _ _ _ _ hj]

section

variable (h : Complete alignment entries changes s) (hf : s.Fits) {i : ℕ} (hi : i < entries.length)

include h hf hi

lemma Complete.get_stackMaps {c : ℕ} (hc : c < 8) :
    s.codeInfo.stackMaps.get i c = (s.stackMaps.getD i []).getD c 0 :=
  get_storedTable hf.stackMaps (h.length ▸ hi) hc

lemma Complete.getRegisterMaskOf {n : ℕ} (hv : entries[i].Valid alignment n) :
    s.codeInfo.getRegisterMaskOf i = entries[i].registerMask := by
  have hr := (h.columns i hi).registerMask
  rw [CodeInfo.getRegisterMaskOf, h.get_stackMaps hf hi (by decide)]
  split at hr
  case isTrue h0 => rw [if_pos hr, h0]
  case isFalse h0 =>
    have hrow := hr.getD (k := 0) zero_lt_one []
    rw [add_zero, getD_cons_zero] at hrow
    have hget : ∀ c < 2, s.codeInfo.registerMasks.get
        ((s.stackMaps.getD i []).getD kRegisterMaskIndex 0) c =
          (registerMaskRow entries[i].registerMask).getD c 0 := fun c hc =>
      (get_storedTable hf.registerMasks hr.length_le hc).trans (by rw [hrow])
    rw [if_neg (hr.lt_kNoValue hf.registerMasks.numRows).ne, hget 0 (by decide), hget 1 (by decide)]
    show (entries[i].registerMask >>> leastSignificantBit _) <<<
      leastSignificantBit _ % 2 ^ 32 = _
    rw [shiftLeft_shiftRight_leastSignificantBit, mod_eq_of_lt hv.registerMask]

lemma Complete.getStackMaskOf (b : ℕ) : (s.codeInfo.getStackMaskOf i).getD b false =
    (entries[i].stackMask.getD []).getD b false := by
  rw [CodeInfo.getStackMaskOf, h.get_stackMaps hf hi (by decide)]
  rcases h.stackMask i hi with ⟨hno, hnone⟩ | hat
  · rw [if_pos hno, hnone]
    rfl
  · rw [if_neg (hat.lt_kNoValue hf.stackMasks.numRows).ne]
    exact getD_region h.stackMasks hf.stackMasks hat b

/-- The location of a change is found by counting the changes before it. -/
lemma Complete.getD_dexRegisterMaps {reg : ℕ} {loc : DexRegisterLocation}
    (hloc : (changes.getD i []).getD reg none = some loc) :
    s.codeInfo.getDexRegisterCatalogEntry (s.codeInfo.dexRegisterMaps.get
      ((s.stackMaps.getD i []).getD kDexRegisterMapIndex 0 +
        ((changes.getD i []).take reg).reduceOption.length)) = loc := by
  have hstored := h.stored i hi
  have hvalid := h.valid i hi
  generalize changes.getD i [] = cs at *
  obtain ⟨hlt, hget⟩ := getD_reduceOption hloc
  have hne : cs ≠ [] := by
    rintro rfl
    cases hloc
  obtain ⟨rows, hat, hrows⟩ := hstored.map hne
  have hlt' := hrows.length_eq ▸ hlt
  have hindex := hrows.get hlt hlt'
  have hle := hat.length_le
  have hrow := hat.getD hlt' []
  have hloc' : cs.reduceOption.get ⟨_, hlt⟩ = loc := by
    rw [← hget loc, getD_eq_getElem, get_eq_getElem]
  rw [hloc', get_eq_getElem, ← getD_eq_getElem, ← hrow] at hindex
  rw [show s.codeInfo.dexRegisterMaps.get _ = _ from
    get_storedTable hf.dexRegisterMaps (by omega) zero_lt_one]
  exact getDexRegisterCatalogEntry_eq hf (hvalid loc (mem_of_getD hloc)) hindex

/-- The changes of a stack map are read back. -/
lemma Complete.change_eq (reg : ℕ) : s.codeInfo.change i reg = history changes i reg := by
  have hstored := h.stored i hi
  rw [change, h.get_stackMaps hf hi (by decide), h.get_stackMaps hf hi (by decide), history]
  rcases hstored.mask with ⟨hno, hnone⟩ | hat
  · rw [if_pos hno]
    rcases hc : (changes.getD i []).getD reg none with _ | loc
    · rfl
    · cases hnone _ (mem_of_getD hc)
  have hbit : ∀ b, (s.codeInfo.dexRegisterMasks.getBitMemoryRegion
      ((s.stackMaps.getD i []).getD kDexRegisterMaskIndex 0)).getD b false =
        ((changes.getD i []).map Option.isSome).getD b false :=
    getD_region h.tables.dexRegisterMasks hf.dexRegisterMasks hat
  rw [if_neg (hat.lt_kNoValue hf.dexRegisterMasks.numRows).ne]
  generalize s.codeInfo.dexRegisterMasks.getBitMemoryRegion _ = mask at hbit ⊢
  dsimp only
  rw [hbit, getD_map_isSome]
  rcases hc : (changes.getD i []).getD reg none with _ | loc
  · rfl
  · have hlt := lt_length_of_getD hc
    have hmask : reg < mask.length := by
      by_contra hmask
      have hreg := hbit reg
      rw [getD_eq_default _ _ (by omega), getD_map_isSome, hc] at hreg
      cases hreg
    have hcount : (mask.take reg).count true = ((changes.getD i []).take reg).reduceOption.length := by
      rw [take_eq_of_getD hbit hmask.le (by rw [length_map]; exact hlt.le),
        length_reduceOption_eq_count, map_take]
    rw [Option.isSome_some, if_pos rfl, hcount, h.getD_dexRegisterMaps hf hi hc]

/-- Any part of the registers of a stack map is read back. -/
lemma Complete.decodeDexRegisterMap (hi31 : i < 2 ^ 31) {first size : ℕ}
    (hle : first + size ≤ entries[i].allRegisters.length) : s.codeInfo.decodeDexRegisterMap i first size =
      (List.range size).map fun j => entries[i].allRegisters.getD (first + j) .none := by
  have hchange : ∀ m ≤ i, s.codeInfo.change m = history changes m := fun m hm =>
    funext fun reg => h.change_eq hf (hm.trans_lt hi) reg
  rw [decodeDexRegisterMap_eq hi31]
  · refine map_congr_left fun j hj => ?_
    have hj' := mem_range.1 hj
    have hlatest : Delta.latest s.codeInfo.change (i + 1) (first + j) =
        Delta.latest (history changes) (i + 1) (first + j) :=
      Delta.latest_congr fun m hm => congrFun (hchange m (by omega)) _
    rw [hlatest, h.registers i hi (first + j) (by omega)]
  · intro m hm reg loc hloc
    rw [hchange m hm] at hloc
    exact (h.valid m (hm.trans_lt hi) loc (mem_of_getD hloc)).kind

/-- A stack map has a register map if it has registers. -/
lemma Complete.dexRegisterMapIndex : s.codeInfo.stackMaps.get i kDexRegisterMapIndex = kNoValue ↔
      entries[i].allRegisters = [] := by
  rw [h.get_stackMaps hf hi (by decide)]
  refine ⟨fun hno => ?_, (h.columns i hi).registers⟩
  by_contra hne
  have hne' : changes.getD i [] ≠ [] := by rwa [← length_pos_iff, h.lengthStored i hi, length_pos_iff]
  obtain ⟨rows, hat, -⟩ := (h.stored i hi).map hne'
  exact (hat.lt_kNoValue hf.dexRegisterMaps.numRows).ne hno

lemma Complete.getDexRegisterMapOf (hi31 : i < 2 ^ 31) (hv : entries[i].Valid alignment s.numDexRegisters) :
    s.codeInfo.getDexRegisterMapOf i = entries[i].registers := by
  rw [CodeInfo.getDexRegisterMapOf, CodeInfo.getDexRegisterMapOfRange]
  by_cases hnil : entries[i].allRegisters = []
  · rw [if_pos ((h.dexRegisterMapIndex hf hi).2 hnil)]
    exact (append_eq_nil_iff.1 hnil).1.symm
  · rw [if_neg fun hno => hnil ((h.dexRegisterMapIndex hf hi).1 hno)]
    have hlen := hv.registers_length hnil
    have hle : 0 + s.numDexRegisters ≤ entries[i].allRegisters.length := by
      rw [← hlen, StackMapEntry.allRegisters, length_append]
      omega
    show s.codeInfo.decodeDexRegisterMap i 0 (s.numDexRegisters - 0) = _
    rw [Nat.sub_zero, h.decodeDexRegisterMap hf hi hi31 hle, ← hlen]
    refine map_getD_range (d := .none) fun j hj => ?_
    rw [zero_add, StackMapEntry.allRegisters, getD_append _ _ _ _ hj]

/-- The inline infos of a stack map: their rows, and what these hold. -/
lemma Complete.getInlineInfosOf : s.codeInfo.getInlineInfosOf i = range'
      (s.codeInfo.stackMaps.get i kInlineInfoIndex) entries[i].inlineInfos.length ∧
    ∀ k (hk : k < entries[i].inlineInfos.length), ∃ isLast row, InlineRow s.methodInfos.rows
        (entries[i].registerCount (k + 1)) entries[i].inlineInfos[k] isLast row ∧
      ∀ c < 6, s.codeInfo.inlineInfos.get
        (s.codeInfo.stackMaps.get i kInlineInfoIndex + k) c = row.getD c 0 := by
  have hr := (h.columns i hi).inlineInfos
  rw [CodeInfo.getInlineInfosOf, h.get_stackMaps hf hi (by decide)]
  generalize (s.stackMaps.getD i []).getD _ 0 = index at *
  split at hr
  case isTrue hnil =>
    rw [if_pos hr, hnil]
    exact ⟨rfl, fun k hk => absurd hk (not_lt_zero k)⟩
  case isFalse hne =>
    obtain ⟨rows, hat, hlen, hrows⟩ := hr
    have hle := hat.length_le
    have hget : ∀ k < rows.length, ∀ c < 6,
        s.codeInfo.inlineInfos.get (index + k) c = (rows.getD k []).getD c 0 := fun k hk c hc =>
      (get_storedTable hf.inlineInfos (by omega) hc).trans (by rw [hat.getD hk])
    have hlast : ∀ k < rows.length, s.codeInfo.inlineInfos.get (index + k) kIsLast =
        if k + 1 = entries[i].inlineInfos.length then InlineInfo.kLast else kMore := by
      intro k hk
      obtain ⟨_, _, _, hrow, -⟩ := hrows k (hlen ▸ hk)
      rw [hget k hk _ (by decide), hrow]
      rfl
    have hpos := length_pos_iff.2 hne
    refine ⟨?_, fun k hk => ?_⟩
    · rw [if_neg (hat.lt_kNoValue hf.inlineInfos.numRows).ne]
      obtain ⟨n, hn⟩ : ∃ n, rows.length = n + 1 := ⟨rows.length - 1, by omega⟩
      rw [← hlen, hn]
      refine inlineInfosFrom_eq ?_ (fun k hk => ?_) ?_
      · rw [show s.codeInfo.inlineInfos.numRows = s.inlineInfos.rows.length from numRows_storedTable]
        omega
      · rw [hlast k (by omega), if_neg (by omega)]
      · rw [hlast n (by omega), if_pos (by omega)]
        decide
    · exact ⟨_, _, hrows k hk, hget k (hlen ▸ hk)⟩

/-- The registers of an inlined frame are read back. -/
lemma Complete.getInlineDexRegisterMapOf (hi31 : i < 2 ^ 31)
    (hv : entries[i].Valid alignment s.numDexRegisters) {k : ℕ}
    (hk : k < entries[i].inlineInfos.length) : s.codeInfo.getInlineDexRegisterMapOf i
      (s.codeInfo.stackMaps.get i kInlineInfoIndex + k) = entries[i].inlineInfos[k].registers := by
  have hmap := h.dexRegisterMapIndex hf hi
  have hcount : ∀ k < entries[i].inlineInfos.length, s.codeInfo.inlineInfos.get
      (s.codeInfo.stackMaps.get i kInlineInfoIndex + k) InlineInfo.kNumberOfDexRegisters =
        entries[i].registerCount (k + 1) := fun k hk => by
    obtain ⟨_, _, ⟨_, _, _, rfl, -⟩, hcol⟩ := (h.getInlineInfosOf hf hi).2 k hk
    have hlt := (entries[i].registerCount_le hk).trans_lt hv.count
    rw [hcol _ (by decide)]
    exact Nat.mod_eq_of_lt hlt
  rw [CodeInfo.getInlineDexRegisterMapOf, CodeInfo.getDexRegisterMapOfRange]
  by_cases hnil : entries[i].allRegisters = []
  · rw [if_pos (hmap.2 hnil)]
    exact (flatMap_eq_nil_iff.1 (append_eq_nil_iff.1 hnil).2 _ (getElem_mem hk)).symm
  · rw [if_neg fun hno => hnil (hmap.1 hno), if_neg fun hno => hnil (hmap.1 hno)]
    generalize s.codeInfo.stackMaps.get i _ = row at hcount ⊢
    have hfirst : (if row + k - row = 0 then s.codeInfo.numberOfDexRegisters
        else s.codeInfo.inlineInfos.get (row + k - 1) InlineInfo.kNumberOfDexRegisters) =
          entries[i].registerCount k := by
      rw [Nat.add_sub_cancel_left]
      rcases k with _ | k
      · rw [if_pos rfl, StackMapEntry.registerCount, hv.registers_length hnil]
        rfl
      · rw [if_neg (Nat.succ_ne_zero k), ← add_assoc, Nat.add_sub_cancel, hcount k (by omega)]
    rw [hfirst, hcount k hk, entries[i].registerCount_succ hk, Nat.add_sub_cancel_left,
      h.decodeDexRegisterMap hf hi hi31 (entries[i].registerCount_succ hk ▸
        entries[i].registerCount_le hk)]
    exact map_getD_range fun j hj => entries[i].getD_allRegisters hk hj

end

/-! ## The round trip -/

/-- The row of the code info is the inlined frame of the stack map `i`. -/
structure ReadsInline (c : CodeInfo) (i row : ℕ) (e : InlineEntry) : Prop where
  dexPc : c.inlineInfos.get row InlineInfo.kDexPc = e.dexPc
  encodesArtMethod : c.encodesArtMethod row = e.method.encodeArtMethod
  artMethod : e.method.encodeArtMethod = true → c.getArtMethod row = e.method.address
  methodInfo : e.method.encodeArtMethod = false →
    c.getMethodInfoOf row = (e.method.dexMethodIndex, e.method.dexFile e.dexPc)
  registers : c.getInlineDexRegisterMapOf i row = e.registers

/-- The stack map `i` of the code info is the recorded one. -/
structure Reads (alignment : ℕ) (c : CodeInfo) (i : ℕ) (e : StackMapEntry) : Prop where
  kind : c.stackMaps.get i StackMap.kKind = e.kind.code
  nativePc : StackMap.unpackNativePc alignment (c.stackMaps.get i StackMap.kPackedNativePc) = e.nativePcOffset
  dexPc : c.stackMaps.get i StackMap.kDexPc = e.dexPc
  registerMask : c.getRegisterMaskOf i = e.registerMask
  stackMask : ∀ b, (c.getStackMaskOf i).getD b false = (e.stackMask.getD []).getD b false
  registers : c.getDexRegisterMapOf i = e.registers
  numInlineInfos : (c.getInlineInfosOf i).length = e.inlineInfos.length
  inlineInfos : ∀ k (hk : k < e.inlineInfos.length),
    ReadsInline c i ((c.getInlineInfosOf i).getD k 0) e.inlineInfos[k]

section

variable (h : Complete alignment entries changes s) (hf : s.Fits) {i : ℕ} (hi : i < entries.length)

include h hf hi

lemma Complete.readsInline (hi31 : i < 2 ^ 31) (hv : entries[i].Valid alignment s.numDexRegisters) {k : ℕ}
    (hk : k < entries[i].inlineInfos.length) :
    ReadsInline s.codeInfo i (s.codeInfo.stackMaps.get i kInlineInfoIndex + k)
      entries[i].inlineInfos[k] := by
  obtain ⟨_, _, ⟨index, hi', lo, rfl, hmethod⟩, hcol⟩ := (h.getInlineInfosOf hf hi).2 k hk
  have hvi := hv.inlineInfos _ (getElem_mem hk)
  have hregs := h.getInlineDexRegisterMapOf hf hi hi31 hv hk
  generalize s.codeInfo.stackMaps.get i _ + k = row at hcol hregs ⊢
  generalize entries[i].inlineInfos[k] = e at hcol hregs hmethod hvi ⊢
  have hdexPc := hcol 1 (by decide)
  have hindex : s.codeInfo.inlineInfos.get row InlineInfo.kMethodInfoIndex = index := hcol 2 (by decide)
  have hhi : s.codeInfo.inlineInfos.get row InlineInfo.kArtMethodHi = hi' := hcol 3 (by decide)
  have hlo : s.codeInfo.inlineInfos.get row InlineInfo.kArtMethodLo = lo := hcol 4 (by decide)
  cases hart : e.method.encodeArtMethod with
  | true =>
    rw [if_pos hart] at hmethod
    obtain ⟨-, rfl, rfl⟩ := hmethod
    refine ⟨hdexPc, ?_, fun _ => ?_, fun h' => ?_, hregs⟩
    · rw [encodesArtMethod, hlo, hart]
      exact decide_eq_true hvi.addressLow
    · have haddr := hvi.address
      rw [getArtMethod, hhi, hlo, Nat.mod_eq_of_lt (by omega),
        ← Nat.shiftLeft_add_eq_or_of_lt (Nat.mod_lt _ (Nat.two_pow_pos 32)), Nat.shiftLeft_eq,
        mul_comm, Nat.div_add_mod]
    · rw [hart] at h'
      cases h'
  | false =>
    rw [if_neg (by rw [hart]; exact Bool.false_ne_true)] at hmethod
    obtain ⟨hat, rfl, rfl⟩ := hmethod
    refine ⟨hdexPc, ?_, fun h' => ?_, fun _ => ?_, hregs⟩
    · rw [encodesArtMethod, hlo, hart]
      exact decide_eq_false (by simp)
    · rw [hart] at h'
      cases h'
    · have hrow := hat.getD (k := 0) Nat.zero_lt_one []
      rw [add_zero, getD_cons_zero] at hrow
      have hget : ∀ c < 3, s.codeInfo.methodInfos.get index c =
          (e.method.methodInfo e.dexPc).getD c 0 := fun c hc =>
        (get_storedTable hf.methodInfos hat.length_le hc).trans (by rw [hrow])
      rw [getMethodInfoOf, hindex, hget _ (by decide), hget _ (by decide), hget _ (by decide)]
      rfl

/-- Each stack map of the code info is the recorded one. -/
lemma Complete.reads (hi31 : i < 2 ^ 31) (hv : entries[i].Valid alignment s.numDexRegisters) :
    Reads alignment s.codeInfo i entries[i] := by
  have hrow := h.columns i hi
  have hinfos := (h.getInlineInfosOf hf hi).1
  refine ⟨?_, ?_, ?_, h.getRegisterMaskOf hf hi hv, h.getStackMaskOf hf hi,
    h.getDexRegisterMapOf hf hi hi31 hv, ?_, fun k hk => ?_⟩
  · rw [h.get_stackMaps hf hi (by decide), hrow.kind]
  · rw [h.get_stackMaps hf hi (by decide), hrow.nativePc, unpackNativePc,
      Nat.div_mul_cancel hv.aligned, Nat.mod_eq_of_lt hv.nativePc]
  · rw [h.get_stackMaps hf hi (by decide), hrow.dexPc]
  · rw [hinfos, length_range']
  · rw [hinfos, getD_eq_getElem _ _ (by simpa using hk), getElem_range', one_mul]
    exact h.readsInline hf hi hi31 hv hk

end

/-- The bytes of `Encode` decode to the stack maps that were recorded. -/
theorem stackMap_roundTrip (rowHash : List (List ℕ) → ℕ) (bitmapHash : List (List Bool) → ℕ)
    {m : MethodEntry} (hm : m.Valid alignment)
    (hl : (StackMapStream.recordMethod alignment rowHash bitmapHash m).Limits) :
    ∃ bits c rest, (StackMapStream.recordMethod alignment rowHash bitmapHash m).encode = some bits ∧
      CodeInfo.decode bits bits = some (c, rest) ∧ c.stackMaps.numRows = m.stackMaps.length ∧
      ∀ i (hi : i < m.stackMaps.length), Reads alignment c i m.stackMaps[i] := by
  have hf := fits_recordMethod hm hl
  obtain ⟨changes, h, -, hfields⟩ := complete_recordMethod rowHash bitmapHash hm
  obtain ⟨rest, hencode, hdecode⟩ := hf.encode_eq
  have hn : (recordMethod alignment rowHash bitmapHash m).numDexRegisters =
      m.numDexRegisters := congrArg (·.2.2.2.1) hfields
  refine ⟨_, _, rest, hencode, hdecode, numRows_storedTable.trans h.length, fun i hi => ?_⟩
  exact h.reads hf hi ((h.length ▸ hi).trans hl.numStackMaps) (hn ▸ hm.stackMaps _ (getElem_mem hi))

/-- Two stack maps of a method with two registers, the second one with an inlined frame. -/
def twoStackMaps : MethodEntry where
  frameSizeInBytes := 64
  coreSpillMask := 0
  fpSpillMask := 0
  numDexRegisters := 2
  baseline := false
  debuggable := false
  stackMaps := [
    ⟨1, 8, 0b1100, some [false, true], .default, true, [⟨.inStack, 8⟩, ⟨.constant, 7⟩], []⟩,
    ⟨2, 12, 0, none, .default, true, [⟨.inStack, 8⟩, ⟨.inRegister, 1⟩],
      [⟨⟨false, 0, 5, true, false, 0, 0⟩, 3, [⟨.constant, 7⟩]⟩]⟩]
  codeSize := 32

lemma valid_twoStackMaps : twoStackMaps.Valid 4 := by
  have hloc : ∀ loc ∈ [(⟨.inStack, 8⟩ : DexRegisterLocation), ⟨.constant, 7⟩, ⟨.inRegister, 1⟩],
      loc.Valid := by
    simp only [mem_cons, not_mem_nil, or_false, forall_eq_or_imp, forall_eq]
    exact ⟨⟨by decide, by decide, by decide, by decide⟩, ⟨by decide, by decide, by decide, by decide⟩,
      by decide, by decide, by decide, by decide⟩
  refine ⟨by decide, by decide, by decide, by decide, by decide, ?_⟩
  simp only [twoStackMaps, mem_cons, not_mem_nil, or_false, forall_eq_or_imp, forall_eq]
  refine ⟨⟨by decide, by decide, by decide, by decide, rfl, by simp, by decide, ?_, by simp⟩,
    by decide, by decide, by decide, by decide, rfl, by simp, by decide, ?_, ?_⟩
  · exact fun loc h => hloc loc (by simp at h ⊢; tauto)
  · exact fun loc h => hloc loc (by simp at h ⊢; tauto)
  · simp only [mem_singleton, forall_eq]
    exact ⟨by decide, by decide, by decide, by decide, by decide, by decide,
      fun loc h => hloc loc (by simp at h ⊢; tauto)⟩

lemma limits_twoStackMaps : (recordMethod 4 (fun _ => 0) (fun _ => 0) twoStackMaps).Limits :=
  ⟨by decide +kernel, by decide +kernel, by decide +kernel, by decide +kernel, by decide +kernel⟩

/-- The second stack map stores one of its three registers, and all are read back. -/
theorem stackMap_roundTrip_twoStackMaps : ∃ bits c rest,
    (StackMapStream.recordMethod 4 (fun _ => 0) (fun _ => 0) twoStackMaps).encode = some bits ∧
      CodeInfo.decode bits bits = some (c, rest) ∧
      c.getDexRegisterMapOf 1 = [⟨.inStack, 8⟩, ⟨.inRegister, 1⟩] ∧
      c.getInlineDexRegisterMapOf 1 ((c.getInlineInfosOf 1).getD 0 0) = [⟨.constant, 7⟩] := by
  obtain ⟨bits, c, rest, hencode, hdecode, -, hreads⟩ := stackMap_roundTrip (fun _ => 0) (fun _ => 0)
    valid_twoStackMaps limits_twoStackMaps
  have h1 := hreads 1 (by decide)
  exact ⟨bits, c, rest, hencode, hdecode, h1.registers, (h1.inlineInfos 0 (by decide)).registers⟩

variable (mask : List Bool)

/-- A method with one stack map, which has nothing but a stack mask. -/
def oneStackMask : MethodEntry where
  frameSizeInBytes := 0
  coreSpillMask := 0
  fpSpillMask := 0
  numDexRegisters := 0
  baseline := false
  debuggable := false
  stackMaps := [⟨0, 0, 0, some mask, .default, false, [], []⟩]
  codeSize := 0

/-- The row of a stack map that has nothing but a stack mask. -/
def maskRow (index : ℕ) : List ℕ := [kNoValue, 0, 0, kNoValue, index, kNoValue, kNoValue, kNoValue]

/-- Before the stack masks are read. -/
lemma foldl_record_oneStackMask :
    (oneStackMask mask).stackMaps.foldl (record 4 (fun _ => 0) (fun _ => 0))
        (beginMethod {} 0 0 0 0 false false) =
      { stackMaps := [maskRow kNoValue]
        lazyStackMasks := [some mask]
        currentStackMap := maskRow kNoValue } := by
  simp [oneStackMask, maskRow, record, beginMethod, beginStackMapEntry, endStackMapEntry, packNativePc,
    kKind, kPackedNativePc, kDexPc, StackMap.Kind.code]

lemma recordMethod_oneStackMask {mask : List Bool} (h : getNumberOfBits mask ≠ 0) :
    recordMethod 4 (fun _ => 0) (fun _ => 0) (oneStackMask mask) =
      { stackMaps := [maskRow 0]
        stackMasks := ⟨TableBuilder.append (fun _ => 0) {} [rawStorage mask (getNumberOfBits mask)],
          max 0 (getNumberOfBits mask)⟩
        lazyStackMasks := [some mask]
        currentStackMap := maskRow kNoValue } := by
  have hfold := foldl_record_oneStackMask mask
  show endMethod _ _ 0 = _
  erw [hfold]
  exact if_pos h

/-- The offset of the column after a mask of 65536 bits is 0, so that no bit of it is read. -/
lemma consumes_decode_wide : Consumes (BitTable.decode 1) (writeInterleavedVarints [1, 2 ^ 16])
    ⟨1, [0, 0], []⟩ := by
  have htake := Consumes.bind (f := fun d => pure (⟨1, [0, 0], d⟩ : BitTable))
    (consumes_take ([] : List Bool)) (consumes_pure _)
  have hheader := @consumes_readInterleavedVarints [1, 2 ^ 16] (by decide)
  have h := hheader.bind (f := fun header =>
    Parsing.take (header.headD 0 * (0 :: BitTable.columnEnds 0 header.tail).getLastD 0 % 2 ^ 32) >>=
      fun d => pure (⟨header.headD 0, 0 :: BitTable.columnEnds 0 header.tail, d⟩ : BitTable)) htake
  rwa [append_nil, append_nil] at h

/-- If less than what was written is read back, `Encode` fails. -/
lemma encode_eq_none {c : CodeInfo} {read data : List Bool} (hwritten : s.writtenBits = read ++ data)
    (hdata : data ≠ []) (h : Consumes (decode (byteAlign s.writtenBits)) read c) :
    s.encode = none := by
  obtain ⟨x, hx⟩ := (byteAlign_spec _).1
  have hdecode : decode (byteAlign s.writtenBits) (byteAlign s.writtenBits) = some (c, data ++ x) := by
    rw [← h, ← append_assoc, ← hwritten, ← hx]
  have hpos := length_pos_iff.2 hdata
  rw [encode, hdecode]
  refine if_neg fun hchecks => ?_
  have hlen := hchecks.1
  rw [hx, hwritten] at hlen
  simp only [length_append] at hlen
  omega

/-- A stack mask of 65536 bits is not read back: the last check of `Encode` fails. -/
lemma encode_oneStackMask {mask : List Bool} (h : getNumberOfBits mask = 2 ^ 16) :
    (recordMethod 4 (fun _ => 0) (fun _ => 0) (oneStackMask mask)).encode = none := by
  rw [recordMethod_oneStackMask (by rw [h]; decide), h, zero_max]
  have h0 : 0 < 2 ^ 32 := by decide
  have hwide := consumes_decode_wide
  have hpos : 0 < 2 ^ 16 := by decide
  clear h
  generalize 2 ^ 16 = n at hwide hpos ⊢
  obtain ⟨s, hs, hheader, htables⟩ : ∃ s : StackMapStream,
      { stackMaps := [maskRow 0]
        stackMasks := ⟨TableBuilder.append (fun _ => 0) {} [rawStorage mask n], n⟩
        lazyStackMasks := [some mask]
        currentStackMap := maskRow kNoValue } = s ∧
      (∀ v ∈ s.header, v < 2 ^ 32) ∧ s.bitTables = [(1, encodeTable 8 [maskRow 0]),
        (0, encodeTable 2 []), (1, encodeBitmaps n [rawStorage mask n]),
        (0, encodeTable 6 []), (0, encodeTable 3 []), (0, encodeBitmaps 0 []),
        (0, encodeTable 1 []), (0, encodeTable 2 [])] :=
    ⟨_, rfl, header_lt h0 h0 h0 h0 h0, rfl⟩
  rw [hs]
  have hconsumes := consumes_decode hheader (byteAlign s.writtenBits)
      (fun i => if i = 0 then encodeTable 8 [maskRow 0] else writeInterleavedVarints [1, n])
      (fun i => if i = 0 then decodedTable 8 [maskRow 0] else ⟨1, [0, 0], []⟩) fun i hi hne => by
    rw [htables] at hne
    interval_cases i
    · exact TableFits.consumes ⟨by unfold RowsOk; decide, by decide, by decide +kernel⟩ (by decide)
    · exact absurd rfl hne
    · exact hwide
    all_goals exact absurd rfl hne
  refine @encode_eq_none s _ _ (padRow n (rawStorage mask n)) ?_ ?_ hconsumes
  · rw [writtenBits, htables]
    simp [range_succ, encodeBitmaps]
  · rwa [← length_pos_iff, length_padRow]

lemma getNumberOfBits_concat_true (bits : List Bool) :
    getNumberOfBits (bits ++ [true]) = bits.length + 1 := by
  simp [getNumberOfBits]

/-- A stack mask whose bit 65535 is set. -/
def wideMask : List Bool := List.replicate 65535 false ++ [true]

lemma valid_oneStackMask : (oneStackMask mask).Valid 4 := by
  have h0 : 0 < 2 ^ 32 := by decide
  refine ⟨h0, h0, h0, h0, h0, fun e he => ?_⟩
  rw [mem_singleton.1 he]
  exact ⟨h0, h0, dvd_zero 4, h0, rfl, fun _ i hi => absurd hi not_mem_nil, h0,
    fun loc hloc => absurd hloc not_mem_nil, fun i hi => absurd hi not_mem_nil⟩

/-- The method of one stack map with this mask cannot be encoded. -/
theorem encode_wideMask : (oneStackMask wideMask).Valid 4 ∧
    (StackMapStream.recordMethod 4 (fun _ => 0) (fun _ => 0) (oneStackMask wideMask)).encode = none := by
  refine ⟨valid_oneStackMask wideMask, encode_oneStackMask ?_⟩
  rw [wideMask, getNumberOfBits_concat_true, length_replicate]
  decide

end Art
