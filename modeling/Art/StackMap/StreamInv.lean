import Art.StackMap.Record

/-!
# The invariant of the stream

What holds of a `StackMapStream` between the calls for two stack maps, and at the end.
-/

namespace Art

open Parsing List StackMapStream
open StackMap (kStackMaskIndex)
open Delta (latest)

variable {s s' : StackMapStream}

/-! ## Entries -/

/-- The locations that the compiler records: `kInvalid` is internal to the decoder, `kNone` has no
    value, and a stack offset is that of a slot. -/
structure DexRegisterLocation.Valid (loc : DexRegisterLocation) : Prop where
  kind : loc.kind ≠ .invalid
  value : loc.value < 2 ^ 32
  none : loc.kind = .none → loc.value = 0
  inStack : loc.kind = .inStack → kFrameSlotSize ∣ loc.value

/-- The numbers of an inlined frame have their types; the low half of a pointer is not -1. -/
structure InlineEntry.Valid (e : InlineEntry) : Prop where
  dexPc : e.dexPc < 2 ^ 32
  address : e.method.address < 2 ^ 64
  addressLow : e.method.address % 2 ^ 32 ≠ kNoValue
  dexMethodIndex : e.method.dexMethodIndex < 2 ^ 32
  bootClassPathIndex : e.method.bootClassPathIndex < 2 ^ 32
  oatDexFileIndex : e.method.oatDexFileIndex < 2 ^ 32
  registers : ∀ loc ∈ e.registers, loc.Valid

/-- What the protocol asks of the calls for a stack map: the numbers have their types, the native pc
    is aligned, and there is either one location for every register or none at all. -/
structure StackMapEntry.Valid (alignment numDexRegisters : ℕ) (e : StackMapEntry) : Prop where
  dexPc : e.dexPc < 2 ^ 32
  nativePc : e.nativePcOffset < 2 ^ 32
  aligned : alignment ∣ e.nativePcOffset
  registerMask : e.registerMask < 2 ^ 32
  length : e.registers.length = if e.needsVregInfo then numDexRegisters else 0
  noVregInfo : e.needsVregInfo = false → ∀ i ∈ e.inlineInfos, i.registers = []
  count : e.allRegisters.length < 2 ^ 32
  registers : ∀ loc ∈ e.registers, loc.Valid
  inlineInfos : ∀ i ∈ e.inlineInfos, i.Valid

variable {e : StackMapEntry} {alignment : ℕ} {changes : List (List (Option DexRegisterLocation))}
  {fields : ℕ × ℕ × ℕ × ℕ × Bool × Bool} {entries : List StackMapEntry} {n : ℕ}

lemma StackMapEntry.Valid.allRegisters (h : e.Valid alignment n) : ∀ loc ∈ e.allRegisters, loc.Valid := by
  intro loc hloc
  rcases mem_append.1 hloc with hloc | hloc
  · exact h.registers loc hloc
  · obtain ⟨i, hi, hloc⟩ := mem_flatMap.1 hloc
    exact (h.inlineInfos i hi).registers loc hloc

/-! ## The invariant -/

/-- The numbers of rows of the tables that other tables refer to. -/
def StackMapStream.maxRows (s : StackMapStream) : ℕ :=
  max s.registerMasks.rows.length (max s.inlineInfos.rows.length (max s.methodInfos.rows.length
    (max s.dexRegisterMasks.table.rows.length (max s.dexRegisterMaps.rows.length
      s.dexRegisterCatalog.rows.length))))

lemma Extends.maxRows_le (h : Extends s s') : s.maxRows ≤ s'.maxRows :=
  max_le_max h.1.length_le (max_le_max h.2.length_le (max_le_max h.3.length_le
    (max_le_max h.4.length_le (max_le_max h.5.length_le h.6.length_le))))

/-- The rows have `k` columns, and each value is a `uint32_t` or the index of a row. -/
def TableOk (bound k : ℕ) (rows : List (List ℕ)) : Prop :=
  ∀ row ∈ rows, row.length = k ∧ ∀ v ∈ row, v < 2 ^ 32 ∨ v ≤ bound

variable {bound bound' k : ℕ} {rows : List (List ℕ)}

lemma TableOk.mono (h : TableOk bound k rows) (hb : bound ≤ bound') : TableOk bound' k rows := fun row hrow =>
  ⟨(h row hrow).1, fun v hv => ((h row hrow).2 v hv).imp_right hb.trans'⟩

/-- The tables of the stream can be encoded while they are small enough. -/
structure TablesOk (s : StackMapStream) : Prop where
  registerMasks : TableOk s.maxRows 2 s.registerMasks.rows
  inlineInfos : TableOk s.maxRows 6 s.inlineInfos.rows
  methodInfos : TableOk s.maxRows 3 s.methodInfos.rows
  dexRegisterMaps : TableOk s.maxRows 1 s.dexRegisterMaps.rows
  dexRegisterCatalog : TableOk s.maxRows 2 s.dexRegisterCatalog.rows
  dexRegisterMasks : s.dexRegisterMasks.Ok

lemma kNoValue_lt : kNoValue < 2 ^ 32 := by decide

lemma tableOk_of_mem {rows' : List (List ℕ)} {P : List ℕ → Prop} (h : TableOk bound k rows)
    (hb : bound ≤ bound') (hmem : ∀ row ∈ rows', row ∈ rows ∨ P row)
    (hP : ∀ row, P row → row.length = k ∧ ∀ v ∈ row, v < 2 ^ 32 ∨ v ≤ bound') :
    TableOk bound' k rows' := fun row hrow =>
  (hmem row hrow).elim ((h.mono hb) row) (hP row)

lemma TablesOk.record {changes : List (Option DexRegisterLocation)} (h : TablesOk s)
    (he : e.Valid alignment n) (hr : Recorded alignment s e s' changes) : TablesOk s' := by
  have hb := hr.ext.maxRows_le
  refine ⟨tableOk_of_mem h.registerMasks hb hr.registerMaskRows ?_,
    tableOk_of_mem h.inlineInfos hb hr.inlineInfoRows ?_,
    tableOk_of_mem h.methodInfos hb hr.methodInfoRows ?_, tableOk_of_mem h.dexRegisterMaps hb hr.mapRows ?_,
    tableOk_of_mem h.dexRegisterCatalog hb hr.catalogRows ?_, hr.masks⟩
  · rintro row ⟨-, rfl⟩
    have hshift : leastSignificantBit e.registerMask ≤ 32 := findIdx_le_length.trans (length_range ..).le
    have hvalue := Nat.shiftRight_le e.registerMask (leastSignificantBit e.registerMask)
    have := he.registerMask
    simp only [registerMaskRow, length_cons, length_nil, mem_cons,
      not_mem_nil, or_false, forall_eq_or_imp, forall_eq, true_and]
    exact ⟨.inl (by omega), .inl (by omega)⟩
  · rintro row ⟨i, hi, count, isLast, hlast, index, hi', lo, rfl, hrow⟩
    have hv := he.inlineInfos i hi
    have hindex : index < 2 ^ 32 ∨ index ≤ s'.maxRows := by
      split at hrow
      · exact .inl (hrow.1 ▸ kNoValue_lt)
      · exact .inr (hrow.1.1.trans (by simp [maxRows]))
    have haddr : hi' < 2 ^ 32 ∧ lo < 2 ^ 32 := by
      split at hrow
      · exact ⟨hrow.2.1 ▸ Nat.mod_lt _ (by decide), hrow.2.2 ▸ Nat.mod_lt _ (by decide)⟩
      · exact ⟨hrow.2.1 ▸ kNoValue_lt, hrow.2.2 ▸ kNoValue_lt⟩
    have hlast' : isLast < 2 ^ 32 := by
      rcases hlast with rfl | rfl <;> decide
    simp only [length_cons, length_nil, mem_cons, not_mem_nil, or_false,
      forall_eq_or_imp, forall_eq, true_and]
    exact ⟨.inl hlast', .inl hv.dexPc, hindex, .inl haddr.1, .inl haddr.2, .inl (Nat.mod_lt _ (by decide))⟩
  · rintro row ⟨i, hi, rfl⟩
    have hv := he.inlineInfos i hi
    have hfile : (i.method.dexFile i.dexPc).1 < 2 ^ 32 ∧ (i.method.dexFile i.dexPc).2 < 2 ^ 32 := by
      rw [InlinedMethod.dexFile]
      split
      · split
        · exact ⟨kNoValue_lt, kNoValue_lt⟩
        · split
          · exact ⟨show MethodInfo.kKindBCP < 2 ^ 32 by decide, hv.bootClassPathIndex⟩
          · exact ⟨kNoValue_lt, hv.oatDexFileIndex⟩
      · exact ⟨kNoValue_lt, kNoValue_lt⟩
    simp only [InlinedMethod.methodInfo, length_cons, length_nil, mem_cons,
      not_mem_nil, or_false, forall_eq_or_imp, forall_eq, true_and]
    exact ⟨.inl hv.dexMethodIndex, .inl hfile.1, .inl hfile.2⟩
  · rintro row ⟨loc, index, rfl, hindex⟩
    refine ⟨rfl, fun v hv => ?_⟩
    rw [mem_singleton.1 hv]
    split at hindex
    · exact .inr (hindex.1.trans (by simp [maxRows]))
    · exact .inl (hindex ▸ kNoValue_lt)
  · rintro row ⟨loc, hloc, -, rfl⟩
    have hv := he.allRegisters loc hloc
    have hkind : loc.kind.code < 2 ^ 32 := by cases loc.kind <;> decide
    have hvalue : DexRegisterLocation.packValue loc.kind loc.value < 2 ^ 32 := by
      refine lt_of_le_of_lt ?_ hv.value
      rw [DexRegisterLocation.packValue]
      split
      · exact Nat.div_le_self ..
      · exact le_rfl
    simp only [catalogRow, length_cons, length_nil, mem_cons,
      not_mem_nil, or_false, forall_eq_or_imp, forall_eq, true_and]
    exact ⟨.inl hkind, .inl hvalue⟩

/-- The fields that `BeginMethod` sets. -/
def StackMapStream.methodFields (s : StackMapStream) : ℕ × ℕ × ℕ × ℕ × Bool × Bool :=
  (s.packedFrameSize, s.coreSpillMask, s.fpSpillMask, s.numDexRegisters, s.baseline, s.debuggable)

/-- The changes of the stack maps, as a sequence. -/
def history (changes : List (List (Option DexRegisterLocation))) (n reg : ℕ) : Option DexRegisterLocation :=
  (changes.getD n []).getD reg none

/-- The row of a stack map, which does not have its stack mask yet, and its changes. -/
structure Stored (alignment : ℕ) (s : StackMapStream) (e : StackMapEntry)
    (changes : List (Option DexRegisterLocation)) (row : List ℕ) : Prop where
  columns : RowOf alignment s e row
  stackMask : row.getD StackMap.kStackMaskIndex 0 = kNoValue
  stored : Changes s changes row
  length : changes.length = e.allRegisters.length
  valid : ∀ loc, some loc ∈ changes → loc.Valid

variable {row : List ℕ}

lemma Stored.mono {changes : List (Option DexRegisterLocation)}
    (h : Stored alignment s e changes row) (hs : Extends s s') : Stored alignment s' e changes row :=
  { h with columns := h.columns.mono hs, stored := h.stored.mono hs }

/-- The invariant of the stream after the calls for the given stack maps: each has its row and its
    changes, and the locations of its registers are those of the latest changes. -/
structure StreamInv (alignment : ℕ) (fields : ℕ × ℕ × ℕ × ℕ × Bool × Bool)
    (entries : List StackMapEntry) (changes : List (List (Option DexRegisterLocation)))
    (s : StackMapStream) : Prop where
  fields : s.methodFields = fields
  length : s.stackMaps.length = entries.length
  lengthChanges : changes.length = entries.length
  lazyStackMasks : s.lazyStackMasks = entries.map (·.stackMask)
  stackMasks : s.stackMasks = {}
  tables : TablesOk s
  stored : ∀ i (hi : i < entries.length),
    Stored alignment s entries[i] (changes.getD i []) (s.stackMaps.getD i [])
  registers : ∀ i (hi : i < entries.length), ∀ j < entries[i].allRegisters.length,
    (latest (history changes) (i + 1) j).getD .none = entries[i].allRegisters.getD j .none
  previous : ∀ j, s.previousDexRegisters.getD j .none =
    (latest (history changes) entries.length j).getD .none

variable {α : Type}

lemma getD_concat_length (l : List α) (x d : α) : (l ++ [x]).getD l.length d = x := by
  rw [getD_append_right _ _ _ _ le_rfl, Nat.sub_self]
  rfl

/-- The latest changes before a stack map are what they were. -/
lemma latest_history_append (hn : n ≤ changes.length) (c : List (Option DexRegisterLocation))
    (j : ℕ) : latest (history (changes ++ [c])) n j = latest (history changes) n j :=
  Delta.latest_congr fun m hm => by rw [history, getD_append _ _ _ _ (hm.trans_le hn), history]

variable {c : List (Option DexRegisterLocation)}

/-- A change of the stack map is the location of the register. -/
lemma Recorded.eq_of_change (hr : Recorded alignment s e s' c) {j : ℕ} {loc : DexRegisterLocation}
    (h : c.getD j none = some loc) : j < e.allRegisters.length ∧ loc = e.allRegisters.getD j .none := by
  have hj : j < e.allRegisters.length := by
    by_contra hj
    rw [getD_eq_default _ _ (by rw [hr.lengthChanges]; omega)] at h
    cases h
  rcases hr.change j hj with hc | ⟨hc, -⟩
  · exact ⟨hj, Option.some.inj (h.symm.trans hc)⟩
  · rw [hc] at h
    cases h

/-- With its changes, the latest changes are the locations of the stack map. -/
lemma Recorded.latest (hr : Recorded alignment s e s' c) (hprev : ∀ j, s.previousDexRegisters.getD j .none =
      (latest (history changes) changes.length j).getD .none) (j : ℕ) :
    (latest (history (changes ++ [c])) (changes.length + 1) j).getD .none =
      if j < e.allRegisters.length then e.allRegisters.getD j .none
      else s.previousDexRegisters.getD j .none := by
  have hc : history (changes ++ [c]) changes.length j = c.getD j none := by
    rw [history, getD_concat_length]
  refine Delta.latest_succ_getD (fun loc hloc => ?_) fun hnone => ?_
  · obtain ⟨hj, rfl⟩ := hr.eq_of_change (hc.symm.trans hloc)
    rw [if_pos hj]
  · rw [latest_history_append le_rfl, ← hprev]
    split
    case isFalse => rfl
    case isTrue hj =>
      rcases hr.change j hj with h | ⟨-, h⟩
      · rw [hc, h] at hnone
        cases hnone
      · exact h

variable (h : StreamInv alignment fields entries changes s)

include h in
/-- The calls for a stack map keep the invariant. -/
lemma StreamInv.record (he : e.Valid alignment s.numDexRegisters) (rowHash : List (List ℕ) → ℕ)
    (bitmapHash : List (List Bool) → ℕ) : ∃ c, StreamInv alignment fields (entries ++ [e]) (changes ++ [c])
      (s.record alignment rowHash bitmapHash e) := by
  obtain ⟨c, hr⟩ := recorded_record alignment rowHash bitmapHash s e h.tables.dexRegisterMasks he.length
  generalize s.record alignment rowHash bitmapHash e = s' at hr ⊢
  have hlatest := @Recorded.latest _ _ _ _ changes _ hr (by rw [h.lengthChanges]; exact h.previous)
  rw [h.lengthChanges] at hlatest
  have hmaps : s'.stackMaps = s.stackMaps ++ [s'.currentStackMap] := by
    obtain ⟨_, _, _, _, _, _, _, _, _, _, _, rfl⟩ := hr.frame
    rfl
  have htables := h.tables.record he hr
  have hcurrent : Stored alignment s' e c s'.currentStackMap :=
    ⟨hr.row, hr.stackMask, hr.stored, hr.lengthChanges, fun loc hloc => by
      obtain ⟨j, hj⟩ := mem_iff_getElem?.1 hloc
      obtain ⟨hj', rfl⟩ := hr.eq_of_change (j := j) (by rw [getD_eq_getElem?_getD, hj]; rfl)
      rw [getD_eq_getElem _ _ hj']
      exact he.allRegisters _ (getElem_mem _)⟩
  refine ⟨c, ?_, ?_, ?_, ?_, ?_, htables, ?_, ?_, ?_⟩
  · obtain ⟨_, _, _, _, _, _, _, _, _, _, _, rfl⟩ := hr.frame
    exact h.fields
  · rw [hmaps, length_append, length_append, h.length]
    rfl
  · rw [length_append, length_append, h.lengthChanges]
    rfl
  · obtain ⟨_, _, _, _, _, _, _, _, _, _, _, rfl⟩ := hr.frame
    rw [map_append, ← h.lazyStackMasks]
    rfl
  · obtain ⟨_, _, _, _, _, _, _, _, _, _, _, rfl⟩ := hr.frame
    exact h.stackMasks
  · intro i hi
    rw [hmaps]
    rcases lt_or_ge i entries.length with hi' | hi'
    · rw [getElem_append_left hi', getD_append _ _ _ _ (by rw [h.lengthChanges]; exact hi'),
        getD_append _ _ _ _ (by rw [h.length]; exact hi')]
      exact (h.stored i hi').mono hr.ext
    · obtain rfl : i = entries.length := by
        rw [length_append, length_singleton] at hi
        omega
      rw [getElem_concat_length rfl, ← h.lengthChanges, getD_concat_length, h.lengthChanges,
        ← h.length, getD_concat_length]
      exact hcurrent
  · intro i hi j
    rcases lt_or_ge i entries.length with hi' | hi'
    · rw [getElem_append_left hi', latest_history_append (by rw [h.lengthChanges]; exact hi')]
      exact h.registers i hi' j
    · obtain rfl : i = entries.length := by
        rw [length_append, length_singleton] at hi
        omega
      rw [getElem_concat_length rfl]
      intro hj
      rw [hlatest, if_pos hj]
  · intro j
    rw [length_append, length_singleton, hlatest, hr.previous]

variable (rowHash : List (List ℕ) → ℕ) (bitmapHash : List (List Bool) → ℕ)

/-- The calls for a list of stack maps keep the invariant. -/
lemma streamInv_foldl (h : StreamInv alignment fields entries changes s) (es : List StackMapEntry)
    (hes : ∀ e ∈ es, e.Valid alignment s.numDexRegisters) :
    ∃ changes, StreamInv alignment fields (entries ++ es) changes
      (es.foldl (record alignment rowHash bitmapHash) s) := by
  induction es generalizing entries changes s with
  | nil => exact ⟨changes, by rwa [append_nil]⟩
  | cons e es ih =>
    obtain ⟨c, hc⟩ := h.record (hes e mem_cons_self) rowHash bitmapHash
    have hn : (s.record alignment rowHash bitmapHash e).numDexRegisters = s.numDexRegisters :=
      congrArg (·.2.2.2.1) (hc.fields.trans h.fields.symm)
    rw [append_cons]
    exact ih hc fun e' he' => hn ▸ hes e' (mem_cons_of_mem _ he')

/-! ## The end of the method -/

/-- The index of the bytes of a stack mask, if it has a bit. -/
def MaskIndex (masks : BitmapTableBuilder) (mask : List Bool) (index : ℕ) : Prop :=
  (index = kNoValue ∧ ∀ b, mask.getD b false = false) ∨
    SliceAt masks.table.rows index [rawStorage mask (getNumberOfBits mask)]

/-- The stack masks of the first `n` stack maps are read. -/
structure Finished (s₀ : StackMapStream) (n : ℕ) (s : StackMapStream) : Prop where
  frame : ∃ stackMasks stackMaps, s = { s₀ with stackMasks, stackMaps }
  masks : s.stackMasks.Ok
  length : s.stackMaps.length = s₀.stackMaps.length
  done : ∀ i < n, ∃ index,
    s.stackMaps.getD i [] = (s₀.stackMaps.getD i []).set StackMap.kStackMaskIndex index ∧
      MaskIndex s.stackMasks ((s₀.lazyStackMasks.getD i none).getD []) index
  rest : ∀ i, n ≤ i → s.stackMaps.getD i [] = s₀.stackMaps.getD i []

lemma MaskIndex.mono {masks masks' : BitmapTableBuilder} {mask : List Bool} {index : ℕ}
    (h : MaskIndex masks mask index) (hp : masks.table.rows <+: masks'.table.rows) :
    MaskIndex masks' mask index := h.imp_right fun h => h.mono hp

variable {i : ℕ}

lemma set_getD_self {l : List α} {x d : α} (h : l.getD i d = x) : l.set i x = l := by
  by_cases hi : i < l.length
  · rw [← h, getD_eq_getElem _ _ hi, set_getElem_self]
  · exact set_eq_of_length_le (by omega)

lemma getD_modify (l : List α) (f : α → α) (hi : i < l.length) (j : ℕ) (d : α) :
    (l.modify i f).getD j d = if j = i then f (l.getD j d) else l.getD j d := by
  by_cases h : i = j
  · subst h
    simp [hi]
  · simp [h, Ne.symm h]

variable {s₀ : StackMapStream}

/-- A stack map without a bit in its stack mask keeps its row. -/
lemma Finished.skip (h : Finished s₀ n s)
    (hrow : (s₀.stackMaps.getD n []).getD kStackMaskIndex 0 = kNoValue)
    (hmask : ∀ b, ((s₀.lazyStackMasks.getD n none).getD []).getD b false = false) :
    Finished s₀ (n + 1) s := by
  refine { h with done := fun i hi => ?_, rest := fun i hi => h.rest i (by omega) }
  rcases Nat.lt_succ_iff_lt_or_eq.1 hi with hi | rfl
  · exact h.done i hi
  · exact ⟨kNoValue, by rw [set_getD_self hrow, h.rest i le_rfl], .inl ⟨rfl, hmask⟩⟩

lemma Finished.step (h : Finished s₀ n s) (bitmapHash : List (List Bool) → ℕ) (hn : n < s₀.stackMaps.length)
    (hrow : (s₀.stackMaps.getD n []).getD kStackMaskIndex 0 = kNoValue) :
    Finished s₀ (n + 1) (s.readStackMask bitmapHash n) := by
  have hlazy : s.lazyStackMasks = s₀.lazyStackMasks := by
    obtain ⟨_, _, rfl⟩ := h.frame
    rfl
  rw [readStackMask, hlazy]
  cases hmask : s₀.lazyStackMasks.getD n none with
  | none => exact h.skip hrow fun b => by rw [hmask]; rfl
  | some mask =>
    dsimp only
    split
    case isFalse h0 =>
      refine h.skip hrow fun b => ?_
      rw [hmask]
      exact getD_getNumberOfBits_le ((not_ne_iff.1 h0).le.trans (Nat.zero_le b))
    case isTrue h0 =>
      obtain ⟨hok, hp, hslice⟩ := BitmapTableBuilder.dedup_spec bitmapHash h.masks mask
      have hn' : n < s.stackMaps.length := h.length ▸ hn
      refine ⟨?_, hok, (length_modify ..).trans h.length, fun i hi => ?_, fun i hi => ?_⟩
      · obtain ⟨_, _, rfl⟩ := h.frame
        exact ⟨_, _, rfl⟩
      · rw [getD_modify _ _ hn']
        rcases Nat.lt_succ_iff_lt_or_eq.1 hi with hi | rfl
        · obtain ⟨index, hindex, hat⟩ := h.done i hi
          exact ⟨index, by rw [if_neg hi.ne, hindex], hat.mono hp⟩
        · exact ⟨_, by rw [if_pos rfl, h.rest i le_rfl], .inr (by rw [hmask]; exact hslice)⟩
      · rw [getD_modify _ _ hn', if_neg (by omega), h.rest i (by omega)]

include h in
/-- `EndMethod` reads the stack masks. -/
lemma StreamInv.endMethod (bitmapHash : List (List Bool) → ℕ) (codeSize : ℕ) :
    Finished { s with codeSize } entries.length (s.endMethod bitmapHash codeSize) := by
  have hlen : s.lazyStackMasks.length = entries.length := by rw [h.lazyStackMasks, length_map]
  rw [StackMapStream.endMethod, hlen]
  refine Loop.foldl_range (P := Finished { s with codeSize })
    ⟨⟨_, _, rfl⟩, ?_, rfl, fun i hi => absurd hi (Nat.not_lt_zero i), fun i _ => rfl⟩
    fun i hi t ht => ht.step bitmapHash (h.length ▸ hi) (h.stored i hi).stackMask
  intro row hrow
  rw [h.stackMasks] at hrow
  cases hrow

/-! ## A whole method -/

lemma getD_set_stackMaskIndex (hlen : row.length = 8) (index : ℕ) {c : ℕ} (hc : c ≠ kStackMaskIndex) :
    (row.set kStackMaskIndex index).getD c 0 = row.getD c 0 := by
  rw [getD_set _ (by rw [hlen]; decide), if_neg hc]

/-- The stack mask is stored apart from the other columns. -/
lemma RowOf.set_stackMaskIndex (h : RowOf alignment s e row) (index : ℕ) :
    RowOf alignment s e (row.set kStackMaskIndex index) := by
  have hcol {c} := getD_set_stackMaskIndex h.length index (c := c)
  constructor
  · exact (length_set ..).trans h.length
  · rw [hcol (by decide), h.kind]
  · rw [hcol (by decide), h.nativePc]
  · rw [hcol (by decide), h.dexPc]
  · rw [hcol (by decide)]
    exact h.registerMask
  · rw [hcol (by decide)]
    exact h.inlineInfos
  · rw [hcol (by decide)]
    exact h.registers

lemma Changes.set_stackMaskIndex {changes : List (Option DexRegisterLocation)}
    (h : Changes s changes row) (hlen : row.length = 8) (index : ℕ) :
    Changes s changes (row.set kStackMaskIndex index) := by
  have hcol {c} := getD_set_stackMaskIndex hlen index (c := c)
  refine ⟨?_, ?_⟩
  · rw [hcol (by decide)]
    exact h.mask
  · rw [hcol (by decide)]
    exact h.map

/-- The tables of a stream for which all calls are made: the row of every stack map, and what it
    refers to. -/
structure Complete (alignment : ℕ) (entries : List StackMapEntry)
    (changes : List (List (Option DexRegisterLocation))) (s : StackMapStream) : Prop where
  length : s.stackMaps.length = entries.length
  lengthChanges : changes.length = entries.length
  columns : ∀ i (hi : i < entries.length), RowOf alignment s entries[i] (s.stackMaps.getD i [])
  stackMask : ∀ i (hi : i < entries.length), MaskIndex s.stackMasks (entries[i].stackMask.getD [])
    ((s.stackMaps.getD i []).getD StackMap.kStackMaskIndex 0)
  stored : ∀ i < entries.length, Changes s (changes.getD i []) (s.stackMaps.getD i [])
  lengthStored : ∀ i (hi : i < entries.length), (changes.getD i []).length = entries[i].allRegisters.length
  valid : ∀ i < entries.length, ∀ loc, some loc ∈ changes.getD i [] → loc.Valid
  registers : ∀ i (hi : i < entries.length), ∀ j < entries[i].allRegisters.length,
    (latest (history changes) (i + 1) j).getD .none = entries[i].allRegisters.getD j .none
  tables : TablesOk s
  stackMasks : s.stackMasks.Ok

include h in
lemma StreamInv.complete (codeSize : ℕ) (hf : Finished { s with codeSize } entries.length s') :
    Complete alignment entries changes s' := by
  have hext : Extends s s' := by
    obtain ⟨_, _, rfl⟩ := hf.frame
    exact ⟨prefix_rfl, prefix_rfl, prefix_rfl, prefix_rfl, prefix_rfl, prefix_rfl⟩
  have htables : TablesOk s' := by
    obtain ⟨_, _, rfl⟩ := hf.frame
    obtain ⟨h1, h2, h3, h4, h5, h6⟩ := h.tables
    exact ⟨h1, h2, h3, h4, h5, h6⟩
  refine ⟨hf.length.trans h.length, h.lengthChanges, fun i hi => ?_, fun i hi => ?_, fun i hi => ?_,
    fun i hi => (h.stored i hi).length, fun i hi => (h.stored i hi).valid, h.registers, htables, hf.masks⟩
  all_goals
    obtain ⟨index, hrow, hat⟩ := hf.done i hi
    have hi' := h.stored i hi
    rw [hrow]
  · exact (hi'.columns.mono hext).set_stackMaskIndex index
  · have hlazy : s.lazyStackMasks.getD i none = entries[i].stackMask := by
      rw [h.lazyStackMasks, getD_eq_getElem _ _ (by simpa using hi), getElem_map]
    rw [getD_set _ (by rw [hi'.columns.length]; decide), if_pos rfl, ← hlazy]
    exact hat
  · exact (hi'.stored.mono hext).set_stackMaskIndex hi'.columns.length index

/-- What the compiler passes for a method. -/
structure MethodEntry.Valid (alignment : ℕ) (m : MethodEntry) : Prop where
  frameSizeInBytes : m.frameSizeInBytes < 2 ^ 32
  coreSpillMask : m.coreSpillMask < 2 ^ 32
  fpSpillMask : m.fpSpillMask < 2 ^ 32
  numDexRegisters : m.numDexRegisters < 2 ^ 32
  codeSize : m.codeSize < 2 ^ 32
  stackMaps : ∀ e ∈ m.stackMaps, e.Valid alignment m.numDexRegisters

/-- The tables of a method, and its header. -/
lemma complete_recordMethod {m : MethodEntry} (hm : m.Valid alignment) :
    ∃ changes, Complete alignment m.stackMaps changes (.recordMethod alignment rowHash bitmapHash m) ∧
      (recordMethod alignment rowHash bitmapHash m).codeSize = m.codeSize ∧
      (recordMethod alignment rowHash bitmapHash m).methodFields =
        (m.frameSizeInBytes / kStackAlignment, m.coreSpillMask, m.fpSpillMask,
          m.numDexRegisters, m.baseline, m.debuggable) := by
  set s₀ : StackMapStream := beginMethod {} _ _
    _ _ m.baseline _ with hs0
  have h0 : StreamInv alignment s₀.methodFields [] [] s₀ := by
    have hnil : ∀ {bound k : ℕ}, TableOk bound k [] := fun row hrow => by cases hrow
    refine ⟨rfl, rfl, rfl, rfl, rfl, ⟨hnil, hnil, hnil, hnil, hnil, fun row hrow => by cases hrow⟩,
      fun i hi => absurd hi (Nat.not_lt_zero i), fun i hi => absurd hi (Nat.not_lt_zero i), fun j => rfl⟩
  obtain ⟨changes, h⟩ := streamInv_foldl rowHash bitmapHash h0 m.stackMaps hm.stackMaps
  have hf := h.endMethod bitmapHash m.codeSize
  refine ⟨changes, h.complete _ hf, ?_, ?_⟩
  all_goals
    rw [recordMethod, ← hs0]
    obtain ⟨_, _, hframe⟩ := hf.frame
    rw [hframe]
  exact h.fields

end Art
