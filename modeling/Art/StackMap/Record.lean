import Mathlib.Data.List.ReduceOption
import Art.Lib.Loop
import Art.StackMap.Stream

/-!
# What the calls for a stack map store

The rows and the indices that the calls for one stack map add to the tables of a
`StackMapStream`. Tables only grow at their end, so that an index stays right.
-/

namespace Art

open InlineInfo (kLast kMore kLast kMore)
open StackMap (kDexRegisterMapIndex kDexRegisterMaskIndex)

open Parsing List StackMapStream StackMap
open StackMapStream (addDexRegisterEntry catalogRow recordInlineInfo recordRegister registerMaskRow)

/-! ## Rows at an index -/

/-- The table has the rows `values` at the index `i`. -/
def SliceAt {ρ : Type} (rows : List ρ) (i : ℕ) (values : List ρ) : Prop :=
  i ≤ rows.length ∧ (rows.drop i).take values.length = values

section

variable {ρ : Type} {rows values : List ρ} {i : ℕ}

lemma SliceAt.length_le (h : SliceAt rows i values) : i + values.length ≤ rows.length := by
  have hlen := congrArg List.length h.2
  have := h.1
  rw [length_take, length_drop] at hlen
  omega

lemma SliceAt.mono {rows' : List ρ} (h : SliceAt rows i values) (hp : rows <+: rows') :
    SliceAt rows' i values := by
  obtain ⟨x, rfl⟩ := hp
  have hle := h.length_le
  refine ⟨by rw [length_append]; omega, ?_⟩
  rw [drop_append_of_le_length h.1, take_append_of_le_length (by rw [length_drop]; omega), h.2]

lemma sliceAt_length_append (rows values : List ρ) : SliceAt (rows ++ values) rows.length values :=
  ⟨by rw [length_append]; omega, by rw [drop_left, take_length]⟩

lemma SliceAt.getD (h : SliceAt rows i values) {k : ℕ} (hk : k < values.length) (d : ρ) :
    rows.getD (i + k) d = values.getD k d := by
  rw [← h.2, getD_eq_getElem?_getD, getD_eq_getElem?_getD, getElem?_take, getElem?_drop, if_pos hk]

end

namespace TableBuilder

variable {ρ : Type} [DecidableEq ρ] (hash : List ρ → ℕ)

variable {hash} in
lemma sliceAt_of_find {b : TableBuilder ρ} {values : List ρ} {i : ℕ}
    (h : b.find hash values = some i) : SliceAt b.rows i values := by
  obtain ⟨p, hp, rfl⟩ := Option.map_eq_some_iff.1 h
  have hfound := find?_some hp
  simp only [decide_eq_true_eq] at hfound
  exact ⟨b.le p (mem_of_find?_eq_some hp), hfound.2.2⟩

/-- `Dedup` returns an index at which the table has the rows; rows that it adds are among them. -/
lemma dedup_spec (b : TableBuilder ρ) (values : List ρ) : b.rows <+: (b.dedup hash values).1.rows ∧
      SliceAt (b.dedup hash values).1.rows (b.dedup hash values).2 values ∧
      ∀ row ∈ (b.dedup hash values).1.rows, row ∈ b.rows ∨ row ∈ values := by
  rw [dedup]
  cases h : b.find hash values with
  | some i => exact ⟨prefix_rfl, sliceAt_of_find h, fun row hrow => .inl hrow⟩
  | none => exact ⟨prefix_append .., sliceAt_length_append .., fun row hrow => mem_append.1 hrow⟩

end TableBuilder

/-! ## Bitmaps -/

lemma getD_getNumberOfBits_le {bits : List Bool} {i : ℕ} (h : getNumberOfBits bits ≤ i) :
    bits.getD i false = false := by
  induction bits using reverseRecOn with
  | nil => rfl
  | append_singleton bits b ih =>
    cases b with
    | true =>
      rw [getD_eq_default]
      simpa [getNumberOfBits] using h
    | false =>
      have h' : getNumberOfBits bits ≤ i := by simpa [getNumberOfBits] using h
      rcases lt_trichotomy i bits.length with hlt | heq | hgt
      · rw [getD_append _ _ _ _ hlt]
        exact ih h'
      · rw [getD_append_right _ _ _ _ heq.ge, heq, Nat.sub_self]
        rfl
      · rw [getD_eq_default]
        simp
        omega

/-- The bytes of a bitmap have its bits. -/
lemma getD_rawStorage (bits : List Bool) (i : ℕ) :
    (rawStorage bits (getNumberOfBits bits)).getD i false = bits.getD i false := by
  by_cases hi : i < bitsToBytesRoundUp (getNumberOfBits bits) * 8
  · rw [rawStorage, getD_eq_getElem _ _ (by simpa using hi)]
    simp
  · rw [rawStorage, getD_eq_default _ _ (by simpa using hi), getD_getNumberOfBits_le]
    rw [bitsToBytesRoundUp] at hi
    omega

/-- No row of the table has a bit set beyond the width of the table. -/
def BitmapTableBuilder.Ok (b : BitmapTableBuilder) : Prop :=
  ∀ row ∈ b.table.rows, ∀ i, b.maxNumBits ≤ i → row.getD i false = false

lemma BitmapTableBuilder.dedup_spec (hash : List (List Bool) → ℕ) {b : BitmapTableBuilder}
    (hb : b.Ok) (bits : List Bool) : (b.dedup hash bits (getNumberOfBits bits)).1.Ok ∧
      b.table.rows <+: (b.dedup hash bits (getNumberOfBits bits)).1.table.rows ∧
      SliceAt (b.dedup hash bits (getNumberOfBits bits)).1.table.rows
        (b.dedup hash bits (getNumberOfBits bits)).2
        [rawStorage bits (getNumberOfBits bits)] := by
  simp only [dedup]
  cases h : b.table.find hash [rawStorage bits _] with
  | some i => exact ⟨hb, prefix_rfl, TableBuilder.sliceAt_of_find h⟩
  | none =>
    refine ⟨fun row hrow i hi => ?_, prefix_append .., sliceAt_length_append ..⟩
    have hi := max_le_iff.1 hi
    rcases mem_append.1 hrow with hrow | hrow
    · exact hb row hrow i hi.1
    · rw [mem_singleton.1 hrow, getD_rawStorage]
      exact getD_getNumberOfBits_le hi.2

/-! ## What a stack map stores -/

/-- The tables of the second stream extend those of the first. -/
structure Extends (s s' : StackMapStream) : Prop where
  registerMasks : s.registerMasks.rows <+: s'.registerMasks.rows
  inlineInfos : s.inlineInfos.rows <+: s'.inlineInfos.rows
  methodInfos : s.methodInfos.rows <+: s'.methodInfos.rows
  dexRegisterMasks : s.dexRegisterMasks.table.rows <+: s'.dexRegisterMasks.table.rows
  dexRegisterMaps : s.dexRegisterMaps.rows <+: s'.dexRegisterMaps.rows
  dexRegisterCatalog : s.dexRegisterCatalog.rows <+: s'.dexRegisterCatalog.rows

lemma Extends.refl (s : StackMapStream) : Extends s s :=
  ⟨prefix_rfl, prefix_rfl, prefix_rfl, prefix_rfl, prefix_rfl, prefix_rfl⟩

/-- The row of an inlined frame, with `count` registers up to it; `isLast` is set at the end. -/
def InlineRow (methodInfos : List (List ℕ)) (count : ℕ) (e : InlineEntry) (isLast : ℕ)
    (row : List ℕ) : Prop :=
  ∃ index hi lo, row = [isLast, e.dexPc, index, hi, lo, count % 2 ^ 32] ∧
    if e.method.encodeArtMethod then index = kNoValue ∧ hi = e.method.address / 2 ^ 32 % 2 ^ 32 ∧
      lo = e.method.address % 2 ^ 32
    else SliceAt methodInfos index [e.method.methodInfo e.dexPc] ∧ hi = kNoValue ∧ lo = kNoValue

/-- The number of registers of a stack map up to and including the inlined frame `k`. -/
def StackMapEntry.registerCount (e : StackMapEntry) (k : ℕ) : ℕ :=
  e.registers.length + ((e.inlineInfos.take k).map (·.registers.length)).sum

/-- The registers of a stack map: those of the method, then those of the inlined frames. -/
def StackMapEntry.allRegisters (e : StackMapEntry) : List DexRegisterLocation :=
  e.registers ++ e.inlineInfos.flatMap (·.registers)

/-- The index in the catalog of a location. -/
def CatalogIndex (catalog : List (List ℕ)) (loc : DexRegisterLocation) (row : List ℕ) : Prop :=
  ∃ index, row = [index] ∧
    if loc.isLive then SliceAt catalog index [catalogRow loc] else index = kNoValue

/-- The mask and the map of a stack map store the given changes. -/
structure Changes (s : StackMapStream) (changes : List (Option DexRegisterLocation))
    (row : List ℕ) : Prop where
  mask : (row.getD kDexRegisterMaskIndex 0 = kNoValue ∧ ∀ o ∈ changes, o = none) ∨
    SliceAt s.dexRegisterMasks.table.rows (row.getD kDexRegisterMaskIndex 0)
      [rawStorage (changes.map Option.isSome) (getNumberOfBits (changes.map Option.isSome))]
  map : changes ≠ [] → ∃ rows, SliceAt s.dexRegisterMaps.rows
      (row.getD kDexRegisterMapIndex 0) rows ∧
    List.Forall₂ (CatalogIndex s.dexRegisterCatalog.rows) changes.reduceOption rows

/-- The columns of a stack map other than its stack mask and its registers. -/
structure RowOf (alignment : ℕ) (s : StackMapStream) (e : StackMapEntry) (row : List ℕ) : Prop where
  length : row.length = 8
  kind : row.getD kKind 0 = e.kind.code
  nativePc : row.getD kPackedNativePc 0 = e.nativePcOffset / alignment
  dexPc : row.getD kDexPc 0 = e.dexPc
  registerMask : if e.registerMask = 0 then row.getD kRegisterMaskIndex 0 = kNoValue
    else SliceAt s.registerMasks.rows (row.getD kRegisterMaskIndex 0)
      [registerMaskRow e.registerMask]
  inlineInfos : if e.inlineInfos = [] then row.getD kInlineInfoIndex 0 = kNoValue
    else ∃ rows, SliceAt s.inlineInfos.rows (row.getD kInlineInfoIndex 0) rows ∧
      rows.length = e.inlineInfos.length ∧ ∀ k (hk : k < e.inlineInfos.length),
        InlineRow s.methodInfos.rows (e.registerCount (k + 1)) e.inlineInfos[k]
          (if k + 1 = e.inlineInfos.length then kLast else kMore)
          (rows.getD k [])
  registers : e.allRegisters = [] → row.getD kDexRegisterMapIndex 0 = kNoValue

variable {s s' : StackMapStream}

variable {rows rows' : List (List ℕ)} {row : List ℕ}

lemma CatalogIndex.mono {loc : DexRegisterLocation} (h : CatalogIndex rows loc row)
    (hp : rows <+: rows') : CatalogIndex rows' loc row := by
  obtain ⟨index, rfl, h⟩ := h
  refine ⟨index, rfl, ?_⟩
  by_cases hlive : loc.isLive = true
  · rw [if_pos hlive] at h ⊢
    exact h.mono hp
  · rwa [if_neg hlive] at h ⊢

lemma InlineRow.mono {count isLast : ℕ} {e : InlineEntry} (h : InlineRow rows count e isLast row)
    (hp : rows <+: rows') : InlineRow rows' count e isLast row := by
  obtain ⟨index, hi, lo, hrow, h⟩ := h
  refine ⟨index, hi, lo, hrow, ?_⟩
  by_cases hart : e.method.encodeArtMethod = true
  · rwa [if_pos hart] at h ⊢
  · rw [if_neg hart] at h ⊢
    exact ⟨h.1.mono hp, h.2⟩

lemma Changes.mono {changes : List (Option DexRegisterLocation)} (h : Changes s changes row)
    (hs : Extends s s') : Changes s' changes row := by
  refine ⟨h.mask.imp_right fun hm => hm.mono hs.dexRegisterMasks, fun hne => ?_⟩
  obtain ⟨rows, hrows, hall⟩ := h.map hne
  exact ⟨rows, hrows.mono hs.dexRegisterMaps, hall.imp fun _ _ hc => hc.mono hs.dexRegisterCatalog⟩

lemma RowOf.mono {alignment : ℕ} {e : StackMapEntry} (h : RowOf alignment s e row)
    (hs : Extends s s') : RowOf alignment s' e row := by
  refine { h with registerMask := ?_, inlineInfos := ?_ }
  · have hr := h.registerMask
    by_cases h0 : e.registerMask = 0
    · rwa [if_pos h0] at hr ⊢
    · rw [if_neg h0] at hr ⊢
      exact hr.mono hs.registerMasks
  · have hi := h.inlineInfos
    by_cases h0 : e.inlineInfos = []
    · rwa [if_pos h0] at hi ⊢
    · rw [if_neg h0] at hi ⊢
      obtain ⟨rows, hrows, hlen, hall⟩ := hi
      exact ⟨rows, hrows.mono hs.inlineInfos, hlen, fun k hk => (hall k hk).mono hs.methodInfos⟩

/-! ## The calls for a stack map -/

section

variable (alignment : ℕ) (rowHash : List (List ℕ) → ℕ) (bitmapHash : List (List Bool) → ℕ)

lemma foldl_addDexRegisterEntry (regs : List DexRegisterLocation) (s : StackMapStream) :
    regs.foldl addDexRegisterEntry s = { s with currentDexRegisters := s.currentDexRegisters ++ regs } := by
  induction regs generalizing s with
  | nil => simp
  | cons reg regs ih =>
    rw [foldl_cons, ih, addDexRegisterEntry]
    simp

variable (s : StackMapStream)

/-- The calls for an inlined frame add its row and its registers. -/
lemma recordInlineInfo_eq (e : InlineEntry) :
    ∃ methodInfos row, s.recordInlineInfo rowHash e = { s with
        methodInfos
        currentInlineInfos := s.currentInlineInfos ++ [row]
        currentDexRegisters := s.currentDexRegisters ++ e.registers
        expectedNumDexRegisters := s.expectedNumDexRegisters + e.registers.length } ∧
      s.methodInfos.rows <+: methodInfos.rows ∧
      (∀ info ∈ methodInfos.rows, info ∈ s.methodInfos.rows ∨ info = e.method.methodInfo e.dexPc) ∧
      InlineRow methodInfos.rows (s.expectedNumDexRegisters + e.registers.length) e kMore row := by
  rw [recordInlineInfo, foldl_addDexRegisterEntry, beginInlineInfoEntry]
  by_cases hart : e.method.encodeArtMethod = true
  · refine ⟨_, [kMore, e.dexPc, kNoValue, e.method.address / 2 ^ 32 % 2 ^ 32, e.method.address % 2 ^ 32,
      (s.expectedNumDexRegisters + e.registers.length) % 2 ^ 32], ?_, prefix_rfl,
      fun info h => .inl h, _, _, _, rfl, ?_⟩
    · simp only [if_pos hart]
      rfl
    · rw [if_pos hart]
      exact ⟨rfl, rfl, rfl⟩
  · obtain ⟨hp, hslice, hmem⟩ := s.methodInfos.dedup_spec rowHash [e.method.methodInfo e.dexPc]
    refine ⟨_, [kMore, e.dexPc,
      (s.methodInfos.dedup rowHash [e.method.methodInfo e.dexPc]).2, kNoValue, kNoValue,
      (s.expectedNumDexRegisters + e.registers.length) % 2 ^ 32], ?_, hp,
      fun info h => (hmem info h).imp_right mem_singleton.1, _, _, _, rfl, ?_⟩
    · simp only [if_neg hart]
      rfl
    · rw [if_neg hart]
      exact ⟨hslice, rfl, rfl⟩

lemma foldl_recordInlineInfo (es : List InlineEntry) (s : StackMapStream) :
    ∃ methodInfos rows, es.foldl (recordInlineInfo rowHash) s = { s with
        methodInfos
        currentInlineInfos := s.currentInlineInfos ++ rows
        currentDexRegisters := s.currentDexRegisters ++ es.flatMap (·.registers)
        expectedNumDexRegisters := s.expectedNumDexRegisters + (es.map (·.registers.length)).sum } ∧
      s.methodInfos.rows <+: methodInfos.rows ∧ (∀ info ∈ methodInfos.rows, info ∈ s.methodInfos.rows ∨
        ∃ e ∈ es, info = e.method.methodInfo e.dexPc) ∧
      rows.length = es.length ∧ ∀ k (hk : k < es.length), InlineRow methodInfos.rows
        (s.expectedNumDexRegisters + ((es.take (k + 1)).map (·.registers.length)).sum) es[k]
        kMore (rows.getD k []) := by
  induction es generalizing s with
  | nil => exact ⟨_, [], by simp, prefix_rfl, by simp, rfl, by simp⟩
  | cons e es ih =>
    obtain ⟨infos1, row, heq1, hp1, hmem1, hrow⟩ := recordInlineInfo_eq rowHash s e
    obtain ⟨infos2, rows, heq2, hp2, hmem2, hlen, hrows⟩ := ih (s.recordInlineInfo rowHash e)
    simp only [heq1] at heq2 hp2 hmem2 hrows
    refine ⟨infos2, row :: rows, ?_, hp1.trans hp2, fun info hinfo => ?_, by simp [hlen], fun k hk => ?_⟩
    · rw [foldl_cons, heq1, heq2]
      simp [add_assoc]
    · rcases hmem2 info hinfo with h | ⟨e', he', h⟩
      · exact (hmem1 info h).imp_right fun h => ⟨e, by simp, h⟩
      · exact .inr ⟨e', by simp [he'], h⟩
    · cases k with
      | zero => simpa using hrow.mono hp2
      | succ k =>
        have := hrows k (by simpa using hk)
        simpa [add_assoc] using this

variable (rows : List (List ℕ))

lemma length_setLast : (setLast rows).length = rows.length := by
  induction rows using setLast.induct with
  | case1 => rfl
  | case2 => rfl
  | case3 row rows hne ih => simp [setLast, ih]

lemma getD_setLast (k : ℕ) : (setLast rows).getD k [] =
    if k + 1 = rows.length then (rows.getD k []).set InlineInfo.kIsLast kLast
    else rows.getD k [] := by
  induction rows using setLast.induct generalizing k with
  | case1 => simp [setLast]
  | case2 row => cases k <;> simp [setLast]
  | case3 row rows hne ih =>
    cases k with
    | zero => simpa [setLast] using fun h => (hne h).elim
    | succ k => simpa [setLast] using ih k

/-- The loop of `CreateDexRegisterMap` after `i` registers, which changes those in `changes`. -/
structure RegisterInv (current previous₀ : List DexRegisterLocation) (catalog₀ : List (List ℕ))
    (i : ℕ) (changes : List (Option DexRegisterLocation)) (st : RegisterState) : Prop where
  length : changes.length = i
  change : ∀ j < i, changes.getD j none = some (current.getD j .none) ∨
    changes.getD j none = none ∧ previous₀.getD j .none = current.getD j .none
  mask : st.mask = changes.map Option.isSome ++ List.replicate (current.length - i) false
  map : List.Forall₂ (CatalogIndex st.catalog.rows) changes.reduceOption st.map
  previousLength : current.length ≤ st.previous.length
  previous : ∀ j, st.previous.getD j .none = if j < i then current.getD j .none else previous₀.getD j .none
  catalog : catalog₀ <+: st.catalog.rows
  mem : ∀ row ∈ st.catalog.rows, row ∈ catalog₀ ∨
    ∃ loc ∈ current, loc.isLive = true ∧ row = catalogRow loc

variable {α : Type} {i : ℕ}

lemma getD_set (l : List α) (hi : i < l.length) (j : ℕ) (x d : α) :
    (l.set i x).getD j d = if j = i then x else l.getD j d := by
  by_cases h : i = j
  · subst h
    simp [hi]
  · simp [h, Ne.symm h]

/-- The catalog after a changed register, and its index there. -/
lemma catalogIndex_dedup (catalog : TableBuilder (List ℕ)) (reg : DexRegisterLocation) :
    let p := if reg.isLive then catalog.dedup rowHash [catalogRow reg]
      else (catalog, kNoValue)
    catalog.rows <+: p.1.rows ∧ CatalogIndex p.1.rows reg [p.2] ∧ ∀ row ∈ p.1.rows, row ∈ catalog.rows ∨
        reg.isLive = true ∧ row = catalogRow reg := by
  by_cases hlive : reg.isLive = true
  · obtain ⟨hp, hslice, hmem⟩ := catalog.dedup_spec rowHash [catalogRow reg]
    simp only [if_pos hlive]
    exact ⟨hp, ⟨_, rfl, by rwa [if_pos hlive]⟩,
      fun row hrow => (hmem row hrow).imp_right fun h => ⟨hlive, mem_singleton.1 h⟩⟩
  · simp only [if_neg hlive]
    exact ⟨prefix_rfl, ⟨_, rfl, by rw [if_neg hlive]⟩, fun row hrow => .inl hrow⟩

lemma RegisterInv.step {current previous₀ : List DexRegisterLocation} {catalog₀ : List (List ℕ)}
    {now : ℕ} {changes : List (Option DexRegisterLocation)} {st : RegisterState}
    (h : RegisterInv current previous₀ catalog₀ i changes st) (hi : i < current.length) :
    ∃ o, RegisterInv current previous₀ catalog₀ (i + 1) (changes ++ [o])
      (recordRegister rowHash now current st i) := by
  have hprev : st.previous.getD i .none = previous₀.getD i .none := by
    rw [h.previous i, if_neg (lt_irrefl i)]
  have hchange : ∀ o, (o = some (current.getD i .none) ∨
      o = none ∧ previous₀.getD i .none = current.getD i .none) → ∀ j < i + 1,
      (changes ++ [o]).getD j none = some (current.getD j .none) ∨
        (changes ++ [o]).getD j none = none ∧ previous₀.getD j .none = current.getD j .none := by
    intro o ho j hj
    rcases Nat.lt_succ_iff_lt_or_eq.1 hj with hlt | rfl
    · rw [getD_append _ _ _ _ (by rw [h.length]; exact hlt)]
      exact h.change j hlt
    · rw [getD_append_right _ _ _ _ (by rw [h.length]), h.length, Nat.sub_self]
      exact ho
  have hrep : List.replicate (current.length - i) false =
      false :: List.replicate (current.length - (i + 1)) false := by
    rw [← replicate_succ]
    congr 1
    omega
  rw [recordRegister, hprev]
  by_cases hdiff : previous₀.getD i .none ≠ current.getD i .none ∨
      kMaxDexRegisterMapSearchDistance < now - st.timestamp.getD i 0
  · obtain ⟨hp, hindex, hmem⟩ := catalogIndex_dedup rowHash st.catalog _
    rw [if_pos hdiff]
    refine ⟨_, by simp [h.length], hchange _ (.inl rfl), ?_, ?_, ?_,
      fun j => ?_, h.catalog.trans hp, fun row hrow => ?_⟩
    · rw [h.mask, hrep, set_append_right _ _ (by simp [h.length])]
      simp [h.length]
    · rw [reduceOption_append]
      exact rel_append (h.map.imp fun _ _ hc => hc.mono hp) (.cons hindex .nil)
    · simpa using h.previousLength
    · rw [getD_set _ (hi.trans_le h.previousLength)]
      by_cases hj : j = i
      · rw [if_pos hj, if_pos (by omega), hj]
      · rw [if_neg hj, h.previous j]
        exact if_congr (by omega) rfl rfl
    · rcases hmem row hrow with hrow | ⟨hlive, rfl⟩
      · exact h.mem row hrow
      · refine .inr ⟨_, ?_, hlive, rfl⟩
        rw [getD_eq_getElem]
        exact getElem_mem hi
  · rw [if_neg hdiff]
    have hsame := not_not.1 (not_or.1 hdiff).1
    refine ⟨none, { h with
      length := by simp [h.length], change := hchange _ (.inr ⟨rfl, hsame⟩), mask := ?_, map := ?_
      previous := fun j => ?_ }⟩
    · rw [h.mask, hrep]
      simp
    · rw [reduceOption_append]
      simpa using h.map
    · rw [h.previous j]
      by_cases hj : j = i
      · rw [hj, if_neg (lt_irrefl i), if_pos (Nat.lt_succ_self i), hsame]
      · exact if_congr (by omega) rfl rfl

lemma getD_append_replicate (l : List α) (n i : ℕ) (d : α) :
    (l ++ List.replicate n d).getD i d = l.getD i d := by
  by_cases hi : i < l.length
  · rw [getD_append _ _ _ _ hi]
  · rw [getD_append_right _ _ _ _ (by omega), getD_eq_default l _ (by omega)]
    by_cases hn : i - l.length < n
    · simp
    · rw [getD_eq_default _ _ (by simpa using hn)]

lemma recordRegisters_spec :
    ∃ changes, RegisterInv s.currentDexRegisters s.previousDexRegisters s.dexRegisterCatalog.rows
      s.currentDexRegisters.length changes (s.recordRegisters rowHash) := by
  refine Loop.foldl_range (P := fun i st => ∃ changes, RegisterInv _
    _ _ i changes st) ⟨[], ?_⟩
    fun i hi st ⟨changes, h⟩ => ?_
  · refine ⟨rfl, by simp, by simp, .nil, ?_, fun j => ?_, prefix_rfl, fun row hrow => .inl hrow⟩
    · simp only [length_append, length_replicate]
      omega
    · exact getD_append_replicate ..
  · obtain ⟨o, ho⟩ := h.step rowHash hi
    exact ⟨_, ho⟩

/-- The mask of a stack map: absent if nothing changed. -/
lemma maskIndex_spec {masks : BitmapTableBuilder} (hmasks : masks.Ok) {row : List ℕ}
    (hlen : row.length = 8) (hrow : row.getD kDexRegisterMaskIndex 0 = kNoValue)
    (bits : List Bool) : ∃ masks' row', (if getNumberOfBits bits ≠ 0 then
        ((masks.dedup bitmapHash bits (getNumberOfBits bits)).1, row.set kDexRegisterMaskIndex
            (masks.dedup bitmapHash bits (getNumberOfBits bits)).2)
        else (masks, row)) = (masks', row') ∧
      masks'.Ok ∧ masks.table.rows <+: masks'.table.rows ∧ row'.length = 8 ∧
      (∀ k ≠ kDexRegisterMaskIndex, row'.getD k 0 = row.getD k 0) ∧
      ((row'.getD kDexRegisterMaskIndex 0 = kNoValue ∧ ∀ i, bits.getD i false = false) ∨
        SliceAt masks'.table.rows (row'.getD kDexRegisterMaskIndex 0)
          [rawStorage bits (getNumberOfBits bits)]) := by
  by_cases hbits : getNumberOfBits bits = 0
  · rw [if_neg (not_not.2 hbits)]
    exact ⟨masks, row, rfl, hmasks, prefix_rfl, hlen, fun _ _ => rfl,
      .inl ⟨hrow, fun i => getD_getNumberOfBits_le (by omega)⟩⟩
  · obtain ⟨hok, hp, hslice⟩ := BitmapTableBuilder.dedup_spec bitmapHash hmasks bits
    have hlt : kDexRegisterMaskIndex < row.length := by rw [hlen]; decide
    rw [if_pos hbits]
    refine ⟨_, _, rfl, hok, hp, by simpa using hlen, fun k hk => ?_, .inr ?_⟩
    · rw [getD_set _ hlt, if_neg hk]
    · rwa [getD_set _ hlt, if_pos rfl]

lemma exists_of_forall₂ {β : Type} {R : α → β → Prop} {l : List α} {l' : List β}
    (h : List.Forall₂ R l l') {b : β} (hb : b ∈ l') : ∃ a, R a b := by
  induction h with
  | nil => cases hb
  | @cons a _ _ _ hab _ ih =>
    rcases mem_cons.1 hb with rfl | hb
    · exact ⟨a, hab⟩
    · exact ih hb

/-- What `CreateDexRegisterMap` does to the stream: it stores the changed registers. -/
structure Created (s s' : StackMapStream) (changes : List (Option DexRegisterLocation)) :
    Prop where
  frame : ∃ previous timestamp catalog masks maps row, s' = { s with
    previousDexRegisters := previous, dexRegisterTimestamp := timestamp
    dexRegisterCatalog := catalog, dexRegisterMasks := masks, dexRegisterMaps := maps
    currentStackMap := row }
  ext : Extends s s'
  masks : s'.dexRegisterMasks.Ok
  length : s'.currentStackMap.length = 8
  row : ∀ k < 6, s'.currentStackMap.getD k 0 = s.currentStackMap.getD k 0
  stored : Changes s' changes s'.currentStackMap
  lengthChanges : changes.length = s.currentDexRegisters.length
  change : ∀ j < s.currentDexRegisters.length,
    changes.getD j none = some (s.currentDexRegisters.getD j .none) ∨ changes.getD j none = none ∧
      s.previousDexRegisters.getD j .none = s.currentDexRegisters.getD j .none
  previous : ∀ j, s'.previousDexRegisters.getD j .none = if j < s.currentDexRegisters.length then
    s.currentDexRegisters.getD j .none else s.previousDexRegisters.getD j .none
  catalogRows : ∀ row ∈ s'.dexRegisterCatalog.rows, row ∈ s.dexRegisterCatalog.rows ∨
    ∃ loc ∈ s.currentDexRegisters, loc.isLive = true ∧ row = catalogRow loc
  mapRows : ∀ row ∈ s'.dexRegisterMaps.rows, row ∈ s.dexRegisterMaps.rows ∨
    ∃ loc, CatalogIndex s'.dexRegisterCatalog.rows loc row

lemma created_createDexRegisterMap (hne : s.currentDexRegisters ≠ [])
    (hmasks : s.dexRegisterMasks.Ok) (hlen : s.currentStackMap.length = 8)
    (hrow : s.currentStackMap.getD kDexRegisterMaskIndex 0 = kNoValue) :
    ∃ changes, Created s (s.createDexRegisterMap rowHash bitmapHash) changes := by
  obtain ⟨changes, h⟩ := recordRegisters_spec rowHash s
  rw [createDexRegisterMap]
  generalize s.recordRegisters rowHash = r at h ⊢
  have hbits : r.mask = changes.map Option.isSome := by simpa using h.mask
  obtain ⟨masks, row, hif, hok, hpm, hlen', hrow', hmask⟩ := maskIndex_spec bitmapHash hmasks hlen hrow r.mask
  obtain ⟨hp, hslice, hmem⟩ := s.dexRegisterMaps.dedup_spec rowHash r.map
  rw [show (if getNumberOfBits r.mask ≠ 0 then _ else _) = { s with
      previousDexRegisters := r.previous, dexRegisterTimestamp := r.timestamp
      dexRegisterCatalog := r.catalog, dexRegisterMasks := masks, currentStackMap := row } by
    split_ifs at hif ⊢ <;> (cases hif; rfl), if_pos hne]
  have hlt : kDexRegisterMapIndex < row.length := by rw [hlen']; decide
  refine ⟨changes, ⟨_, _, _, _, _, _, rfl⟩,
    ⟨prefix_rfl, prefix_rfl, prefix_rfl, hpm, hp, h.catalog⟩, hok, by simpa using hlen',
    fun k hk => ?_, ⟨?_, fun _ => ⟨_, ?_, h.map⟩⟩, h.length, h.change, h.previous, h.mem,
    fun row hrow => (hmem row hrow).imp_right fun hrow => ?_⟩
  · rw [getD_set _ hlt, if_neg (by unfold kDexRegisterMapIndex; omega),
      hrow' k (by unfold kDexRegisterMaskIndex; omega)]
  · rw [getD_set _ hlt, ← hbits]
    refine hmask.imp_left fun ⟨hno, hfalse⟩ => ⟨hno, fun o ho => ?_⟩
    obtain ⟨j, hj, rfl⟩ := getElem_of_mem ho
    have hj' := hfalse j
    rw [hbits, getD_eq_getElem _ _ (by simpa using hj)] at hj'
    simpa using hj'
  · rw [getD_set _ hlt, if_pos rfl]
    exact hslice
  · exact exists_of_forall₂ h.map hrow

/-- The second part of `EndStackMapEntry`, which has nothing to store without registers. -/
lemma created_endStackMapEntry (hmasks : s.dexRegisterMasks.Ok) (hlen : s.currentStackMap.length = 8)
    (hrow : s.currentStackMap.getD kDexRegisterMaskIndex 0 = kNoValue) :
    ∃ changes s', (if s.currentDexRegisters ≠ [] then
        s.createDexRegisterMap rowHash bitmapHash else s) = s' ∧ Created s s' changes ∧
      (s.currentDexRegisters = [] → s' = s) := by
  by_cases h0 : s.currentDexRegisters = []
  · rw [if_neg (not_not.2 h0)]
    have hlen0 : s.currentDexRegisters.length = 0 := by rw [h0]; rfl
    refine ⟨[], s, rfl, ⟨⟨_, _, _, _, _, _, rfl⟩, .refl s, hmasks, hlen, fun _ _ => rfl,
      ⟨.inl ⟨hrow, by simp⟩, absurd rfl⟩, hlen0.symm, fun j hj => by omega, fun j => ?_,
      fun row hrow => .inl hrow, fun row hrow => .inl hrow⟩, fun _ => rfl⟩
    rw [if_neg (by omega)]
  · obtain ⟨changes, h⟩ := created_createDexRegisterMap rowHash bitmapHash s h0 hmasks hlen hrow
    exact ⟨changes, _, if_pos h0, h, fun h => absurd h h0⟩

/-- `BeginStackMapEntry` starts a row. -/
lemma beginStackMapEntry_eq (e : StackMapEntry) :
    ∃ registerMasks index, s.beginStackMapEntry alignment rowHash e.dexPc e.nativePcOffset
        e.registerMask e.stackMask e.kind e.needsVregInfo = { s with
          registerMasks
          currentStackMap := [e.kind.code, e.nativePcOffset / alignment, e.dexPc, index, kNoValue,
            kNoValue, kNoValue, kNoValue]
          lazyStackMasks := s.lazyStackMasks ++ [e.stackMask]
          currentInlineInfos := []
          currentDexRegisters := []
          expectedNumDexRegisters := if e.needsVregInfo then s.numDexRegisters else 0 } ∧
      s.registerMasks.rows <+: registerMasks.rows ∧ (∀ row ∈ registerMasks.rows, row ∈ s.registerMasks.rows ∨
        e.registerMask ≠ 0 ∧ row = registerMaskRow e.registerMask) ∧
      if e.registerMask = 0 then index = kNoValue
      else SliceAt registerMasks.rows index [registerMaskRow e.registerMask] := by
  simp only [beginStackMapEntry]
  by_cases h0 : e.registerMask = 0
  · rw [if_neg (not_not.2 h0)]
    exact ⟨_, kNoValue, rfl, prefix_rfl, fun row hrow => .inl hrow, by rw [if_pos h0]⟩
  · obtain ⟨hp, hslice, hmem⟩ := s.registerMasks.dedup_spec rowHash [registerMaskRow _]
    rw [if_pos h0]
    exact ⟨_, _, rfl, hp, fun row hrow => (hmem row hrow).imp_right fun h => ⟨h0, mem_singleton.1 h⟩,
      by rwa [if_neg h0]⟩

/-- What the calls for a stack map do to the stream. -/
structure Recorded (s : StackMapStream) (e : StackMapEntry) (s' : StackMapStream)
    (changes : List (Option DexRegisterLocation)) : Prop where
  frame : ∃ registerMasks inlineInfos methodInfos masks maps catalog previous timestamp row infos
    expected, s' = { s with
      registerMasks, inlineInfos, methodInfos
      dexRegisterMasks := masks
      dexRegisterMaps := maps
      dexRegisterCatalog := catalog
      previousDexRegisters := previous
      dexRegisterTimestamp := timestamp
      currentStackMap := row
      currentInlineInfos := infos
      currentDexRegisters := e.allRegisters
      expectedNumDexRegisters := expected
      stackMaps := s.stackMaps ++ [row]
      lazyStackMasks := s.lazyStackMasks ++ [e.stackMask] }
  ext : Extends s s'
  masks : s'.dexRegisterMasks.Ok
  row : RowOf alignment s' e s'.currentStackMap
  stackMask : s'.currentStackMap.getD kStackMaskIndex 0 = kNoValue
  stored : Changes s' changes s'.currentStackMap
  lengthChanges : changes.length = e.allRegisters.length
  change : ∀ j < e.allRegisters.length, changes.getD j none = some (e.allRegisters.getD j .none) ∨
    changes.getD j none = none ∧ s.previousDexRegisters.getD j .none = e.allRegisters.getD j .none
  previous : ∀ j, s'.previousDexRegisters.getD j .none = if j < e.allRegisters.length then
    e.allRegisters.getD j .none else s.previousDexRegisters.getD j .none
  registerMaskRows : ∀ row ∈ s'.registerMasks.rows, row ∈ s.registerMasks.rows ∨
    e.registerMask ≠ 0 ∧ row = registerMaskRow e.registerMask
  methodInfoRows : ∀ row ∈ s'.methodInfos.rows, row ∈ s.methodInfos.rows ∨
    ∃ i ∈ e.inlineInfos, row = i.method.methodInfo i.dexPc
  inlineInfoRows : ∀ row ∈ s'.inlineInfos.rows, row ∈ s.inlineInfos.rows ∨
    ∃ i ∈ e.inlineInfos, ∃ count isLast, (isLast = kMore ∨ isLast = kLast) ∧
      InlineRow s'.methodInfos.rows count i isLast row
  catalogRows : ∀ row ∈ s'.dexRegisterCatalog.rows, row ∈ s.dexRegisterCatalog.rows ∨
    ∃ loc ∈ e.allRegisters, loc.isLive = true ∧ row = catalogRow loc
  mapRows : ∀ row ∈ s'.dexRegisterMaps.rows, row ∈ s.dexRegisterMaps.rows ∨
    ∃ loc, CatalogIndex s'.dexRegisterCatalog.rows loc row

/-- The first part of `EndStackMapEntry`, which adds the inline infos. -/
lemma endInlineInfos_eq (t : StackMapStream) {a b c d : ℕ}
    (hrow : t.currentStackMap = [a, b, c, d, kNoValue, kNoValue, kNoValue, kNoValue]) :
    ∃ inlineInfos infos index, (if t.currentInlineInfos ≠ [] then { t with
          inlineInfos := (t.inlineInfos.dedup rowHash (setLast t.currentInlineInfos)).1
          currentInlineInfos := setLast t.currentInlineInfos
          currentStackMap := t.currentStackMap.set kInlineInfoIndex
            (t.inlineInfos.dedup rowHash (setLast t.currentInlineInfos)).2 }
        else t) = { t with
          inlineInfos
          currentInlineInfos := infos
          currentStackMap := [a, b, c, d, kNoValue, index, kNoValue, kNoValue] } ∧
      t.inlineInfos.rows <+: inlineInfos.rows ∧
      (∀ row ∈ inlineInfos.rows, row ∈ t.inlineInfos.rows ∨ row ∈ setLast t.currentInlineInfos) ∧
      if t.currentInlineInfos = [] then index = kNoValue
      else SliceAt inlineInfos.rows index (setLast t.currentInlineInfos) := by
  by_cases h0 : t.currentInlineInfos = []
  · rw [if_neg (not_not.2 h0)]
    exact ⟨_, _, kNoValue, by rw [← hrow], prefix_rfl, fun row hrow => .inl hrow, by rw [if_pos h0]⟩
  · obtain ⟨hp, hslice, hmem⟩ := t.inlineInfos.dedup_spec rowHash _
    rw [if_pos h0, hrow]
    exact ⟨_, _, _, rfl, hp, hmem, by rwa [if_neg h0]⟩

lemma inlineRow_setLast {methodInfos rows : List (List ℕ)} {count : ℕ} {e : InlineEntry} {k : ℕ}
    (h : InlineRow methodInfos count e kMore (rows.getD k [])) :
    InlineRow methodInfos count e (if k + 1 = rows.length then kLast else kMore)
      ((setLast rows).getD k []) := by
  rw [getD_setLast]
  by_cases hk : k + 1 = rows.length
  · obtain ⟨index, hi, lo, hrow, h⟩ := h
    rw [if_pos hk, if_pos hk, hrow]
    exact ⟨index, hi, lo, rfl, h⟩
  · rwa [if_neg hk, if_neg hk]

/-- The calls for a stack map store it. -/
lemma recorded_record (e : StackMapEntry) (hmasks : s.dexRegisterMasks.Ok)
    (hregs : e.registers.length = if e.needsVregInfo then s.numDexRegisters else 0) :
    ∃ changes, Recorded alignment s e (s.record alignment rowHash bitmapHash e) changes := by
  -- the calls in their order: each adds to tables that the later ones leave alone
  obtain ⟨registerMasks, ri, hbegin, hpr, hmemr, hri⟩ := beginStackMapEntry_eq alignment rowHash s e
  rw [record, hbegin, foldl_addDexRegisterEntry]
  generalize ht : e.inlineInfos.foldl _ _ = t
  obtain ⟨methodInfos, rows, hfold, hpm, hmemm, hlen, hrows⟩ := foldl_recordInlineInfo rowHash e.inlineInfos _
  rw [ht] at hfold
  simp only [nil_append] at hfold hpm hmemm hrows
  obtain ⟨inlineInfos, infos, index, hinline, hpi, hmemi, hindex⟩ := endInlineInfos_eq rowHash t (by rw [hfold])
  rw [endStackMapEntry]
  simp only
  generalize ite (t.currentInlineInfos ≠ []) _ t = u at hinline ⊢
  obtain ⟨changes, v, hv, hC, hsame⟩ := created_endStackMapEntry rowHash bitmapHash u
    (by rw [hinline, hfold]; exact hmasks) (by rw [hinline]; rfl) (by rw [hinline]; rfl)
  rw [hv]
  subst hfold hinline
  obtain ⟨previous, timestamp, catalog, masks, maps, row, rfl⟩ := hC.frame
  have hempty : rows = [] ↔ e.inlineInfos = [] := by rw [← length_eq_zero_iff, hlen, length_eq_zero_iff]
  refine ⟨changes, ⟨_, _, _, _, _, _, _, _, _, _, _, rfl⟩,
    ⟨hpr, hpi, hpm, hC.ext.dexRegisterMasks, hC.ext.dexRegisterMaps, hC.ext.dexRegisterCatalog⟩,
    hC.masks, ⟨hC.length, hC.row 0 (by decide), hC.row 1 (by decide), hC.row 2 (by decide), ?_, ?_, ?_⟩,
    hC.row 4 (by decide), ⟨hC.stored.mask, hC.stored.map⟩, hC.lengthChanges, hC.change, hC.previous,
    hmemr, hmemm, fun row hrow => ?_, hC.catalogRows, hC.mapRows⟩
  · have hrow := hC.row 3 (by decide)
    by_cases h0 : e.registerMask = 0
    · rw [if_pos h0] at hri ⊢
      exact hrow.trans hri
    · exact hrow ▸ hri
  · have hrow := hC.row 5 (by decide)
    by_cases h0 : e.inlineInfos = []
    · rw [if_pos (hempty.2 h0)] at hindex
      rw [if_pos h0]
      exact hrow.trans hindex
    · rw [if_neg (mt hempty.1 h0)] at hindex
      rw [if_neg h0]
      refine ⟨setLast rows, hrow ▸ hindex, by rw [length_setLast, hlen], fun k hk => ?_⟩
      have hk' := inlineRow_setLast (hrows k hk)
      rwa [hlen, ← hregs] at hk'
  · intro hnil
    have hu := congrArg currentStackMap (hsame hnil)
    exact congrArg (·.getD 7 0) hu
  · refine (hmemi row hrow).imp_right fun hrow => ?_
    obtain ⟨k, hk, rfl⟩ := getElem_of_mem hrow
    have hk' : k < e.inlineInfos.length := by rwa [length_setLast, hlen] at hk
    have hinfo := inlineRow_setLast (hrows k hk')
    rw [getD_eq_getElem _ _ hk] at hinfo
    refine ⟨e.inlineInfos[k], getElem_mem hk', _, _, ?_, hinfo⟩
    exact (ite_eq_or_eq ..).symm

end

end Art
