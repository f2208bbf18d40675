import Art.StackMap.Record
import Art.StackMap.BitMemoryRegion

/-!
# Round trip of a bit table

A table of numbers, whatever was written before it: `BitTableBase::Decode` reads back what
`BitTableBuilderBase::Encode` wrote, and the rows that `Dedup` returned an index for are at that
index of the table in the end.
-/

namespace Art

open Parsing List

namespace TableBuilder

variable {ρ : Type} [DecidableEq ρ] (hash : List ρ → ℕ)

/-- A sequence of calls of `Dedup`: the builder, and the indexes that are returned. -/
def dedupAll (b : TableBuilder ρ) : List (List ρ) → TableBuilder ρ × List ℕ
  | [] => (b, [])
  | values :: calls =>
    let result := dedupAll (b.dedup hash values).1 calls
    (result.1, (b.dedup hash values).2 :: result.2)

lemma prefix_dedupAll (b : TableBuilder ρ) (calls : List (List ρ)) :
    b.rows <+: (b.dedupAll hash calls).1.rows := by
  induction calls generalizing b with
  | nil => exact prefix_rfl
  | cons values calls ih => exact (b.dedup_spec hash values).1.trans (ih _)

/-- Each call has its rows in the table in the end: later calls only add rows behind. -/
lemma sliceAt_dedupAll (b : TableBuilder ρ) (calls : List (List ρ)) :
    Forall₂ (SliceAt (b.dedupAll hash calls).1.rows) (b.dedupAll hash calls).2 calls := by
  induction calls generalizing b with
  | nil => exact .nil
  | cons values calls ih =>
    exact .cons ((b.dedup_spec hash values).2.1.mono (prefix_dedupAll hash _ calls)) (ih _)

end TableBuilder

/-- The values and widths that `Encode` passes to `WriteBits`. -/
def tableWrites (kNumColumns : ℕ) (rows : List (List ℕ)) : List (ℕ × ℕ) :=
  let header := rows.length :: measure kNumColumns rows
  header.map (fun value => (varintSmall value, kVarintBits)) ++
    header.flatMap (fun value =>
      if kVarintMax < value then [(value, varintBytes value * 8)] else []) ++
    rows.flatMap fun row => zipWith (fun bits value => (storedValue value, bits))
      (measure kNumColumns rows) row

section Writes

variable {k : ℕ} {rows : List (List ℕ)}

lemma flatMap_tableWrites : (tableWrites k rows).flatMap (fun w => ofNat w.2 w.1) =
    encodeTable k rows := by
  rw [tableWrites, flatMap_append, flatMap_append, flatMap_map, flatMap_assoc,
    flatMap_assoc, encodeTable, writeInterleavedVarints]
  congr 2
  · congr 1
    funext value
    split <;> simp
  · funext row
    rw [encodeRow, flatMap_def, map_zipWith]

lemma tableWrites_fit (hrows : RowsOk k rows) (hn : rows.length < 2 ^ 32) :
    ∀ w ∈ tableWrites k rows, w.1 < 2 ^ w.2 ∧ w.2 ≤ 64 := by
  have hheader : ∀ v ∈ rows.length :: measure k rows, v < 2 ^ 32 :=
    forall_mem_cons.2 ⟨hn, fun b hb => (measure_le hb).trans_lt (by decide)⟩
  intro w hw
  rw [tableWrites, mem_append, mem_append] at hw
  rcases hw with (hw | hw) | hw
  · obtain ⟨v, hv, rfl⟩ := mem_map.1 hw
    exact ⟨varintSmall_lt (hheader v hv), show kVarintBits ≤ 64 by decide⟩
  · obtain ⟨v, hv, hw⟩ := mem_flatMap.1 hw
    have hbytes := varintBytes_le (hheader v hv)
    split at hw
    · rw [mem_singleton.1 hw]
      exact ⟨lt_two_pow_varintBytes v, by omega⟩
    · cases hw
  · obtain ⟨row, hrow, hw⟩ := mem_flatMap.1 hw
    obtain ⟨c, hc, rfl⟩ := mem_iff_getElem.1 hw
    rw [length_zipWith, length_measure, (hrows row hrow).1, min_self] at hc
    have hfit := storedValue_lt_measure hrow hc
    rw [getD_eq_getElem _ _ (by rwa [(hrows row hrow).1]), getD_eq_getElem _ _
      (by simpa using hc)] at hfit
    rw [getElem_zipWith]
    exact ⟨hfit, (measure_le (getElem_mem _)).trans (by decide)⟩

end Writes

open BitMemoryRegion in
/-- A table is read back from the bit of memory where it was written, up to its last bit, nothing
    before it changes, every read is a load, and the indexes that `Dedup` returned are those of
    equal rows. `ReadInterleavedVarints` takes at most 16 numbers. -/
theorem decode_encodeTable {k : ℕ} (hk : 1 + k ≤ 16) {rows : List (List ℕ)} (hrows : RowsOk k rows)
    (hn : rows.length < 2 ^ 32) (hsize : rows.length * (measure k rows).sum < 2 ^ 32)
    (data : ℕ → BitVec 8) (start : ℕ) :
    let memory := writeAll data start (tableWrites k rows)
    let finish := start + (encodeTable k rows).length
    (∀ n, ∃ t, BitTable.decode k (bits memory start ((encodeTable k rows).length + n)) =
        some (t, bits memory finish n) ∧
      t.numRows = rows.length ∧ ∀ r c, r < rows.length → c < k →
        t.get r c = (rows.getD r []).getD c 0) ∧
    (∀ i, i < start ∨ finish ≤ i → bit memory i = bit data i) ∧
    (∀ position size offset n, n ≤ 64 → offset + n ≤ size →
      toNat (((bits memory position size).drop offset).take n) =
        (loadBits 64 memory (position + offset) n).toNat) ∧
    ∀ (hash : List (List ℕ) → ℕ) (b : TableBuilder (List ℕ)) (calls : List (List (List ℕ))),
      Forall₂ (SliceAt (b.dedupAll hash calls).1.rows) (b.dedupAll hash calls).2 calls := by
  obtain ⟨hbits, hother⟩ := bits_writeAll (tableWrites_fit hrows hn) data start
  rw [flatMap_tableWrites] at hbits hother
  refine ⟨fun n => ⟨decodedTable k rows, ?_, rfl, fun r c hr hc => ?_⟩, hother,
    fun position size offset n hn' hsize' => toNat_slice hn' hsize' _ position,
    fun hash b calls => b.sliceAt_dedupAll hash calls⟩
  · rw [bits_add, hbits]
    exact consumes_encodeTable hrows (by omega) hn hsize _
  · rw [get_decodedTable hrows hsize hr hc, getD_eq_getElem _ _ hr]

open BitMemoryRegion in
/-- A column of -1 and a column that takes 32 bits, from the third bit on. -/
theorem decode_encodeTable_wide : ∃ t, BitTable.decode 2
      (bits (writeAll (fun _ => 255#8) 2 (tableWrites 2 [[kNoValue, 0xFFFFFFFE], [kNoValue, 7]])) 2
        ((encodeTable 2 [[kNoValue, 0xFFFFFFFE], [kNoValue, 7]]).length + 1)) =
      some (t, bits (writeAll (fun _ => 255#8) 2
        (tableWrites 2 [[kNoValue, 0xFFFFFFFE], [kNoValue, 7]]))
        (2 + (encodeTable 2 [[kNoValue, 0xFFFFFFFE], [kNoValue, 7]]).length) 1) ∧ t.numRows = 2 ∧
      ∀ r c, r < 2 → c < 2 →
        t.get r c =
          (([[kNoValue, 0xFFFFFFFE], [kNoValue, 7]] : List (List ℕ)).getD r []).getD c 0 :=
  (@decode_encodeTable 2 (by decide) [[kNoValue, 0xFFFFFFFE], [kNoValue, 7]]
    (by unfold RowsOk; decide)
    (by decide) (by decide +kernel) (fun _ => 255#8) 2).1 1

end Art
