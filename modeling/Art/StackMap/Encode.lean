import Mathlib.Tactic.IntervalCases
import Art.StackMap.Stream

/-!
# Encoding stack maps

The bytes of `Encode` decode to the tables of the stream, as long as these are within the limits
of the format: the offset of a column is a `uint16_t`, the size of a table a `uint32_t`.
-/

namespace Art

open Parsing
open CodeInfo (decode decodeBitTable)

/-- A table of numbers in a code info, which is left out if it is empty. -/
def storedTable (k : ℕ) (rows : List (List ℕ)) : BitTable :=
  if rows.length ≠ 0 then decodedTable k rows else {}

/-- A table of bitmaps in a code info. -/
def storedBitmaps (b : BitmapTableBuilder) : BitTable :=
  if b.table.rows.length ≠ 0 then decodedBitmaps b.maxNumBits b.table.rows else {}

/-- The rows of the table can be encoded. -/
structure TableFits (k : ℕ) (rows : List (List ℕ)) : Prop where
  rowsOk : RowsOk k rows
  numRows : rows.length < kNoValue
  size : rows.length * (measure k rows).sum < 2 ^ 32

/-- The bitmaps can be encoded. -/
structure BitmapsFit (b : BitmapTableBuilder) : Prop where
  numBits : b.maxNumBits < 2 ^ 16
  numRows : b.table.rows.length < kNoValue
  size : b.table.rows.length * b.maxNumBits < 2 ^ 32

section

variable {k : ℕ} {rows : List (List ℕ)} {b : BitmapTableBuilder}

@[simp] lemma numRows_storedTable : (storedTable k rows).numRows = rows.length := by
  rw [storedTable]
  split
  case isTrue => rfl
  case isFalse h0 => exact (not_ne_iff.1 h0).symm

lemma get_storedTable (h : TableFits k rows) {r c : ℕ} (hr : r < rows.length) (hc : c < k) :
    (storedTable k rows).get r c = (rows.getD r []).getD c 0 := by
  rw [storedTable, if_pos (by omega), get_decodedTable h.rowsOk h.size hr hc, List.getD_eq_getElem _ _ hr]

lemma region_storedBitmaps (h : BitmapsFit b) {r : ℕ} (hr : r < b.table.rows.length) :
    (storedBitmaps b).getBitMemoryRegion r = padRow b.maxNumBits (b.table.rows.getD r []) := by
  rw [storedBitmaps, if_pos (by omega), region_decodedBitmaps h.numBits h.size hr,
    List.getD_eq_getElem _ _ hr]

/-- A table that is stored if it has rows is read back. -/
lemma consumes_decodeBitTable {mem bits : List Bool} {flags i n : ℕ} {t : BitTable}
    (hhas : hasBitTable flags i = decide (n ≠ 0))
    (hded : isBitTableDeduped flags i = false)
    (h : n ≠ 0 → Consumes (BitTable.decode k) bits t) :
    Consumes (decodeBitTable mem flags k i) (if n ≠ 0 then bits else []) (if n ≠ 0 then t else {}) := by
  rw [decodeBitTable, hhas, hded]
  by_cases hn : n ≠ 0
  · rw [if_pos hn, if_pos hn, if_pos (decide_eq_true hn)]
    exact h hn
  · rw [if_neg hn, if_neg hn, if_neg (by simpa using hn)]
    exact consumes_pure _

lemma TableFits.consumes (h : TableFits k rows) (hk : k < 2 ^ 11) :
    Consumes (BitTable.decode k) (encodeTable k rows) (decodedTable k rows) :=
  consumes_encodeTable h.rowsOk hk (h.numRows.trans (by decide)) h.size

lemma BitmapsFit.consumes (h : BitmapsFit b) :
    Consumes (BitTable.decode 1) (encodeBitmaps b.maxNumBits b.table.rows)
      (decodedBitmaps b.maxNumBits b.table.rows) :=
  consumes_encodeBitmaps h.numBits (h.numRows.trans (by decide)) h.size

end

namespace StackMapStream

/-- The code info that the bytes of `Encode` decode to. -/
def codeInfo (s : StackMapStream) : CodeInfo where
  header := s.header
  tables := [storedTable 8 s.stackMaps, storedTable 2 s.registerMasks.rows,
    storedBitmaps s.stackMasks, storedTable 6 s.inlineInfos.rows, storedTable 3 s.methodInfos.rows,
    storedBitmaps s.dexRegisterMasks, storedTable 1 s.dexRegisterMaps.rows,
    storedTable 2 s.dexRegisterCatalog.rows]

/-- The tables and the numbers of the header can be encoded. -/
structure Fits (s : StackMapStream) : Prop where
  stackMaps : TableFits 8 s.stackMaps
  registerMasks : TableFits 2 s.registerMasks.rows
  stackMasks : BitmapsFit s.stackMasks
  inlineInfos : TableFits 6 s.inlineInfos.rows
  methodInfos : TableFits 3 s.methodInfos.rows
  dexRegisterMasks : BitmapsFit s.dexRegisterMasks
  dexRegisterMaps : TableFits 1 s.dexRegisterMaps.rows
  dexRegisterCatalog : TableFits 2 s.dexRegisterCatalog.rows
  codeSize : s.codeSize < 2 ^ 32
  packedFrameSize : s.packedFrameSize < 2 ^ 32
  coreSpillMask : s.coreSpillMask < 2 ^ 32
  fpSpillMask : s.fpSpillMask < 2 ^ 32
  numDexRegisters : s.numDexRegisters < 2 ^ 32

variable {s : StackMapStream}

/-- The flags of the tables that are present. -/
def tableFlags (present : List Bool) : ℕ :=
  (present.zipIdx.map fun (b, i) => if b then 2 ^ i else 0).foldl (· ||| ·) 0

lemma bitTableFlags_eq (s : StackMapStream) :
    s.bitTableFlags = tableFlags (s.bitTables.map fun table => decide (table.1 ≠ 0)) := by
  simp [bitTableFlags, tableFlags, bitTables]

lemma tableFlags_spec (b0 b1 b2 b3 b4 b5 b6 b₇ : Bool) :
    tableFlags [b0, b1, b2, b3, b4, b5, b6, b₇] < 2 ^ 8 ∧ ∀ i < 8,
      hasBitTable (tableFlags [b0, b1, b2, b3, b4, b5, b6, b₇]) i =
        [b0, b1, b2, b3, b4, b5, b6, b₇].getD i false := by
  revert b0 b1 b2 b3 b4 b5 b6 b₇
  decide +kernel

lemma bitTableFlags_spec (s : StackMapStream) : s.bitTableFlags < 2 ^ 8 ∧
    ∀ i < 8, hasBitTable s.bitTableFlags i = decide ((s.bitTables.getD i (0, [])).1 ≠ 0) := by
  rw [bitTableFlags_eq]
  obtain ⟨hlt, hhas⟩ := tableFlags_spec _ _ _ _ _ _ _ _
  refine ⟨hlt, fun i hi => (hhas i hi).trans ?_⟩
  interval_cases i <;> rfl

lemma isDeduped_eq_false {flags i : ℕ} (h : flags < 2 ^ 8) : isBitTableDeduped flags i = false :=
  Nat.testBit_lt_two_pow (h.trans_le (Nat.pow_le_pow_right (by decide) (Nat.le_add_right ..)))

lemma flags_spec (s : StackMapStream) : s.flags < 8 ∧
    s.flags.testBit 0 = decide (s.inlineInfos.rows.length > 0) ∧ s.flags.testBit 1 = s.baseline := by
  rw [flags]
  cases s.baseline <;> cases s.debuggable <;> split <;> simp [*] <;> decide

/-- The code info is read back from its header and from the tables that are not empty. -/
lemma consumes_decode (hheader : ∀ v ∈ s.header, v < 2 ^ 32) (mem : List Bool)
    (enc : ℕ → List Bool) (val : ℕ → BitTable)
    (h : ∀ i < 8, (s.bitTables.getD i (0, [])).1 ≠ 0 →
      Consumes (BitTable.decode (numColumns.getD i 0)) (enc i) (val i)) :
    Consumes (decode mem) (writeInterleavedVarints s.header ++
        (List.range 8).flatMap fun i => if (s.bitTables.getD i (0, [])).1 ≠ 0 then enc i else [])
      ⟨s.header, (List.range 8).map fun i =>
        if (s.bitTables.getD i (0, [])).1 ≠ 0 then val i else {}⟩ := by
  obtain ⟨hlt, hhas⟩ := bitTableFlags_spec s
  have hcolumns : ∀ p ∈ numColumns.zipIdx, p.2 < 8 ∧ p.1 = numColumns.getD p.2 0 := by decide
  have htables : Consumes (numColumns.zipIdx.mapM fun p =>
      decodeBitTable mem s.bitTableFlags p.1 p.2) _ _ :=
    consumes_mapM fun p hp => by
      obtain ⟨hi, hk⟩ := hcolumns p hp
      exact consumes_decodeBitTable (hhas p.2 hi) (isDeduped_eq_false hlt) (hk ▸ h p.2 hi)
  have hinfo := htables.bind (f := fun tables => pure (⟨s.header, tables⟩ : CodeInfo)) (consumes_pure _)
  rw [List.append_nil] at hinfo
  exact (consumes_readInterleavedVarints hheader).bind hinfo

lemma header_lt (hcode : s.codeSize < 2 ^ 32) (hframe : s.packedFrameSize < 2 ^ 32)
    (hcore : s.coreSpillMask < 2 ^ 32) (hfp : s.fpSpillMask < 2 ^ 32)
    (hregs : s.numDexRegisters < 2 ^ 32) : ∀ v ∈ s.header, v < 2 ^ 32 := by
  have hflags := (flags_spec s).1
  have htables := (bitTableFlags_spec s).1
  simp only [header, List.mem_cons, List.not_mem_nil, or_false, forall_eq_or_imp, forall_eq]
  exact ⟨by omega, hcode, hframe, hcore, hfp, hregs, by omega⟩

lemma Fits.consumes (h : s.Fits) (mem : List Bool) :
    Consumes (decode mem) s.writtenBits s.codeInfo := by
  refine consumes_decode (header_lt h.codeSize h.packedFrameSize h.coreSpillMask
    h.fpSpillMask h.numDexRegisters) mem (fun i => (s.bitTables.getD i (0, [])).2)
    (fun i => [decodedTable 8 s.stackMaps, decodedTable 2 s.registerMasks.rows,
      decodedBitmaps s.stackMasks.maxNumBits s.stackMasks.table.rows,
      decodedTable 6 s.inlineInfos.rows, decodedTable 3 s.methodInfos.rows,
      decodedBitmaps s.dexRegisterMasks.maxNumBits s.dexRegisterMasks.table.rows,
      decodedTable 1 s.dexRegisterMaps.rows, decodedTable 2 s.dexRegisterCatalog.rows].getD i {})
    fun i hi _ => ?_
  interval_cases i
  · exact h.stackMaps.consumes (by decide)
  · exact h.registerMasks.consumes (by decide)
  · exact h.stackMasks.consumes
  · exact h.inlineInfos.consumes (by decide)
  · exact h.methodInfos.consumes (by decide)
  · exact h.dexRegisterMasks.consumes
  · exact h.dexRegisterMaps.consumes (by decide)
  · exact h.dexRegisterCatalog.consumes (by decide)

/-- The first two bits are flags, which the runtime reads without decoding the rest. -/
lemma getD_writtenBits (s : StackMapStream) (x : List Bool) :
    (s.writtenBits ++ x).getD 0 false = decide (s.inlineInfos.rows.length > 0) ∧
      (s.writtenBits ++ x).getD 1 false = s.baseline := by
  obtain ⟨hlt, h0, h1⟩ := flags_spec s
  have hsmall : varintSmall s.flags = s.flags := if_neg (by rw [kVarintMax]; omega)
  rw [← h0, ← h1]
  refine ⟨?_, ?_⟩ <;>
    simp [writtenBits, writeInterleavedVarints, StackMapStream.header, hsmall, kVarintBits, ofNat,
      Nat.testBit_succ]

/-- The checks of `Encode` pass, and its bytes decode to the tables of the stream. -/
lemma Fits.encode_eq (h : s.Fits) : ∃ rest, s.encode = some (byteAlign s.writtenBits) ∧
    decode (byteAlign s.writtenBits) (byteAlign s.writtenBits) = some (s.codeInfo, rest) := by
  obtain ⟨x, hx⟩ := (byteAlign_spec s.writtenBits).1
  have hdecode : decode (byteAlign s.writtenBits) (byteAlign s.writtenBits) = some (s.codeInfo, x) := by
    conv_lhs => rw [hx]
    exact h.consumes _ x
  refine ⟨x, ?_, hdecode⟩
  obtain ⟨h0, h1⟩ := getD_writtenBits s x
  rw [encode, hdecode]
  refine if_pos ⟨?_, numRows_storedTable, ?_, ?_⟩
  · rw [hx, List.length_append, Nat.add_sub_cancel]
  · rw [hx, h0]
  · rw [hx, h1]

end StackMapStream

end Art
