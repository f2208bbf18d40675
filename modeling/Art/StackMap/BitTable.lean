import Mathlib.Algebra.Order.BigOperators.Group.List
import Mathlib.Data.Nat.Size
import Art.Lib.Parser

/-!
# Bit tables

The bit streams of `libartbase/base/bit_memory_region.h` and the tables of
`libartbase/base/bit_table.h`. Memory is the list of its bits, the least significant
bit of the first byte first; a region is a sublist, a reader a parser, and a writer
appends to a list.
-/

namespace Art

open Parsing List

/-! ## Variable-length integers -/

def kVarintBits : ℕ := 4

/-- `kVarintMax`, the largest value that is stored inline. -/
def kVarintMax : ℕ := 11

def bitsToBytesRoundUp (numBits : ℕ) : ℕ := (numBits + 7) / 8

/-- `ByteAlign()`: the output up to a whole number of bytes. -/
def byteAlign (output : List Bool) : List Bool :=
  output ++ List.replicate (bitsToBytesRoundUp output.length * 8 - output.length) false

lemma byteAlign_spec (output : List Bool) :
    (∃ x, byteAlign output = output ++ x) ∧ 8 ∣ (byteAlign output).length := by
  refine ⟨⟨_, rfl⟩, ?_⟩
  rw [byteAlign, length_append, length_replicate, bitsToBytesRoundUp]
  omega

variable (value : ℕ)

def minimumBitsToStore : ℕ := value.size

/-- The number of bytes that follow for a large value. -/
def varintBytes : ℕ := bitsToBytesRoundUp (minimumBitsToStore value)

/-- The four bits of a value: the value itself, or how many bytes it takes. -/
def varintSmall : ℕ := if kVarintMax < value then kVarintMax + varintBytes value else value

/-- `WriteInterleavedVarints(values)`: all small values first, the large values after them. -/
def writeInterleavedVarints (values : List ℕ) : List Bool :=
  values.flatMap (fun value => ofNat kVarintBits (varintSmall value)) ++
    values.flatMap fun value => if kVarintMax < value then ofNat (varintBytes value * 8) value else []

def writeVarint : List Bool := writeInterleavedVarints [value]

def readInterleavedVarints (n : ℕ) : Parser Bool (List ℕ) := do
  let data ← readBits (n * kVarintBits)
  let values := (List.range n).map fun i => data / 2 ^ (i * kVarintBits) % 2 ^ kVarintBits
  values.mapM fun value =>
    if kVarintMax < value then readBits ((value - kVarintMax) * 8) else pure value

def readVarint : Parser Bool ℕ := do
  let x ← readBits kVarintBits
  if x ≤ kVarintMax then pure x else readBits ((x - kVarintMax) * 8)

lemma lt_two_pow_varintBytes (v : ℕ) : v < 2 ^ (varintBytes v * 8) := by
  refine (Nat.lt_size_self v).trans_le (Nat.pow_le_pow_right (by decide) ?_)
  show v.size ≤ (v.size + 7) / 8 * 8
  omega

variable {v : ℕ}

lemma varintBytes_le (h : v < 2 ^ 32) : varintBytes v ≤ 4 := by
  have := Nat.size_le.2 h
  show (v.size + 7) / 8 ≤ 4
  omega

lemma varintBytes_pos (h : kVarintMax < v) : 0 < varintBytes v := by
  have : 0 < v.size := Nat.size_pos.2 (by omega)
  show 0 < (v.size + 7) / 8
  omega

lemma varintSmall_lt (h : v < 2 ^ 32) : varintSmall v < 2 ^ kVarintBits := by
  have := varintBytes_le h
  unfold varintSmall kVarintMax kVarintBits
  split <;> omega

/-- Reading the second part of a value. -/
lemma consumes_large (v : ℕ) :
    Consumes (if kVarintMax < varintSmall v then readBits ((varintSmall v - kVarintMax) * 8)
        else pure (varintSmall v))
      (if kVarintMax < v then ofNat (varintBytes v * 8) v else []) v := by
  by_cases hv : kVarintMax < v
  · have hs : varintSmall v = kVarintMax + varintBytes v := if_pos hv
    have := varintBytes_pos hv
    rw [hs, if_pos (by omega), if_pos hv, Nat.add_sub_cancel_left]
    exact consumes_readBits (lt_two_pow_varintBytes v)
  · have hs : varintSmall v = v := if_neg hv
    rw [hs, if_neg hv, if_neg hv]
    exact consumes_pure v

/-- The fields of four bits of the first part. -/
lemma varint_fields (values : List ℕ) (h : ∀ v ∈ values, v < 2 ^ 32) :
    (List.range values.length).map (fun i =>
      toNat (values.flatMap fun v => ofNat kVarintBits (varintSmall v)) / 2 ^ (i * kVarintBits) %
        2 ^ kVarintBits) = values.map varintSmall := by
  induction values with
  | nil => rfl
  | cons v values ih =>
    have hv := varintSmall_lt (h v (by simp))
    rw [length_cons, range_succ_eq_map, map_cons, map_map, map_cons,
      ← ih fun w hw => h w (by simp [hw]), flatMap_cons, toNat_append, toNat_ofNat hv, length_ofNat]
    refine congrArg₂ List.cons ?_ (map_congr_left fun i _ => ?_)
    · rw [zero_mul, Nat.pow_zero, Nat.div_one, Nat.add_mul_mod_self_left, Nat.mod_eq_of_lt hv]
    · show _ / 2 ^ ((i + 1) * kVarintBits) % _ = _
      rw [add_mul, one_mul, add_comm (i * kVarintBits), Nat.pow_add,
        ← Nat.div_div_eq_div_mul, Nat.add_mul_div_left _ _ (Nat.two_pow_pos _), Nat.div_eq_of_lt hv, zero_add]

variable {α : Type} {n : ℕ}

lemma length_flatMap_const {β : Type} {l : List α} {f : α → List β}
    (h : ∀ x ∈ l, (f x).length = n) : (l.flatMap f).length = l.length * n := by
  induction l with
  | nil => simp
  | cons x l ih =>
    rw [flatMap_cons, length_append, ih fun y hy => h y (by simp [hy]), h x (by simp), length_cons]
    ring

variable {values : List ℕ}

/-- The varints read back are those written. -/
lemma consumes_readInterleavedVarints (h : ∀ v ∈ values, v < 2 ^ 32) :
    Consumes (readInterleavedVarints values.length) (writeInterleavedVarints values) values := by
  have hlen : (values.flatMap fun v => ofNat kVarintBits (varintSmall v)).length =
      values.length * kVarintBits := length_flatMap_const fun v _ => length_ofNat ..
  have h1 := (consumes_take (values.flatMap fun v => ofNat kVarintBits (varintSmall v))).map toNat
  rw [hlen] at h1
  refine h1.bind ?_
  rw [varint_fields values h, mapM_map]
  have := consumes_mapM fun v (_ : v ∈ values) => consumes_large v
  rwa [map_id'] at this

lemma local_readInterleavedVarints (n : ℕ) : Local (readInterleavedVarints n) :=
  (local_readBits _).bind fun _ => local_mapM (fun v => by
    split
    · exact local_readBits _
    · exact local_pure v) _

/-- The varints that are read are `uint32_t`. -/
lemma readInterleavedVarints_lt {l r : List Bool} (h : readInterleavedVarints n l = some (values, r)) :
    values.length = n ∧ ∀ v ∈ values, v < 2 ^ 32 := by
  obtain ⟨⟨data, l'⟩, -, h⟩ := Option.bind_eq_some_iff.1 h
  have hall := mapM_forall (Q := (· < 2 ^ 32)) (fun small hsmall l v r hv => ?_) h
  · simpa using hall
  · obtain ⟨i, -, rfl⟩ := mem_map.1 hsmall
    have hlt := Nat.mod_lt (data / 2 ^ (i * kVarintBits)) (Nat.two_pow_pos kVarintBits)
    generalize data / 2 ^ (i * kVarintBits) % 2 ^ kVarintBits = small at hv hlt
    unfold kVarintBits at hlt
    unfold kVarintMax at hv
    split at hv
    next =>
      obtain ⟨⟨bits, l''⟩, hb, hr⟩ := Option.bind_eq_some_iff.1 hv
      obtain ⟨rfl, -⟩ := eq_of_pure hr
      refine (toNat_lt bits).trans_le (Nat.pow_le_pow_right (by decide) ?_)
      rw [length_of_take hb]
      omega
    next =>
      obtain ⟨rfl, -⟩ := eq_of_pure hv
      omega

lemma consumes_readVarint (h : v < 2 ^ 32) : Consumes readVarint (writeVarint v) v := by
  have hw : writeVarint v = ofNat kVarintBits (varintSmall v) ++
      if kVarintMax < v then ofNat (varintBytes v * 8) v else [] := by
    simp [writeVarint, writeInterleavedVarints]
  rw [hw]
  refine (consumes_readBits (varintSmall_lt h)).bind ?_
  have := consumes_large v
  simp only [← not_lt, ite_not]
  exact this

lemma local_readVarint : Local readVarint := (local_readBits _).bind fun x => by
    split
    · exact local_pure x
    · exact local_readBits _

/-! ## Tables -/

def kNoValue : ℕ := 2 ^ 32 - 1

/-- `BitTableBase`: the fields of a decoded table. -/
@[ext]
structure BitTable where
  numRows : ℕ := 0
  columnOffset : List ℕ := []
  tableData : List Bool := []
  deriving DecidableEq

namespace BitTable

/-- The ends of the columns after the one that starts at `offset`; a `uint16_t` holds each. -/
def columnEnds : ℕ → List ℕ → List ℕ
  | _, [] => []
  | offset, bits :: columnBits =>
    (offset + bits) % 2 ^ 16 :: columnEnds ((offset + bits) % 2 ^ 16) columnBits

variable (t : BitTable)

/-- `column_offset_[column]`. -/
def offset (column : ℕ) : ℕ := t.columnOffset.getD column 0

def numRowBits : ℕ := t.columnOffset.getLastD 0

def numColumnBits (column : ℕ) : ℕ := (t.offset (column + 1) + 2 ^ 32 - t.offset column) % 2 ^ 32

/-- `Decode(reader)` of a table with `kNumColumns` columns. -/
def decode (kNumColumns : ℕ) : Parser Bool BitTable := do
  let header ← readInterleavedVarints (1 + kNumColumns)
  let numRows := header.headD 0
  let columnOffset := 0 :: columnEnds 0 header.tail
  let tableData ← take (numRows * columnOffset.getLastD 0 % 2 ^ 32)
  return { numRows, columnOffset, tableData }

def getBitMemoryRegion (row : ℕ) (column : ℕ := 0) : List Bool :=
  let offset := (row * t.numRowBits + t.offset column) % 2 ^ 32
  (t.tableData.drop offset).take (t.numColumnBits column)

/-- `Get(row, column)`: the value less one, so that -1 is stored as zero. -/
def get (row : ℕ) (column : ℕ := 0) : ℕ := (toNat (t.getBitMemoryRegion row column) + kNoValue) % 2 ^ 32

/-- A table whose columns start after each other, in a form that is easy to compute with. -/
def ofColumns (numRows : ℕ) (columnBits : List ℕ) (tableData : List Bool) : BitTable :=
  ⟨numRows, (List.range (columnBits.length + 1)).map fun c => (columnBits.take c).sum, tableData⟩

variable {bits : List ℕ}

lemma columnEnds_eq {offset : ℕ} (h : offset + bits.sum < 2 ^ 16) : columnEnds offset bits =
      (List.range bits.length).map fun c => offset + (bits.take (c + 1)).sum := by
  induction bits generalizing offset with
  | nil => rfl
  | cons b bits ih =>
    rw [sum_cons] at h
    rw [columnEnds, Nat.mod_eq_of_lt (by omega), ih (by omega), length_cons,
      range_succ_eq_map, map_cons, map_map]
    refine congrArg₂ List.cons (by simp) (map_congr_left fun c _ => ?_)
    simp [add_assoc]

lemma columnOffset_eq (h : bits.sum < 2 ^ 16) : 0 :: columnEnds 0 bits =
      (List.range (bits.length + 1)).map fun c => (bits.take c).sum := by
  rw [columnEnds_eq (by omega), range_succ_eq_map, map_cons, map_map]
  simp [Function.comp_def]

variable {n : ℕ} {bits : List ℕ} {data : List Bool}

@[simp] lemma tableData_ofColumns : (ofColumns n bits data).tableData = data := rfl

variable {c : ℕ}

lemma offset_ofColumns (hc : c ≤ bits.length) : (ofColumns n bits data).offset c = (bits.take c).sum := by
  rw [offset, ofColumns, getD_eq_getElem _ _ (by simp; omega)]
  simp

@[simp] lemma numRowBits_ofColumns : (ofColumns n bits data).numRowBits = bits.sum := by
  simp [numRowBits, ofColumns, range_succ]

lemma numColumnBits_ofColumns (hc : c < bits.length) (h : bits.sum < 2 ^ 32) :
    (ofColumns n bits data).numColumnBits c = bits[c] := by
  have hle : bits[c] ≤ bits.sum := single_le_sum (by simp) _ (getElem_mem hc)
  rw [numColumnBits, offset_ofColumns (by omega), offset_ofColumns (by omega), sum_take_succ _ _ hc]
  rw [show (bits.take c).sum + bits[c] + 2 ^ 32 - (bits.take c).sum = bits[c] + 2 ^ 32 by omega,
    Nat.add_mod_right, Nat.mod_eq_of_lt (by omega)]

/-- A table is read back from its header and its data. -/
lemma consumes_decode (hn : n < 2 ^ 32) (hbits : ∀ b ∈ bits, b < 2 ^ 32)
    (hrow : bits.sum < 2 ^ 16) (hdata : data.length = n * bits.sum)
    (hsize : n * bits.sum < 2 ^ 32) :
    Consumes (decode bits.length) (writeInterleavedVarints (n :: bits) ++ data)
      (ofColumns n bits data) := by
  have hhead : Consumes (readInterleavedVarints (1 + bits.length))
      (writeInterleavedVarints (n :: bits)) (n :: bits) := by
    rw [add_comm]
    refine consumes_readInterleavedVarints fun v hv => ?_
    rcases mem_cons.1 hv with rfl | hv
    · exact hn
    · exact hbits v hv
  refine hhead.bind ?_
  have hlast : ((0 :: columnEnds 0 bits).getLastD 0) = bits.sum := by
    rw [columnOffset_eq hrow]
    exact @numRowBits_ofColumns n bits data
  simp only [headD_cons, tail_cons, hlast]
  rw [Nat.mod_eq_of_lt hsize, ← hdata, columnOffset_eq hrow]
  have := Consumes.bind (f := fun d => pure (ofColumns n bits d)) (consumes_take data) (consumes_pure _)
  rw [append_nil] at this
  exact this

/-- A table depends on nothing but its own bits. -/
lemma local_decode (kNumColumns : ℕ) : Local (decode kNumColumns) :=
  (local_readInterleavedVarints _).bind fun _ => (local_take _).bind fun _ => local_pure _

end BitTable

/-! ## Encoding tables of numbers -/

/-- A value less `kValueBias`, as it is stored. -/
def storedValue : ℕ := (value + 1) % 2 ^ 32

/-- The bits that are set in some value of a column. -/
def maxColumnValue (rows : List (List ℕ)) (column : ℕ) : ℕ :=
  rows.foldl (fun acc row => acc ||| storedValue (row.getD column 0)) 0

def measure (kNumColumns : ℕ) (rows : List (List ℕ)) : List ℕ :=
  (List.range kNumColumns).map fun c => minimumBitsToStore (maxColumnValue rows c)

/-- The bits of a row. -/
def encodeRow (columnBits row : List ℕ) : List Bool :=
  (List.zipWith (fun bits value => ofNat bits (storedValue value)) columnBits row).flatten

/-- `BitTableBuilderBase::Encode`. -/
def encodeTable (kNumColumns : ℕ) (rows : List (List ℕ)) : List Bool :=
  writeInterleavedVarints (rows.length :: measure kNumColumns rows) ++
    rows.flatMap (encodeRow (measure kNumColumns rows))

variable {i : ℕ}

/-- A part of a concatenation. -/
lemma slice_flatten (L : List (List α)) (hi : i < L.length) :
    (L.flatten.drop (L.take i).flatten.length).take L[i].length = L[i] := by
  have hL : L.flatten = (L.take i).flatten ++ (L[i] ++ (L.drop (i + 1)).flatten) := by
    rw [← flatten_cons, ← drop_eq_getElem_cons hi, ← flatten_append, take_append_drop]
  rw [hL, drop_left, take_left]

variable {m : ℕ}

lemma le_foldl_or (l : List α) (f : α → ℕ) (n : ℕ) : n ≤ l.foldl (fun acc x => acc ||| f x) n ∧
      ∀ x ∈ l, f x ≤ l.foldl (fun acc x => acc ||| f x) n := by
  induction l generalizing n with
  | nil => exact ⟨le_rfl, by simp⟩
  | cons x l ih =>
    obtain ⟨h1, h2⟩ := ih (n ||| f x)
    refine ⟨Nat.left_le_or.trans h1, fun y hy => ?_⟩
    rcases mem_cons.1 hy with rfl | hy
    · exact Nat.right_le_or.trans h1
    · exact h2 y hy

lemma foldl_or_lt (l : List α) (f : α → ℕ) (hn : n < 2 ^ m) (hf : ∀ x ∈ l, f x < 2 ^ m) :
    l.foldl (fun acc x => acc ||| f x) n < 2 ^ m := by
  induction l generalizing n with
  | nil => exact hn
  | cons x l ih => exact ih (Nat.or_lt_two_pow hn (hf x (by simp))) fun y hy => hf y (by simp [hy])

section

variable {k : ℕ} {rows : List (List ℕ)}

@[simp] lemma length_measure : (measure k rows).length = k := by simp [measure]

lemma measure_le {b : ℕ} (hb : b ∈ measure k rows) : b ≤ 32 := by
  obtain ⟨c, -, rfl⟩ := mem_map.1 hb
  exact Nat.size_le.2 (foldl_or_lt rows _ (by decide) fun row _ => Nat.mod_lt _ (by decide))

lemma sum_measure_le : (measure k rows).sum ≤ k * 32 := by
  have := sum_le_card_nsmul (measure k rows) 32 fun b hb => measure_le hb
  simpa using this

variable {row : List ℕ} {c : ℕ}

/-- Every value of a column fits its width. -/
lemma storedValue_lt_measure (hrow : row ∈ rows) (hc : c < k) :
    storedValue (row.getD c 0) < 2 ^ (measure k rows).getD c 0 := by
  have hle := (le_foldl_or rows (fun row => storedValue (row.getD c 0)) 0).2 row hrow
  have := Nat.lt_size_self (maxColumnValue rows c)
  have hget : (measure k rows).getD c 0 = (maxColumnValue rows c).size := by
    rw [getD_eq_getElem _ _ (by simpa using hc)]
    simp [measure, minimumBitsToStore]
  rw [hget]
  exact hle.trans_lt this

variable {columnBits : List ℕ}

lemma length_encodeRow (h : row.length = columnBits.length) :
    (encodeRow columnBits row).length = columnBits.sum := by
  induction columnBits generalizing row with
  | nil => simp [encodeRow]
  | cons b bits ih =>
    cases row with
    | nil => simp at h
    | cons v row =>
      have := @ih row (by simpa using h)
      simp only [encodeRow] at this
      simp [encodeRow, this]

/-- The bits of one value within its row. -/
lemma slice_encodeRow (h : row.length = columnBits.length) (hc : c < columnBits.length) :
    ((encodeRow columnBits row).drop (columnBits.take c).sum).take columnBits[c] =
      ofNat columnBits[c] (storedValue (row.getD c 0)) := by
  set L := zipWith (fun bits value => ofNat bits (storedValue value)) columnBits row with hL
  have hlen : c < L.length := by simp [hL, h, hc]
  have hget : L[c] = ofNat columnBits[c] (storedValue (row.getD c 0)) := by
    rw [getD_eq_getElem _ _ (by omega)]
    simp [hL]
  have htake : (L.take c).flatten.length = (columnBits.take c).sum := by
    rw [hL, take_zipWith]
    exact length_encodeRow (by simp; omega)
  have := slice_flatten L hlen
  rwa [htake, hget, length_ofNat] at this

variable {r : ℕ}

/-- The bits of one row of a table whose rows have the same number of bits. -/
lemma slice_flatMap {α : Type} {l : List α} {f : α → List Bool} {S : ℕ}
    (hS : ∀ x ∈ l, (f x).length = S) (hr : r < l.length) : ((l.flatMap f).drop (r * S)).take S = f l[r] := by
  have htake : ((l.map f).take r).flatten.length = r * S := by
    rw [← map_take, ← flatMap_def, length_flatMap_const fun x hx =>
      hS x (mem_of_mem_take hx), length_take, min_eq_left hr.le]
  have := slice_flatten (l.map f) (i := r) (by simpa using hr)
  rwa [htake, getElem_map, hS _ (getElem_mem hr)] at this

/-- The rows of a table of numbers have its columns, and their values 32 bits. -/
def RowsOk (k : ℕ) (rows : List (List ℕ)) : Prop := ∀ row ∈ rows, row.length = k ∧ ∀ v ∈ row, v < 2 ^ 32

variable (hrows : RowsOk k rows)
include hrows

lemma length_tableData :
    (rows.flatMap (encodeRow (measure k rows))).length = rows.length * (measure k rows).sum :=
  length_flatMap_const fun row hrow => length_encodeRow (by rw [length_measure, (hrows row hrow).1])

/-- A table of numbers as it is decoded. -/
def decodedTable (k : ℕ) (rows : List (List ℕ)) : BitTable :=
  .ofColumns rows.length (measure k rows) (rows.flatMap (encodeRow (measure k rows)))

/-- A table of numbers is read back. -/
lemma consumes_encodeTable (hk : k < 2 ^ 11) (hn : rows.length < 2 ^ 32)
    (hsize : rows.length * (measure k rows).sum < 2 ^ 32) :
    Consumes (BitTable.decode k) (encodeTable k rows) (decodedTable k rows) := by
  have hsum := @sum_measure_le k rows
  have := BitTable.consumes_decode hn (fun b hb => (measure_le hb).trans_lt (by decide))
    (by omega) (length_tableData hrows) hsize
  rwa [length_measure] at this

/-- Each value of a table of numbers is read back. -/
lemma get_decodedTable (hsize : rows.length * (measure k rows).sum < 2 ^ 32) (hr : r < rows.length) (hc : c < k) :
    (decodedTable k rows).get r c = rows[r].getD c 0 := by
  set bits := measure k rows with hbits
  have hlen : bits.length = k := length_measure
  have hcb : c < bits.length := by omega
  obtain ⟨hrow, hval⟩ := hrows rows[r] (getElem_mem hr)
  -- the value lies within its row, and the row within the data
  have hsucc : (bits.take c).sum + bits[c] ≤ bits.sum := by
    rw [← sum_take_succ]
    exact (take_sublist ..).sum_le_sum fun _ _ => Nat.zero_le _
  have hrS : r * bits.sum + bits.sum ≤ rows.length * bits.sum := by
    rw [← Nat.succ_mul]
    exact Nat.mul_le_mul_right _ hr
  have hslice := slice_flatMap (S := bits.sum) (f := encodeRow bits)
    (fun row hrow => length_encodeRow (by rw [hlen, (hrows row hrow).1])) hr
  have hregion : (decodedTable k rows).getBitMemoryRegion r c =
      ofNat bits[c] (storedValue (rows[r].getD c 0)) := by
    rw [BitTable.getBitMemoryRegion, decodedTable, ← hbits, BitTable.numRowBits_ofColumns,
      BitTable.offset_ofColumns hcb.le, BitTable.numColumnBits_ofColumns hcb (by omega),
      BitTable.tableData_ofColumns, ← slice_encodeRow (by omega) hcb, ← hslice, drop_take,
      take_take, min_eq_left (by omega), drop_drop]
    rcases Nat.eq_zero_or_pos bits[c] with h0 | h0
    · rw [h0, take_zero, take_zero]
    · rw [Nat.mod_eq_of_lt (by omega)]
  have hfit := storedValue_lt_measure (getElem_mem hr) hc
  rw [← hbits, getD_eq_getElem _ _ hcb] at hfit
  have hv : rows[r].getD c 0 < 2 ^ 32 := by
    rw [getD_eq_getElem _ _ (by omega)]
    exact hval _ (getElem_mem _)
  rw [BitTable.get, hregion, toNat_ofNat hfit, storedValue, kNoValue]
  omega

end

/-! ## Encoding tables of bitmaps -/

variable (maxNumBits : ℕ)

/-- A bitmap in a row of `maxNumBits` bits. -/
def padRow (row : List Bool) : List Bool :=
  row.take maxNumBits ++ List.replicate (maxNumBits - row.length) false

variable (rows : List (List Bool))

/-- `BitmapTableBuilder::Encode`. -/
def encodeBitmaps : List Bool :=
  writeInterleavedVarints [rows.length, maxNumBits] ++ rows.flatMap (padRow maxNumBits)

/-- A table of bitmaps as it is decoded. -/
def decodedBitmaps : BitTable := .ofColumns rows.length [maxNumBits] (rows.flatMap (padRow maxNumBits))

@[simp] lemma length_padRow (m : ℕ) (row : List Bool) : (padRow m row).length = m := by
  rw [padRow, length_append, length_take, length_replicate]
  omega

variable {rows : List (List Bool)}

/-- A table of bitmaps is read back. -/
lemma consumes_encodeBitmaps (hm : m < 2 ^ 16) (hn : rows.length < 2 ^ 32)
    (hsize : rows.length * m < 2 ^ 32) :
    Consumes (BitTable.decode 1) (encodeBitmaps m rows) (decodedBitmaps m rows) :=
  @BitTable.consumes_decode _ [m] _ hn (by simp; omega) (by simpa using hm)
    (by simp [length_flatMap_const fun row _ => length_padRow m row]) (by simpa using hsize)

/-- Each row of a table of bitmaps is read back. -/
lemma region_decodedBitmaps (hm : m < 2 ^ 16) (hsize : rows.length * m < 2 ^ 32) {r : ℕ}
    (hr : r < rows.length) : (decodedBitmaps m rows).getBitMemoryRegion r = padRow m rows[r] := by
  have hrm : r * m + m ≤ rows.length * m := by
    rw [← Nat.succ_mul]
    exact Nat.mul_le_mul_right _ hr
  have hslice := slice_flatMap (S := m) (fun row _ => length_padRow m row) hr
  rw [BitTable.getBitMemoryRegion, decodedBitmaps, BitTable.numRowBits_ofColumns,
    BitTable.offset_ofColumns (by simp), BitTable.numColumnBits_ofColumns (by simp) (by simp; omega),
    BitTable.tableData_ofColumns, ← hslice]
  rcases Nat.eq_zero_or_pos m with rfl | h0
  · simp
  · simp only [take_zero, sum_nil, sum_singleton, add_zero, getElem_cons_zero]
    rw [Nat.mod_eq_of_lt (by omega)]

end Art
