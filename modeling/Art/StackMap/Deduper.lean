import Art.Base.HashSet
import Art.Lib.Loop
import Art.StackMap.CodeInfo

/-!
# Deduplicating bit tables

`CodeInfoTableDeduper` of `dex2oat/linker/code_info_table_deduper.cc`: code infos are
appended to one output, and a bit table that occurred before, in the same code info or in
an earlier one, is replaced by the distance back to it. The hash set of the tables holds
their positions in the output, and compares them by the bits they point to.
-/

namespace Art

open Parsing Function Option
open CodeInfo (decode decodeBitTable decode decodeAt)
open List (append_assoc length_append range)
open HashSet (mem_elems reserve)

variable {e : DedupeSetEntry} {set₀ : HashSet DedupeSetEntry} {s : InsertState}
  {copied output front u v : List Bool} {i n : ℕ}

/-- `kMinDedupSize`: smaller tables are not worth a back reference. -/
def kMinDedupSize : ℕ := 33

/-- `CodeInfoTableDeduper::DedupeSetEntry`: a range of bits of the output. -/
structure DedupeSetEntry where
  bitStart : ℕ
  bitSize : ℕ

/-- The bits of an entry. -/
def DedupeSetEntry.region (output : List Bool) (e : DedupeSetEntry) : List Bool :=
  (output.drop e.bitStart).take e.bitSize

/-- What entries are compared by: their sizes and their bits. -/
def DedupeSetEntry.key (output : List Bool) (e : DedupeSetEntry) : ℕ × List Bool :=
  (e.bitSize, e.region output)

variable (dataHash : List Bool → ℕ)

/-- Regions of bits with `DataHash`. -/
def regionFns : HashFns (ℕ × List Bool) where
  hashfn r := dataHash r.2
  pred r s := r == s
  refl := by simp
  symm := by simp +contextual
  trans := by simp +contextual
  hash_eq h := by rw [eq_of_beq h]

/-- `DedupeSetEntryHash` and `DedupeSetEntryEquals`, over the current output. -/
def entryFns (output : List Bool) : HashFns DedupeSetEntry :=
  (regionFns dataHash).comap (DedupeSetEntry.key output)

/-- `kMinLoadFactor` and `kMaxLoadFactor`, 0.5 and 0.75. -/
def dedupeLoad : LoadFactors where
  divMin n := n * 2
  divMax n := n * 4 / 3
  mulMax n := n * 3 / 4
  mulMax_zero := rfl
  mulMax_lt n hn := by omega
  mulMax_unbounded n m := ⟨2 * n + 2, by omega⟩

/-- `CodeInfoTableDeduper`: what the writer has written, and the set of tables. -/
structure CodeInfoTableDeduper where
  /-- The bits of `output`. -/
  output : List Bool
  dedupeSet : HashSet DedupeSetEntry

namespace CodeInfoTableDeduper

variable (dataHash : List Bool → ℕ)

/-- A deduper with an empty output. -/
def create : CodeInfoTableDeduper := ⟨[], .create dedupeLoad 0⟩

variable (d : CodeInfoTableDeduper)

def reserveDedupeBuffer (numCodeInfos : ℕ) : Option CodeInfoTableDeduper :=
  (d.dedupeSet.reserve (entryFns dataHash d.output) dedupeLoad
    (numCodeInfos * kNumBitTables / 2)).map fun dedupeSet => { d with dedupeSet }

/-- The space for the tables of one code info that `Dedupe` makes first, so that the entries stay
    in their slots: 1.5 is the maximum over the minimum load factor. -/
def reserveForTables : Option (HashSet DedupeSetEntry) :=
  let set := d.dedupeSet
  if (2 ^ 64 + set.elementsUntilExpand - set.numElements) % 2 ^ 64 < kNumBitTables then
    set.reserve (entryFns dataHash d.output) dedupeLoad ((set.numElements + kNumBitTables) * 3 / 2)
  else some set

variable (codeInfoData : List Bool)

/-- The loop that decodes one table, and records where it starts. -/
def bitTableBitStart (bitTableFlags kNumColumns i : ℕ) : Parser Bool ℕ := do
  let rest ← get
  if hasBitTable bitTableFlags i then discard (BitTable.decode kNumColumns)
  return codeInfoData.length - rest.length

/-- `bit_table_bit_starts`: where each table starts in the input, and where the last one ends. -/
def bitTableBitStarts (bitTableFlags : ℕ) : Parser Bool (List ℕ) := do
  let starts ← numColumns.zipIdx.mapM fun (kNumColumns, i) =>
    bitTableBitStart codeInfoData bitTableFlags kNumColumns i
  let rest ← get
  return starts ++ [codeInfoData.length - rest.length]

/-- The state of the loop that looks the tables up. -/
structure InsertState where
  set : HashSet DedupeSetEntry
  /-- `code_info.bit_table_flags_`. -/
  flags : ℕ
  /-- `dedupe_entries`: the slot of each large table. -/
  entries : ℕ → Option ℕ

/-- The size of the table `i`. -/
def tableBitSize (starts : List ℕ) (i : ℕ) : ℕ := starts.getD (i + 1) 0 - starts.getD i 0

/-- The loop that looks one table up, in the output with a copy of the input. -/
def insertTable (output : List Bool) (startBitOffset : ℕ) (starts : List ℕ) (s : InsertState)
    (i : ℕ) : Option InsertState :=
  if hasBitTable s.flags i && kMinDedupSize ≤ tableBitSize starts i then do
    let entry : DedupeSetEntry :=
      ⟨(startBitOffset + starts.getD i 0) % 2 ^ 32, tableBitSize starts i % 2 ^ 32⟩
    let (set, index, inserted) ← s.set.insertWithHash (entryFns dataHash output) dedupeLoad entry
    some ⟨set, if inserted then s.flags else setBitTableDeduped s.flags i, update s.entries i (some index)⟩
  else some s

/-- The loop that writes one table: a back reference, or the table with its entry moved along. -/
def writeTable (starts : List ℕ) (flags : ℕ) (entries : ℕ → Option ℕ)
    (d : CodeInfoTableDeduper) (i : ℕ) : Option CodeInfoTableDeduper :=
  if hasBitTable flags i then
    let currentBitOffset := d.output.length
    if isBitTableDeduped flags i then do
      let index ← entries i
      let entry ← d.dedupeSet.data index
      some { d with output := d.output ++ writeVarint (currentBitOffset - entry.bitStart) }
    else
      let output := d.output ++ (codeInfoData.drop (starts.getD i 0)).take (tableBitSize starts i)
      if kMinDedupSize ≤ tableBitSize starts i then do
        let index ← entries i
        let entry ← d.dedupeSet.data index
        some ⟨output, { d.dedupeSet with
          data := update d.dedupeSet.data index
            (some { entry with bitStart := currentBitOffset % 2 ^ 32 }) }⟩
      else some { d with output }
  else some d

/-- `Dedupe(code_info_data)`: the deduper, and the byte offset of the code info. -/
def dedupe : Option (CodeInfoTableDeduper × ℕ) := do
  let startBitOffset := d.output.length
  let set ← d.reserveForTables dataHash
  let (header, rest) ← readInterleavedVarints kNumHeaders codeInfoData
  let (starts, rest) ← bitTableBitStarts codeInfoData (header.getD 6 0) rest
  -- copy the source data, and look its tables up there
  let readBits := codeInfoData.length - rest.length
  let copied := d.output ++ codeInfoData.take (bitsToBytesRoundUp readBits * 8)
  let s ← (range kNumBitTables).foldlM (insertTable dataHash copied startBitOffset starts)
    ⟨set, header.getD 6 0, fun _ => none⟩
  if hasDedupedBitTables s.flags then do
    -- truncate the output and write the code info again
    let output := d.output ++ writeInterleavedVarints (header.set 6 s.flags)
    let d ← (range kNumBitTables).foldlM
      (writeTable codeInfoData starts s.flags s.entries) ⟨output, s.set⟩
    some ({ d with output := byteAlign d.output }, startBitOffset / 8)
  else some (⟨copied, s.set⟩, startBitOffset / 8)

/-! ## The layout of the input -/

/-- The bits of a code info without back references that decodes to `c`: `T i` are the bits of the
    table `i`, and `S i` is what is left before them. -/
structure Layout (codeInfoData : List Bool) (c : CodeInfo) (S T : ℕ → List Bool) : Prop where
  header : ∃ bits, codeInfoData = bits ++ S 0 ∧ Consumes (readInterleavedVarints kNumHeaders) bits c.header
  header_lt : c.header.length = kNumHeaders ∧ ∀ v ∈ c.header, v < 2 ^ 32
  length_tables : c.tables.length = kNumBitTables
  split : ∀ i < kNumBitTables, S i = T i ++ S (i + 1)
  present : ∀ i < kNumBitTables, hasBitTable c.bitTableFlags i = true →
    Consumes (BitTable.decode (numColumns.getD i 0)) (T i) (c.tables.getD i {})
  absent : ∀ i < kNumBitTables, hasBitTable c.bitTableFlags i = false → T i = [] ∧ c.tables.getD i {} = {}

lemma zipIdx_numColumns :
    numColumns.zipIdx = (range kNumBitTables).map fun i => (numColumns.getD i 0, i) := rfl

variable {flags : ℕ}

lemma isDeduped_eq_false (h : hasDedupedBitTables flags = false) (i : ℕ) :
    isBitTableDeduped flags i = false := by
  have h0 : flags >>> kNumBitTables = 0 := by simpa [hasDedupedBitTables] using h
  rw [isBitTableDeduped, ← Nat.testBit_shiftRight, h0, Nat.zero_testBit]

variable {data : List Bool} {c : CodeInfo} {S T : ℕ → List Bool} {r : List Bool}

lemma exists_layout (hd : hasDedupedBitTables c.bitTableFlags = false)
    (h : decode data data = some (c, r)) : ∃ S T, Layout data c S T := by
  obtain ⟨⟨header, l⟩, hh, h'⟩ := bind_eq_some_iff.1 h
  obtain ⟨⟨tables, l'⟩, ht, h''⟩ := bind_eq_some_iff.1 h'
  obtain ⟨rfl, rfl⟩ := eq_of_pure h''
  rw [zipIdx_numColumns, List.mapM_map] at ht
  obtain ⟨hlen, S, hS0, -, hS⟩ := exists_of_mapM_range {} ht
  -- what each table consumes
  have hT : ∀ i, ∃ T, i < kNumBitTables → S i = T ++ S (i + 1) ∧ (hasBitTable (header.getD 6 0) i = true →
        Consumes (BitTable.decode (numColumns.getD i 0)) T (tables.getD i {})) ∧
      (hasBitTable (header.getD 6 0) i = false → T = [] ∧ tables.getD i {} = {}) := by
    intro i
    by_cases hi : i < kNumBitTables
    · have hi' : decodeBitTable data (header.getD 6 0) (numColumns.getD i 0) i (S i) =
        some (tables.getD i {}, S (i + 1)) := hS i hi
      have hded : ¬isBitTableDeduped (header.getD 6 0) i = true :=
        Bool.eq_false_iff.1 (isDeduped_eq_false hd i)
      rw [decodeBitTable, if_neg hded] at hi'
      by_cases hhas : hasBitTable (header.getD 6 0) i = true
      · rw [if_pos hhas] at hi'
        obtain ⟨T, hsplit, hT⟩ := BitTable.local_decode _ hi'
        exact ⟨T, fun _ => ⟨hsplit, fun _ => hT, fun h => absurd hhas (by rw [h]; decide)⟩⟩
      · rw [if_neg hhas] at hi'
        obtain ⟨he, hs⟩ := eq_of_pure hi'
        exact ⟨[], fun _ => ⟨hs, fun h => absurd h hhas, fun _ => ⟨rfl, he.symm⟩⟩⟩
    · exact ⟨[], fun h => absurd h hi⟩
  choose T hT using hT
  obtain ⟨bits, hbits, hcons⟩ := local_readInterleavedVarints _ hh
  exact ⟨S, T, ⟨bits, by rw [hS0, hbits], hcons⟩, readInterleavedVarints_lt hh, hlen,
    fun i hi => (hT i hi).1, fun i hi => (hT i hi).2.1, fun i hi => (hT i hi).2.2⟩

/-- `bit_table_bit_starts` of a layout. -/
def bitStarts (data : List Bool) (S : ℕ → List Bool) : List ℕ :=
  (range (kNumBitTables + 1)).map fun i => data.length - (S i).length

lemma getD_bitStarts (hi : i ≤ kNumBitTables) :
    (bitStarts data S).getD i 0 = data.length - (S i).length := by
  rw [bitStarts, List.getD_eq_getElem _ _ (by simpa using Nat.lt_succ_of_le hi)]
  simp

namespace Layout

variable (hL : Layout data c S T)
include hL

lemma exists_drop (hi : i ≤ kNumBitTables) : ∃ pre, data = pre ++ S i := by
  induction i with
  | zero =>
    obtain ⟨bits, h, -⟩ := hL.header
    exact ⟨bits, h⟩
  | succ i ih =>
    obtain ⟨pre, h⟩ := ih (by omega)
    exact ⟨pre ++ T i, by rw [append_assoc, ← hL.split i hi, h]⟩

variable (hi : i < kNumBitTables)

include hi in
lemma bitTableBitStart_eq : bitTableBitStart data c.bitTableFlags (numColumns.getD i 0) i (S i) =
      some (data.length - (S i).length, S (i + 1)) := by
  by_cases hhas : hasBitTable c.bitTableFlags i = true
  · have hdec := hL.present i hi hhas (S (i + 1))
    rw [← hL.split i hi] at hdec
    simp only [bitTableBitStart, if_pos hhas]
    refine bind_eq_some_iff.2 ⟨((), S (i + 1)), ?_, rfl⟩
    exact bind_eq_some_iff.2 ⟨_, hdec, rfl⟩
  · have hs := hL.split i hi
    rw [(hL.absent i hi (by simpa using hhas)).1, List.nil_append] at hs
    simp only [bitTableBitStart, if_neg hhas, ← hs]
    rfl

lemma bitTableBitStarts_eq : bitTableBitStarts data c.bitTableFlags (S 0) =
    some (bitStarts data S, S kNumBitTables) := by
  refine bind_eq_some_iff.2 ⟨((range kNumBitTables).map fun i =>
    data.length - (S i).length, S kNumBitTables), ?_, ?_⟩
  · rw [zipIdx_numColumns, List.mapM_map]
    exact mapM_range fun i hi => hL.bitTableBitStart_eq hi
  · rfl

lemma length_le (hi : i ≤ kNumBitTables) : (S i).length ≤ data.length := by
  obtain ⟨pre, h⟩ := hL.exists_drop hi
  rw [h, length_append]
  omega

include hi in
/-- The tables follow each other. -/
lemma bitStarts_add : (bitStarts data S).getD i 0 + (T i).length = (bitStarts data S).getD (i + 1) 0 := by
  have h := congrArg List.length (hL.split i hi)
  have hle := hL.length_le hi.le
  rw [getD_bitStarts hi.le, getD_bitStarts (show i + 1 ≤ _ from hi)]
  rw [length_append] at h
  omega

include hi in
lemma tableBitSize_eq : tableBitSize (bitStarts data S) i = (T i).length := by
  rw [tableBitSize, ← hL.bitStarts_add hi, Nat.add_sub_cancel_left]

/-- Every table lies in the bits that the reader has read. -/
lemma bitStarts_le (hi : i ≤ kNumBitTables) :
    (bitStarts data S).getD i 0 ≤ data.length - (S kNumBitTables).length := by
  induction hi using Nat.decreasingInduction with
  | self => rw [getD_bitStarts le_rfl]
  | of_succ i hi ih =>
    have := hL.bitStarts_add hi
    omega

include hi in
lemma drop_bitStarts : data.drop ((bitStarts data S).getD i 0) = T i ++ S (i + 1) := by
  obtain ⟨pre, h⟩ := hL.exists_drop hi.le
  rw [getD_bitStarts hi.le, ← hL.split i hi]
  conv_lhs => rw [h]
  rw [length_append, Nat.add_sub_cancel, List.drop_left]

include hi in
/-- The bits of a table in a copy of the input. -/
lemma region_copied {output : List Bool} {n : ℕ} (hn : data.length - (S kNumBitTables).length ≤ n) :
    (⟨output.length + (bitStarts data S).getD i 0, (T i).length⟩ : DedupeSetEntry).region
      (output ++ data.take n) = T i := by
  have hle := hL.bitStarts_le (Nat.succ_le_of_lt hi)
  rw [← hL.bitStarts_add hi] at hle
  show ((output ++ data.take n).drop (output.length + (bitStarts data S).getD i 0)).take
    (T i).length = T i
  rw [List.drop_append, List.drop_eq_nil_of_le (by omega), List.nil_append,
    Nat.add_sub_cancel_left, List.drop_take, hL.drop_bitStarts hi, List.take_take,
    Nat.min_eq_left (by omega), List.take_left]

end Layout

/-! ## The invariant -/

/-- The invariant between calls: the output is a number of bytes, and the entries of the set, which
    does not expand before it is asked to, are within it. -/
structure Inv (d : CodeInfoTableDeduper) : Prop where
  aligned : 8 ∣ d.output.length
  inv : d.dedupeSet.Inv (entryFns dataHash d.output)
  load : d.dedupeSet.elementsUntilExpand = dedupeLoad.mulMax d.dedupeSet.numBuckets
  count : d.dedupeSet.numElements ≤ d.dedupeSet.elementsUntilExpand
  within : ∀ e ∈ d.dedupeSet.elems, e.bitStart + e.bitSize ≤ d.output.length

variable {dataHash}

lemma monotone_dedupeLoad : Monotone dedupeLoad.mulMax := fun m n h => by
  show m * 3 / 4 ≤ n * 3 / 4
  omega

lemma inv_create : create.Inv dataHash where
  aligned := dvd_zero 8
  inv := HashSet.inv_create 0
  load := rfl
  count := le_rfl
  within e he := by
    obtain ⟨i, hi, -⟩ := mem_elems.1 he
    exact absurd hi (by simp [create, HashSet.create])

variable {d : CodeInfoTableDeduper}

lemma Inv.reserveDedupeBuffer (hI : d.Inv dataHash) (n : ℕ) :
    ∃ d', d.reserveDedupeBuffer dataHash n = some d' ∧ d'.Inv dataHash := by
  obtain ⟨set, hs, hset, hel, hload, hle, -⟩ := hI.inv.reserve monotone_dedupeLoad hI.load _
  refine ⟨⟨d.output, set⟩, by rw [CodeInfoTableDeduper.reserveDedupeBuffer, hs]; rfl, hI.aligned,
    hset, hload, ?_, hel ▸ hI.within⟩
  calc set.numElements = d.dedupeSet.numElements := by rw [hset.count, hel, hI.inv.count]
    _ ≤ d.dedupeSet.elementsUntilExpand := hI.count
    _ ≤ set.elementsUntilExpand := hle

/-- After the reservation there is space for the tables of a code info. -/
lemma Inv.reserveForTables (hI : d.Inv dataHash) :
    ∃ set, d.reserveForTables dataHash = some set ∧ set.Inv (entryFns dataHash d.output) ∧
      set.elems = d.dedupeSet.elems ∧ set.elementsUntilExpand = dedupeLoad.mulMax set.numBuckets ∧
      set.numElements + kNumBitTables ≤ set.elementsUntilExpand := by
  have hle := hI.count
  rw [CodeInfoTableDeduper.reserveForTables, kNumBitTables]
  by_cases hlt : (2 ^ 64 + d.dedupeSet.elementsUntilExpand - d.dedupeSet.numElements) % 2 ^ 64 < 8
  · obtain ⟨set, hs, hset, hel, hload, -, hlt'⟩ := hI.inv.reserve monotone_dedupeLoad hI.load _
    have hn : set.numElements = d.dedupeSet.numElements := by rw [hset.count, hel, hI.inv.count]
    exact ⟨set, (if_pos hlt).trans hs, hset, hel, hload, by omega⟩
  · exact ⟨_, if_neg hlt, hI.inv, rfl, hI.load, by omega⟩

/-! ## Looking the tables up -/

/-- The table `i` is present and worth a back reference. -/
def Large (c : CodeInfo) (T : ℕ → List Bool) (i : ℕ) : Prop :=
  hasBitTable c.bitTableFlags i = true ∧ kMinDedupSize ≤ (T i).length

/-- The large table `i` is new in the set, in the slot `j`. -/
def Owner (c : CodeInfo) (T : ℕ → List Bool) (s : InsertState) (i j : ℕ) : Prop :=
  Large c T i ∧ isBitTableDeduped s.flags i = false ∧ s.entries i = some j

/-- The invariant of the loop after `n` tables, for the set `set₀` before it: the old entries are in
    their slots, each new one is in the slot of the only new table with its bits, and the slot of
    a table that was found is an old one or belongs to a table before it. -/
structure InsertInv (dataHash : List Bool → ℕ) (copied : List Bool) (c : CodeInfo)
    (T : ℕ → List Bool) (set₀ : HashSet DedupeSetEntry) (n : ℕ) (s : InsertState) : Prop where
  inv : s.set.Inv (entryFns dataHash copied)
  numBuckets : s.set.numBuckets = set₀.numBuckets
  load : s.set.elementsUntilExpand = set₀.elementsUntilExpand
  count : s.set.numElements ≤ set₀.numElements + n
  flags_lt : s.flags < 2 ^ 16
  has : ∀ i < kNumBitTables, hasBitTable s.flags i = hasBitTable c.bitTableFlags i
  deduped : ∀ i, isBitTableDeduped s.flags i = true → i < n ∧ Large c T i
  old : ∀ j e, set₀.data j = some e → s.set.data j = some e
  new : ∀ j e, s.set.data j = some e → set₀.data j = some e ∨ ∃ i < n, Owner c T s i j
  entry : ∀ i < n, Large c T i → ∃ j e, s.entries i = some j ∧ j < set₀.numBuckets ∧
    s.set.data j = some e ∧ e.key copied = ((T i).length, T i)
  fresh : ∀ i < n, ∀ j, Owner c T s i j → set₀.data j = none
  found : ∀ i < n, ∀ j, isBitTableDeduped s.flags i = true → s.entries i = some j →
    set₀.data j ≠ none ∨ ∃ i' < i, Owner c T s i' j
  inj : ∀ i < n, ∀ i' < n, ∀ j, Owner c T s i j → Owner c T s i' j → i = i'
  within : ∀ j < set₀.numBuckets, ∀ e, s.set.data j = some e → e.bitStart + e.bitSize ≤ copied.length

lemma testBit_setBitTableDeduped (flags i m : ℕ) : (setBitTableDeduped flags i).testBit m =
    (flags.testBit m || decide (kNumBitTables + i = m)) := by
  rw [setBitTableDeduped, Nat.testBit_or, Nat.testBit_two_pow]

lemma isDeduped_setDeduped (flags i j : ℕ) :
    isBitTableDeduped (setBitTableDeduped flags i) j = (isBitTableDeduped flags j || decide (i = j)) := by
  rw [isBitTableDeduped, testBit_setBitTableDeduped]
  congr 2
  exact propext (by omega)

namespace InsertInv

variable (hs : InsertInv dataHash copied c T set₀ n s)

include hs in
/-- A table that is absent or small changes nothing. -/
lemma skip (hn : ¬Large c T n) : InsertInv dataHash copied c T set₀ (n + 1) s := by
  have hlt : ∀ i < n + 1, Large c T i → i < n := fun i hi hlarge =>
    (Nat.lt_succ_iff_lt_or_eq.1 hi).resolve_right fun h => hn (h ▸ hlarge)
  refine { hs with
    count := hs.count.trans (by omega)
    deduped := fun i hi => ⟨(hs.deduped i hi).1.trans (Nat.lt_succ_self n), (hs.deduped i hi).2⟩
    new := fun j e he => (hs.new j e he).imp_right fun ⟨i, hi, ho⟩ => ⟨i, by omega, ho⟩
    entry := fun i hi hlarge => hs.entry i (hlt i hi hlarge) hlarge
    fresh := fun i hi j ho => hs.fresh i (hlt i hi ho.1) j ho
    found := fun i hi j hd he => hs.found i (hs.deduped i hd).1 j hd he
    inj := fun i hi i' hi' j ho ho' =>
      hs.inj i (hlt i hi ho.1) i' (hlt i' hi' ho'.1) j ho ho' }

variable {j : ℕ}

include hs in
/-- An equal table is in the slot `j`. -/
lemma duplicate (hn : Large c T n) (hlt : n < kNumBitTables) (hj : j < set₀.numBuckets)
    (he : s.set.data j = some e) (hkey : e.key copied = ((T n).length, T n)) :
    InsertInv dataHash copied c T set₀ (n + 1)
      ⟨s.set, setBitTableDeduped s.flags n, update s.entries n (some j)⟩ := by
  have howner : ∀ i k, Owner c T ⟨s.set, setBitTableDeduped s.flags n,
      update s.entries n (some j)⟩ i k ↔ i ≠ n ∧ Owner c T s i k := by
    intro i k
    by_cases hi : i = n
    · simp [Owner, isDeduped_setDeduped, hi]
    · simp [Owner, isDeduped_setDeduped, hi, Ne.symm hi]
  have hlt' : ∀ i < n + 1, i ≠ n → i < n := fun i hi hne => by omega
  refine { hs with
    count := hs.count.trans (by omega)
    flags_lt := Nat.or_lt_two_pow hs.flags_lt
      (Nat.pow_lt_pow_right (by decide) (by unfold kNumBitTables at *; omega))
    has := fun i hi => by
      rw [hasBitTable, testBit_setBitTableDeduped, decide_eq_false (by omega), Bool.or_false]
      exact hs.has i hi
    deduped := fun i hi => ?_
    new := fun k e' he' => (hs.new k e' he').imp_right fun ⟨i, hi, ho⟩ =>
      ⟨i, by omega, (howner i k).2 ⟨by omega, ho⟩⟩
    entry := fun i hi hlarge => ?_
    fresh := fun i hi k ho => ?_
    found := fun i hi k hd hk => ?_
    inj := fun i hi i' hi' k ho ho' => ?_ }
  · rw [isDeduped_setDeduped, Bool.or_eq_true, decide_eq_true_eq] at hi
    rcases hi with hi | rfl
    · exact ⟨(hs.deduped i hi).1.trans (Nat.lt_succ_self n), (hs.deduped i hi).2⟩
    · exact ⟨Nat.lt_succ_self n, hn⟩
  · by_cases hin : i = n
    · exact ⟨j, e, by simp [hin], hj, he, hin ▸ hkey⟩
    · obtain ⟨k, e', hk, h⟩ := hs.entry i (hlt' i hi hin) hlarge
      exact ⟨k, e', by simpa [hin] using hk, h⟩
  · obtain ⟨hin, ho⟩ := (howner i k).1 ho
    exact hs.fresh i (hlt' i hi hin) k ho
  · by_cases hin : i = n
    · -- the slot was filled before, by an old entry or by a table before this one
      obtain rfl : j = k := by simpa [hin] using hk
      refine (hs.new j e he).imp (fun h => by simp [h]) fun ⟨i', hi', ho⟩ => ?_
      exact ⟨i', hin ▸ hi', (howner i' j).2 ⟨by omega, ho⟩⟩
    · rw [isDeduped_setDeduped, Bool.or_eq_true, decide_eq_true_eq] at hd
      refine (hs.found i (hlt' i hi hin) k (hd.resolve_right (Ne.symm hin))
        (by simpa [hin] using hk)).imp_right fun ⟨i', hi', ho⟩ => ?_
      exact ⟨i', hi', (howner i' k).2 ⟨by have := hlt' i hi hin; omega, ho⟩⟩
  · obtain ⟨hin, ho⟩ := (howner i k).1 ho
    obtain ⟨hin', ho'⟩ := (howner i' k).1 ho'
    exact hs.inj i (hlt' i hi hin) i' (hlt' i' hi' hin') k ho ho'

include hs in
/-- The table is put in the empty slot `j`. -/
lemma fill (hn : Large c T n) (hj : j < set₀.numBuckets) (hempty : s.set.data j = none)
    (hkey : e.key copied = ((T n).length, T n)) (hwithin : e.bitStart + e.bitSize ≤ copied.length)
    {set : HashSet DedupeSetEntry} (hset : set = { s.set with
      data := update s.set.data j (some e), numElements := s.set.numElements + 1 })
    (hI : set.Inv (entryFns dataHash copied)) :
    InsertInv dataHash copied c T set₀ (n + 1) ⟨set, s.flags, update s.entries n (some j)⟩ := by
  subst hset
  have hnot : isBitTableDeduped s.flags n = false :=
    Bool.eq_false_iff.2 fun h => lt_irrefl n (hs.deduped n h).1
  have howner : ∀ i k, Owner c T ⟨{ s.set with
      data := update s.set.data j (some e), numElements := s.set.numElements + 1 }, s.flags,
      update s.entries n (some j)⟩ i k ↔ i = n ∧ k = j ∨ i ≠ n ∧ Owner c T s i k := by
    intro i k
    by_cases hi : i = n
    · simp [Owner, hi, hn, hnot, eq_comm]
    · simp [Owner, hi]
  have hlt' : ∀ i < n + 1, i ≠ n → i < n := fun i hi hne => by omega
  have hold : ∀ k e', s.set.data k = some e' → update s.set.data j (some e) k = some e' := by
    intro k e' hk
    rw [update_of_ne _ _ _]
    · exact hk
    · rintro rfl
      simp [hempty] at hk
  -- the slots of the tables before are not empty
  have hne : ∀ i < n, ∀ k, Owner c T s i k → k ≠ j := by
    rintro i hi k ho rfl
    obtain ⟨k', e', hk', -, hd, -⟩ := hs.entry i hi ho.1
    obtain rfl : k' = k := some.inj (hk'.symm.trans ho.2.2)
    simp [hempty] at hd
  refine { hs with
    inv := hI
    count := Nat.add_le_add_right hs.count 1
    deduped := fun i hi => ⟨(hs.deduped i hi).1.trans (Nat.lt_succ_self n), (hs.deduped i hi).2⟩
    old := fun k e' he' => hold k e' (hs.old k e' he')
    new := fun k e' he' => ?_
    entry := fun i hi hlarge => ?_
    fresh := fun i hi k ho => ?_
    found := fun i hi k hd hk => ?_
    inj := fun i hi i' hi' k ho ho' => ?_
    within := fun k hk e' he' => ?_ }
  · by_cases hk : k = j
    · exact .inr ⟨n, Nat.lt_succ_self n, (howner n k).2 (.inl ⟨rfl, hk⟩)⟩
    · refine (hs.new k e' (by simpa [hk] using he')).imp_right fun ⟨i, hi, ho⟩ => ?_
      exact ⟨i, by omega, (howner i k).2 (.inr ⟨by omega, ho⟩)⟩
  · by_cases hin : i = n
    · exact ⟨j, e, by simp [hin], hj, by simp, hin ▸ hkey⟩
    · obtain ⟨k, e', hk, hlt, hd, h⟩ := hs.entry i (hlt' i hi hin) hlarge
      exact ⟨k, e', by simpa [hin] using hk, hlt, hold k e' hd, h⟩
  · rcases (howner i k).1 ho with ⟨-, rfl⟩ | ⟨hin, ho⟩
    · by_contra hc
      obtain ⟨e', he'⟩ := ne_none_iff_exists'.1 hc
      simp [hs.old k e' he'] at hempty
    · exact hs.fresh i (hlt' i hi hin) k ho
  · have hin := (hs.deduped i hd).1
    refine (hs.found i hin k hd (by simpa [hin.ne] using hk)).imp_right fun ⟨i', hi', ho⟩ => ?_
    exact ⟨i', hi', (howner i' k).2 (.inr ⟨by omega, ho⟩)⟩
  · rcases (howner i k).1 ho with ⟨h, hk⟩ | ⟨hin, hs1⟩ <;>
      rcases (howner i' k).1 ho' with ⟨h', hk'⟩ | ⟨hin', hs2⟩
    · exact h.trans h'.symm
    · exact absurd hk (hne i' (hlt' i' hi' hin') k hs2)
    · exact absurd hk' (hne i (hlt' i hi hin) k hs1)
    · exact hs.inj i (hlt' i hi hin) i' (hlt' i' hi' hin') k hs1 hs2
  · by_cases hkj : k = j
    · obtain rfl : e = e' := by simpa [hkj] using he'
      exact hwithin
    · exact hs.within k hk e' (by simpa [hkj] using he')

include hs in
/-- The loop looks one more table up. -/
lemma step (hL : Layout data c S T) (hn : n < kNumBitTables)
    (hroom : set₀.numElements + kNumBitTables ≤ set₀.elementsUntilExpand) {start : ℕ}
    (hregion : (⟨start + (bitStarts data S).getD n 0, (T n).length⟩ : DedupeSetEntry).region
      copied = T n) (hwithin : start + (bitStarts data S).getD n 0 + (T n).length ≤ copied.length)
    (hlt : start + (bitStarts data S).getD n 0 + (T n).length < 2 ^ 32) :
    ∃ s', insertTable dataHash copied start (bitStarts data S) s n = some s' ∧
      InsertInv dataHash copied c T set₀ (n + 1) s' := by
  rw [insertTable, hL.tableBitSize_eq hn, hs.has n hn]
  by_cases hlarge : Large c T n
  · rw [if_pos (by simpa [Large] using hlarge), Nat.mod_eq_of_lt (by omega), Nat.mod_eq_of_lt (by omega)]
    have hkey : (⟨start + (bitStarts data S).getD n 0, (T n).length⟩ : DedupeSetEntry).key copied =
        ((T n).length, T n) := by rw [DedupeSetEntry.key, hregion]
    have hcount : s.set.numElements < s.set.elementsUntilExpand := by
      have := hs.count
      rw [hs.load]
      omega
    obtain ⟨j, hj, ⟨y, hy, hpred, hins⟩ | ⟨hempty, -, hI, hins⟩⟩ :=
      hs.inv.insertWithHash_of_lt (L := dedupeLoad) hcount
        ⟨start + (bitStarts data S).getD n 0, (T n).length⟩
    · exact ⟨_, bind_eq_some_iff.2 ⟨_, hins, rfl⟩,
        hs.duplicate hlarge hn (hs.numBuckets ▸ hj) hy ((eq_of_beq hpred).trans hkey)⟩
    · exact ⟨_, bind_eq_some_iff.2 ⟨_, hins, rfl⟩,
        hs.fill hlarge (hs.numBuckets ▸ hj) hempty hkey hwithin rfl hI⟩
  · rw [if_neg (by simpa [Large] using hlarge)]
    exact ⟨s, rfl, hs.skip hlarge⟩

end InsertInv

lemma region_append (h : e.bitStart + e.bitSize ≤ output.length) (x : List Bool) :
    e.region (output ++ x) = e.region output := by
  rw [DedupeSetEntry.region, List.drop_append_of_le_length (by omega),
    List.take_append_of_le_length (by rw [List.length_drop]; omega), DedupeSetEntry.region]

variable (hL : Layout data c S T)

include hL in
/-- The loop over all the tables, in the output with a copy of the input. -/
lemma insertTables_spec (hd : hasDedupedBitTables c.bitTableFlags = false)
    (hI : set₀.Inv (entryFns dataHash output))
    (hwithin : ∀ e ∈ set₀.elems, e.bitStart + e.bitSize ≤ output.length)
    (hroom : set₀.numElements + kNumBitTables ≤ set₀.elementsUntilExpand)
    (hn : data.length - (S kNumBitTables).length ≤ n)
    (hlt : output.length + (data.length - (S kNumBitTables).length) < 2 ^ 32) :
    ∃ s, (range kNumBitTables).foldlM (insertTable dataHash (output ++ data.take n)
        output.length (bitStarts data S)) ⟨set₀, c.bitTableFlags, fun _ => none⟩ = some s ∧
      InsertInv dataHash (output ++ data.take n) c T set₀ kNumBitTables s := by
  refine Loop.foldlM_range ?_ fun i hi s hs => ?_
  · have hnot := isDeduped_eq_false hd
    refine
      { inv := hI.of_keys rfl rfl rfl fun j hj => ?_, numBuckets := rfl, load := rfl,
        count := le_rfl, flags_lt := ?_, has := fun _ _ => rfl,
        deduped := fun i hi => by simp [hnot] at hi, old := fun _ _ h => h,
        new := fun _ _ h => .inl h, entry := fun i hi => absurd hi (by omega),
        fresh := fun i hi => absurd hi (by omega), found := fun i hi => absurd hi (by omega),
        inj := fun i hi => absurd hi (by omega), within := fun j hj e he => ?_ }
    · refine map_congr fun e he => ?_
      rw [DedupeSetEntry.key, DedupeSetEntry.key, region_append (hwithin e (mem_elems.2 ⟨j, hj, he⟩))]
    · have h0 : c.bitTableFlags / 2 ^ kNumBitTables = 0 := by
        simpa [hasDedupedBitTables, Nat.shiftRight_eq_div_pow] using hd
      have := (Nat.div_eq_zero_iff_lt (Nat.two_pow_pos _)).1 h0
      exact this.trans (by decide)
    · rw [length_append]
      exact (hwithin e (mem_elems.2 ⟨j, hj, he⟩)).trans (Nat.le_add_right ..)
  · have hle := hL.bitStarts_le (Nat.succ_le_of_lt hi)
    rw [← hL.bitStarts_add hi] at hle
    refine hs.step hL hi hroom (hL.region_copied hi hn) ?_ (by omega)
    rw [length_append, List.length_take]
    omega

/-! ## Writing the code info again -/

/-- The first `n` tables, wherever the memory goes on, decode after the bits of `front`. -/
def Decodes (c : CodeInfo) (flags : ℕ) (front output : List Bool) (n : ℕ) : Prop :=
  ∀ x, (range n).mapM (fun i => CodeInfo.decodeBitTable (output ++ x) flags
      (numColumns.getD i 0) i) ((output ++ x).drop front.length) =
    some ((range n).map fun i => c.tables.getD i {}, x)

lemma Decodes.append {w : List Bool} (h : Decodes c flags front output n)
    (hw : ∀ x, decodeBitTable (output ++ w ++ x) flags (numColumns.getD n 0) n (w ++ x) =
      some (c.tables.getD n {}, x)) : Decodes c flags front (output ++ w) (n + 1) := by
  intro x
  rw [List.range_succ, List.mapM_append, List.map_append]
  have hx := h (w ++ x)
  rw [← append_assoc] at hx
  refine bind_eq_some_iff.2 ⟨_, hx, ?_⟩
  refine bind_eq_some_iff.2 ⟨([c.tables.getD n {}], x), ?_, rfl⟩
  exact bind_eq_some_iff.2 ⟨_, hw x, rfl⟩

/-- The bits of the entry are those of the table `i`, within the output. -/
def Holds (T : ℕ → List Bool) (output : List Bool) (i : ℕ) (e : DedupeSetEntry) : Prop :=
  e.bitStart + e.bitSize ≤ output.length ∧ e.key output = ((T i).length, T i)

lemma Holds.append (h : Holds T output i e) (w : List Bool) : Holds T (output ++ w) i e :=
  ⟨by rw [length_append]; exact h.1.trans (Nat.le_add_right ..),
    by rw [DedupeSetEntry.key, region_append h.1]; exact h.2⟩

/-- A back reference to the bits of a table decodes to the table. -/
lemma decodeBitTable_backReference {k : ℕ} {t : BitTable} (hhas : hasBitTable flags i = true)
    (hded : isBitTableDeduped flags i = true) (hT : Consumes (BitTable.decode k) (T i) t)
    (he : Holds T output i e) (hlen : output.length < 2 ^ 32) (x : List Bool) :
    decodeBitTable (output ++ writeVarint (output.length - e.bitStart) ++ x) flags k i
      (writeVarint (output.length - e.bitStart) ++ x) = some (t, x) := by
  rw [CodeInfo.decodeBitTable_of_deduped hhas hded, consumes_readVarint (by omega) x]
  refine map_eq_some_iff.2 ?_
  have hle := he.1
  have hregion : output.drop e.bitStart = T i ++ (output.drop e.bitStart).drop (T i).length := by
    obtain ⟨hsize, hbits⟩ := Prod.mk.inj he.2
    rw [DedupeSetEntry.region, hsize] at hbits
    nth_rewrite 1 [← List.take_append_drop _ (output.drop e.bitStart)]
    rw [hbits]
  rw [show _ - _ - (output.length - e.bitStart) = e.bitStart by simp only [length_append]; omega, append_assoc,
    List.drop_append_of_le_length (by omega), hregion, append_assoc]
  exact ⟨_, hT _, rfl⟩

/-- The invariant of the loop after `n` tables: the old entries are in place, the entries of the
    new tables before `n` have moved to where their tables are now, those after `n` have not.

    Positions are `uint32_t`, so that they are meaningful while the output is below 2³² bits. -/
structure WriteInv (c : CodeInfo) (T : ℕ → List Bool) (s : InsertState)
    (set₀ : HashSet DedupeSetEntry) (front : List Bool) (n : ℕ) (d : CodeInfoTableDeduper) :
    Prop where
  output : ∃ w, d.output = front ++ w
  numElements : d.dedupeSet.numElements = s.set.numElements
  numBuckets : d.dedupeSet.numBuckets = s.set.numBuckets
  load : d.dedupeSet.elementsUntilExpand = s.set.elementsUntilExpand
  slots : ∀ j, (d.dedupeSet.data j).isSome = (s.set.data j).isSome
  old : ∀ j e, set₀.data j = some e → d.dedupeSet.data j = some e
  moved : d.output.length < 2 ^ 32 → ∀ i < n, ∀ j, Owner c T s i j →
    ∃ e, d.dedupeSet.data j = some e ∧ Holds T d.output i e
  kept : ∀ i, n ≤ i → i < kNumBitTables → ∀ j, Owner c T s i j → d.dedupeSet.data j = s.set.data j
  decodes : d.output.length < 2 ^ 32 → Decodes c s.flags front d.output n

variable (hwithin : ∀ e ∈ set₀.elems, e.bitStart + e.bitSize ≤ output.length)
  (hs : InsertInv dataHash (output ++ u) c T set₀ kNumBitTables s)

namespace WriteInv

variable (h : WriteInv c T s set₀ front n d)

include h in
/-- Bits that decode to the next table, which is not a new one, are written. -/
lemma append (hn : ∀ j, ¬Owner c T s n j) (w : List Bool)
    (hw : (d.output ++ w).length < 2 ^ 32 → ∀ x, decodeBitTable (d.output ++ w ++ x)
      s.flags (numColumns.getD n 0) n (w ++ x) = some (c.tables.getD n {}, x)) :
    WriteInv c T s set₀ front (n + 1) { d with output := d.output ++ w } := by
  have hlt : (d.output ++ w).length < 2 ^ 32 → d.output.length < 2 ^ 32 := fun hlen => by
    rw [length_append] at hlen
    omega
  obtain ⟨v, hv⟩ := h.output
  refine { h with
    output := ⟨v ++ w, by rw [hv, append_assoc]⟩
    moved := fun hlen i hi j ho => ?_
    kept := fun i hi => h.kept i (by omega)
    decodes := fun hlen => (h.decodes (hlt hlen)).append (hw hlen) }
  rcases Nat.lt_succ_iff_lt_or_eq.1 hi with hi | rfl
  · obtain ⟨e, he, hholds⟩ := h.moved (hlt hlen) i hi j ho
    exact ⟨e, he, hholds.append w⟩
  · exact absurd ho (hn j)

include h in
/-- The next table is new in the slot `j`: its bits are written, and its entry moves. -/
lemma move (hn : n < kNumBitTables) {j : ℕ} {e : DedupeSetEntry} (hfresh : set₀.data j = none)
    (hinj : ∀ i < kNumBitTables, ∀ k, Owner c T s i k → (i = n ↔ k = j))
    (he : d.dedupeSet.data j = some e) (hsize : e.bitSize = (T n).length)
    (hw : ∀ x, decodeBitTable (d.output ++ T n ++ x)
      s.flags (numColumns.getD n 0) n (T n ++ x) = some (c.tables.getD n {}, x)) :
    WriteInv c T s set₀ front (n + 1) ⟨d.output ++ T n, { d.dedupeSet with
      data := update d.dedupeSet.data j
        (some { e with bitStart := d.output.length % 2 ^ 32 }) }⟩ := by
  have hlt : (d.output ++ T n).length < 2 ^ 32 → d.output.length < 2 ^ 32 := fun hlen => by
    rw [length_append] at hlen
    omega
  obtain ⟨v, hv⟩ := h.output
  refine { h with
    output := ⟨v ++ T n, by rw [hv, append_assoc]⟩
    slots := fun k => ?_
    old := fun k e' hk => ?_
    moved := fun hlen i hi k ho => ?_
    kept := fun i hi hi' k ho => ?_
    decodes := fun hlen => (h.decodes (hlt hlen)).append hw }
  · by_cases hk : k = j
    · subst hk
      simp [← h.slots, he]
    · simpa [hk] using h.slots k
  · have hne : k ≠ j := by
      rintro rfl
      simp [hfresh] at hk
    exact (update_of_ne hne ..).trans (h.old k e' hk)
  · by_cases hin : i = n
    · obtain rfl := (hinj i (by omega) k ho).1 hin
      refine ⟨_, update_self .., ?_⟩
      rw [Holds, DedupeSetEntry.key, DedupeSetEntry.region, Nat.mod_eq_of_lt (hlt hlen), hsize, hin,
        List.drop_left, List.take_length, length_append]
      exact ⟨le_rfl, rfl⟩
    · obtain ⟨e', he', hholds⟩ := h.moved (hlt hlen) i (by omega) k ho
      have hne : k ≠ j := fun hk => hin ((hinj i (by omega) k ho).2 hk)
      exact ⟨e', (update_of_ne hne ..).trans he', hholds.append _⟩
  · have hne : k ≠ j := fun hk => absurd ((hinj i hi' k ho).2 hk) (by omega)
    exact (update_of_ne hne ..).trans (h.kept i (by omega) hi' k ho)

include hwithin hs in
/-- The entry of a duplicate points to the bits of the table. -/
lemma exists_entry (h : WriteInv c T s set₀ (output ++ v) n d) (hded : isBitTableDeduped s.flags n = true) :
    ∃ j e, s.entries n = some j ∧ d.dedupeSet.data j = some e ∧
      (d.output.length < 2 ^ 32 → Holds T d.output n e) := by
  obtain ⟨hn, hlarge⟩ := hs.deduped n hded
  obtain ⟨j, e, hj, hlt, he, hkey⟩ := hs.entry n hn hlarge
  obtain ⟨e', he'⟩ : ∃ e', d.dedupeSet.data j = some e' := isSome_iff_exists.1 (by rw [h.slots, he]; rfl)
  refine ⟨j, e', hj, he', fun hlen => ?_⟩
  rcases hs.found n hn j hded hj with hold | ⟨i, hi, ho⟩
  · obtain ⟨e0, he0⟩ := ne_none_iff_exists'.1 hold
    obtain rfl : e0 = e := some.inj ((hs.old j e0 he0).symm.trans he)
    obtain rfl : e0 = e' := some.inj ((h.old j e0 he0).symm.trans he')
    have hin := hwithin e0 (mem_elems.2 ⟨j, hlt, he0⟩)
    have hbase : Holds T output n e0 := ⟨hin, by
      rw [← hkey, DedupeSetEntry.key, DedupeSetEntry.key, region_append hin]⟩
    obtain ⟨w, hw⟩ := h.output
    rw [hw]
    exact (hbase.append v).append w
  · -- the slot belongs to a table before this one, with the same bits
    obtain ⟨e1, he1, hholds⟩ := h.moved hlen i hi j ho
    obtain rfl : e1 = e' := some.inj (he1.symm.trans he')
    obtain ⟨j', e2, hj', -, he2, hkey'⟩ := hs.entry i (hi.trans hn) ho.1
    obtain rfl : j' = j := some.inj (hj'.symm.trans ho.2.2)
    obtain rfl : e2 = e := some.inj (he2.symm.trans he)
    exact ⟨hholds.1, by rw [hholds.2, ← hkey', hkey]⟩

include hL hwithin hs in
/-- The loop writes one more table. -/
lemma step (h : WriteInv c T s set₀ (output ++ v) n d) (hn : n < kNumBitTables) :
    ∃ d', writeTable data (bitStarts data S) s.flags s.entries d n = some d' ∧
      WriteInv c T s set₀ (output ++ v) (n + 1) d' := by
  have hhas := hs.has n hn
  have hslice : (data.drop ((bitStarts data S).getD n 0)).take (T n).length = T n := by
    rw [hL.drop_bitStarts hn, List.take_left]
  rw [writeTable, hL.tableBitSize_eq hn, hslice]
  by_cases hpresent : hasBitTable s.flags n = true
  · rw [if_pos hpresent]
    rw [hpresent] at hhas
    have hcons := hL.present n hn hhas.symm
    by_cases hded : isBitTableDeduped s.flags n = true
    · obtain ⟨j, e, hj, he, hholds⟩ := h.exists_entry hwithin hs hded
      rw [if_pos hded]
      refine ⟨_, bind_eq_some_iff.2 ⟨j, hj, bind_eq_some_iff.2 ⟨e, he, rfl⟩⟩,
        h.append (fun j ho => Bool.eq_false_iff.1 ho.2.1 hded) _ fun hlen => ?_⟩
      have hlt : d.output.length < 2 ^ 32 := by
        rw [length_append] at hlen
        omega
      exact decodeBitTable_backReference hpresent hded hcons (hholds hlt) hlt
    · have hplain : ∀ mem x, decodeBitTable mem s.flags (numColumns.getD n 0) n (T n ++ x) =
          some (c.tables.getD n {}, x) := fun mem x => by
        rw [decodeBitTable, if_pos hpresent, if_neg hded]
        exact hcons x
      rw [if_neg hded]
      by_cases hlarge : kMinDedupSize ≤ (T n).length
      · obtain ⟨j, e, hj, hlt, he, hkey⟩ := hs.entry n hn ⟨hhas.symm, hlarge⟩
        have ho : Owner c T s n j := ⟨⟨hhas.symm, hlarge⟩, Bool.eq_false_iff.2 hded, hj⟩
        have he' := (h.kept n le_rfl hn j ho).trans he
        rw [if_pos hlarge]
        refine ⟨_, bind_eq_some_iff.2 ⟨j, hj, bind_eq_some_iff.2 ⟨e, he', rfl⟩⟩,
          h.move hn (hs.fresh n hn j ho) (fun i hi k hk => ⟨?_, ?_⟩) he' (Prod.mk.inj hkey).1
            fun x => hplain _ x⟩
        · rintro rfl
          exact some.inj (hk.2.2.symm.trans hj)
        · rintro rfl
          exact hs.inj i hi n hn k hk ho
      · rw [if_neg hlarge]
        exact ⟨_, rfl, h.append (fun j ho => hlarge ho.1.2) _ fun _ x => hplain _ x⟩
  · rw [if_neg hpresent]
    have habsent : hasBitTable c.bitTableFlags n = false := hhas ▸ Bool.eq_false_iff.2 hpresent
    have := h.append (fun j ho => Bool.eq_false_iff.1 habsent ho.1.1) [] fun _ x => ?_
    · rw [List.append_nil] at this
      exact ⟨d, rfl, this⟩
    · rw [decodeBitTable, if_neg hpresent, (hL.absent n hn habsent).2]
      rfl

end WriteInv

/-! ## Whole calls -/

include hL in
lemma header_set_lt (h : flags < 2 ^ 16) : ∀ v ∈ c.header.set 6 flags, v < 2 ^ 32 := fun v hv =>
  (List.mem_or_eq_of_mem_set hv).elim (hL.header_lt.2 v) fun h' => h'.trans_lt (h.trans (by decide))

include hL in
lemma map_getD_tables : (range kNumBitTables).map (fun i => c.tables.getD i {}) = c.tables := by
  refine List.ext_getElem (by simp [hL.length_tables]) fun i hi hi' => ?_
  rw [List.getElem_map, List.getElem_range, List.getD_eq_getElem _ _ hi']

include hL in
/-- Written again, the code info decodes to what it was, with other flags. -/
lemma decode_of_decodes (hflags : flags < 2 ^ 16) {out : List Bool}
    (h : Decodes c flags (output ++ writeInterleavedVarints (c.header.set 6 flags)) out
      kNumBitTables)
    (hout : ∃ w, out = output ++ writeInterleavedVarints (c.header.set 6 flags) ++ w)
    (x : List Bool) : decode (out ++ x) ((out ++ x).drop output.length) =
      some (⟨c.header.set 6 flags, c.tables⟩, x) := by
  obtain ⟨w, rfl⟩ := hout
  have hheader := consumes_readInterleavedVarints (header_set_lt hL hflags)
  rw [List.length_set, hL.header_lt.1] at hheader
  have hget : (c.header.set 6 flags).getD 6 0 = flags := by
    rw [List.getD_eq_getElem _ _ (by simp [hL.header_lt.1, kNumHeaders])]
    simp
  have hx := h x
  rw [map_getD_tables hL, append_assoc, List.drop_left] at hx
  rw [append_assoc, append_assoc, List.drop_left]
  refine bind_eq_some_iff.2 ⟨_, hheader (w ++ x), ?_⟩
  refine bind_eq_some_iff.2 ⟨(c.tables, x), ?_, rfl⟩
  rw [zipIdx_numColumns, List.mapM_map, hget]
  rw [append_assoc] at hx
  exact hx

include hL in
/-- A copy of the input decodes to what it was. -/
lemma decode_copied (hd : hasDedupedBitTables c.bitTableFlags = false) (mem : List Bool) :
    decode mem data = some (c, S kNumBitTables) := by
  obtain ⟨bits, hdata, hheader⟩ := hL.header
  refine bind_eq_some_iff.2 ⟨(c.header, S 0), by rw [hdata]; exact hheader _, ?_⟩
  refine bind_eq_some_iff.2 ⟨(c.tables, S kNumBitTables), ?_, rfl⟩
  rw [zipIdx_numColumns, List.mapM_map]
  nth_rewrite 1 [← map_getD_tables hL]
  refine mapM_range fun i hi => ?_
  show decodeBitTable mem c.bitTableFlags (numColumns.getD i 0) i (S i) = _
  rw [decodeBitTable, isDeduped_eq_false hd, if_neg Bool.false_ne_true, hL.split i hi]
  by_cases hhas : hasBitTable c.bitTableFlags i = true
  · rw [if_pos hhas]
    exact hL.present i hi hhas _
  · obtain ⟨hT, ht⟩ := hL.absent i hi (Bool.eq_false_iff.2 hhas)
    rw [if_neg hhas, hT, ht]
    rfl

include hL hwithin hs in
/-- The loop over all the tables, after the header. -/
lemma writeTables_spec (v : List Bool) :
    ∃ d', (range kNumBitTables).foldlM (writeTable data (bitStarts data S) s.flags s.entries)
        ⟨output ++ v, s.set⟩ = some d' ∧ WriteInv c T s set₀ (output ++ v) kNumBitTables d' := by
  refine Loop.foldlM_range ?_ fun i hi d hd => hd.step hL hwithin hs hi
  exact
    { output := ⟨[], by simp⟩, numElements := rfl, numBuckets := rfl, load := rfl,
      slots := fun _ => rfl, old := hs.old, moved := fun _ i hi => absurd hi (by omega),
      kept := fun _ _ _ _ _ => rfl
      decodes := fun _ x => by rw [List.drop_left]; rfl }

include hwithin hs in
/-- The keys of the entries are the same before and after the code info is written again. -/
lemma WriteInv.inv {x : List Bool} (h : WriteInv c T s set₀ (output ++ v) kNumBitTables d)
    (hlen : d.output.length < 2 ^ 32) : d.dedupeSet.Inv (entryFns dataHash (d.output ++ x)) ∧
      ∀ e ∈ d.dedupeSet.elems, e.bitStart + e.bitSize ≤ d.output.length := by
  obtain ⟨w, hw⟩ := h.output
  -- an entry is an old one, or that of a table that was written
  have hslot : ∀ j < s.set.numBuckets, ∀ e0, s.set.data j = some e0 →
      ∃ e, d.dedupeSet.data j = some e ∧ e.bitStart + e.bitSize ≤ d.output.length ∧
        e.key d.output = e0.key (output ++ u) := by
    intro j hj e0 he0
    rcases hs.new j e0 he0 with hold | ⟨i, hi, ho⟩
    · have hin := hwithin e0 (mem_elems.2 ⟨j, hs.numBuckets ▸ hj, hold⟩)
      refine ⟨e0, h.old j e0 hold, ?_, ?_⟩
      · rw [hw, length_append, length_append]
        omega
      · rw [DedupeSetEntry.key, DedupeSetEntry.key, hw, append_assoc,
          region_append hin, region_append hin]
    · obtain ⟨e, he, hholds⟩ := h.moved hlen i hi j ho
      obtain ⟨j', e1, hj', -, he1, hkey⟩ := hs.entry i hi ho.1
      obtain rfl : j' = j := some.inj (hj'.symm.trans ho.2.2)
      obtain rfl : e1 = e0 := some.inj (he1.symm.trans he0)
      exact ⟨e, he, hholds.1, by rw [hholds.2, hkey]⟩
  refine ⟨hs.inv.of_keys h.numElements h.numBuckets h.load fun j hj => ?_, fun e he => ?_⟩
  · rcases hd : s.set.data j with _ | e0
    · have hnone : d.dedupeSet.data j = none := by simpa [hd] using h.slots j
      rw [hnone]
      rfl
    · obtain ⟨e, he, hin, hkey⟩ := hslot j hj e0 hd
      rw [he, map_some, map_some, ← hkey, DedupeSetEntry.key, DedupeSetEntry.key, region_append hin]
  · obtain ⟨j, hj, hd⟩ := mem_elems.1 he
    obtain ⟨e0, he0⟩ := isSome_iff_exists.1 ((h.slots j).symm.trans (by rw [hd]; rfl))
    obtain ⟨e', he', hin, -⟩ := hslot j (h.numBuckets ▸ hj) e0 he0
    obtain rfl : e' = e := some.inj (he'.symm.trans hd)
    exact hin

/-- One call: the output grows, and decodes at its old end to what the input decodes to. -/
lemma Inv.dedupe (hI : d.Inv dataHash) (hL : Layout data c S T)
    (hd : hasDedupedBitTables c.bitTableFlags = false) (haligned : 8 ∣ data.length)
    (htail : (S kNumBitTables).length < 8) (hlt : d.output.length + data.length < 2 ^ 32) :
    ∃ d', d.dedupe dataHash data = some (d', d.output.length / 8) ∧ (∃ w, d'.output = d.output ++ w) ∧
      (d'.output.length < 2 ^ 32 → d'.Inv dataHash ∧ ∃ flags rest,
        decode d'.output (d'.output.drop d.output.length) =
          some (⟨c.header.set 6 flags, c.tables⟩, rest)) := by
  obtain ⟨set, hset, hIset, hel, hload, hroom⟩ := hI.reserveForTables
  obtain ⟨bits, hdata, hheader⟩ := hL.header
  have hbytes : bitsToBytesRoundUp (data.length - (S kNumBitTables).length) * 8 = data.length := by
    rw [bitsToBytesRoundUp]
    omega
  have hwithin := hel ▸ hI.within
  obtain ⟨s, hs, hIs⟩ := insertTables_spec hL hd hIset hwithin hroom
    (n := data.length) (Nat.sub_le ..) (by omega)
  rw [List.take_length] at hs hIs
  have hread : readInterleavedVarints kNumHeaders data = some (c.header, S 0) := by
    rw [hdata]
    exact hheader _
  have hcount := hIs.load ▸ hIs.count.trans hroom
  have hload' : s.set.elementsUntilExpand = dedupeLoad.mulMax s.set.numBuckets := by
    rw [hIs.load, hIs.numBuckets, hload]
  have hflags : c.header.getD 6 0 = c.bitTableFlags := rfl
  simp only [CodeInfoTableDeduper.dedupe, hset, hread, hflags, hL.bitTableBitStarts_eq, hbytes,
    List.take_length, hs, bind_eq_bind, bind_some]
  by_cases hded : hasDedupedBitTables s.flags = true
  · obtain ⟨d', hwrite, hW⟩ := writeTables_spec hL hwithin hIs _
    obtain ⟨⟨x, hx⟩, halign⟩ := byteAlign_spec d'.output
    obtain ⟨w, hw⟩ := hW.output
    rw [if_pos hded, hwrite]
    refine ⟨{ d' with output := byteAlign d'.output }, rfl,
      ⟨writeInterleavedVarints (c.header.set 6 s.flags) ++ (w ++ x), ?_⟩, fun hlen => ?_⟩
    · rw [hx, hw, append_assoc, append_assoc]
    have hlen' : d'.output.length < 2 ^ 32 := by
      simp only [hx, length_append] at hlen
      omega
    obtain ⟨hset', hwithin'⟩ := hW.inv (x := x) hwithin hIs hlen'
    refine ⟨⟨halign, hx ▸ hset', ?_, ?_, fun e he => ?_⟩, s.flags, x, ?_⟩
    · rw [hW.load, hW.numBuckets, hload']
    · rwa [hW.load, hW.numElements]
    · rw [hx, length_append]
      exact (hwithin' e he).trans (Nat.le_add_right ..)
    · rw [hx]
      exact decode_of_decodes hL hIs.flags_lt (hW.decodes hlen') hW.output x
  · rw [if_neg hded]
    refine ⟨⟨_, s.set⟩, rfl, ⟨data, rfl⟩, fun _ => ⟨⟨?_, hIs.inv, hload', hcount, fun e he => ?_⟩,
      c.bitTableFlags, S kNumBitTables, ?_⟩⟩
    · rw [length_append]
      exact Nat.dvd_add hI.aligned haligned
    · obtain ⟨j, hj, hd⟩ := mem_elems.1 he
      exact hIs.within j (hIs.numBuckets ▸ hj) e hd
    · have hset : c.header.set 6 c.bitTableFlags = c.header := by
        rw [← hflags, List.getD_eq_getElem _ _ (by rw [hL.header_lt.1]; decide)]
        exact List.set_getElem_self _
      rw [hset, List.drop_left]
      exact decode_copied hL hd _

/-! ## Runs -/

/-- The bytes encode the code info `c`, without back references. -/
structure Encodes (data : List Bool) (c : CodeInfo) : Prop where
  aligned : 8 ∣ data.length
  deduped : hasDedupedBitTables c.bitTableFlags = false
  decodes : ∃ rest, rest.length < 8 ∧ decode data data = some (c, rest)

/-- The deduper after a number of calls, with the code infos of the inputs and the offsets that were
    returned. The output, with the copy that a call makes first, is below 2³² bits. -/
inductive Run (dataHash : List Bool → ℕ) : CodeInfoTableDeduper → List (CodeInfo × ℕ) → Prop
  | create : Run dataHash create []
  | reserve {d : CodeInfoTableDeduper} (numCodeInfos : ℕ) :
      create.reserveDedupeBuffer dataHash numCodeInfos = some d → Run dataHash d []
  | dedupe {d d' : CodeInfoTableDeduper} {calls : List (CodeInfo × ℕ)} {data : List Bool}
      {c : CodeInfo} {offset : ℕ} : Run dataHash d calls → Encodes data c →
      d.output.length + data.length < 2 ^ 32 → d.dedupe dataHash data = some (d', offset) →
      d'.output.length < 2 ^ 32 → Run dataHash d' ((c, offset) :: calls)

/-- The code info `c` is at the byte `offset` of the output, up to its `bit_table_flags_`. -/
def At (output : List Bool) (c : CodeInfo) (offset : ℕ) : Prop :=
  8 * offset ≤ output.length ∧ ∃ flags rest, decode output (output.drop (8 * offset)) =
      some (⟨c.header.set 6 flags, c.tables⟩, rest)

lemma At.append {offset : ℕ} (h : At output c offset) (w : List Bool) : At (output ++ w) c offset := by
  obtain ⟨hle, flags, rest, hdec⟩ := h
  refine ⟨by rw [length_append]; omega, flags, rest ++ w, ?_⟩
  rw [List.drop_append_of_le_length hle]
  exact CodeInfo.decode_append w hdec

lemma Encodes.exists_layout (h : Encodes data c) :
    ∃ S T, Layout data c S T ∧ (S kNumBitTables).length < 8 := by
  obtain ⟨rest, hrest, hdec⟩ := h.decodes
  obtain ⟨S, T, hL⟩ := CodeInfoTableDeduper.exists_layout h.deduped hdec
  have heq := (decode_copied hL h.deduped data).symm.trans hdec
  obtain rfl : S kNumBitTables = rest := by simpa using heq
  exact ⟨S, T, hL, hrest⟩

/-- Every call returns, and what was written before stays. -/
lemma Run.inv {calls : List (CodeInfo × ℕ)} (hr : Run dataHash d calls) :
    d.Inv dataHash ∧ ∀ call ∈ calls, At d.output call.1 call.2 := by
  induction hr with
  | create => exact ⟨inv_create, by simp⟩
  | @reserve d n hs =>
    have hI0 : CodeInfoTableDeduper.create.Inv dataHash := inv_create
    obtain ⟨d', hs', hI⟩ := hI0.reserveDedupeBuffer n
    obtain rfl := some.inj (hs'.symm.trans hs)
    exact ⟨hI, by simp⟩
  | @dedupe d d' calls data c offset _ henc hlt hs hlen ih =>
    obtain ⟨S, T, hL, htail⟩ := henc.exists_layout
    obtain ⟨d1, hs1, ⟨w, hw⟩, hspec⟩ := ih.1.dedupe hL henc.deduped henc.aligned htail hlt
    obtain ⟨rfl, rfl⟩ : d1 = d' ∧ d.output.length / 8 = offset := by simpa using hs1.symm.trans hs
    obtain ⟨hI, flags, rest, hdec⟩ := hspec hlen
    refine ⟨hI, List.forall_mem_cons.2 ⟨?_, fun call hcall => hw ▸ (ih.2 call hcall).append w⟩⟩
    have hoffset := Nat.mul_div_cancel' ih.1.aligned
    exact ⟨by rw [hoffset, hw, length_append]; omega, flags, rest, by rwa [hoffset]⟩

/-- After any number of calls, decoding at each offset that was returned yields the header fields of
    the input, `bit_table_flags_` aside, and its bit tables; and the next call returns too. -/
theorem dedupe_run {calls : List (CodeInfo × ℕ)} (hr : Run dataHash d calls) :
    (∀ call ∈ calls, ∃ c', decodeAt d.output (8 * call.2) = some c' ∧
      c'.header.length = call.1.header.length ∧
      (∀ i ≠ 6, c'.header.getD i 0 = call.1.header.getD i 0) ∧ c'.tables = call.1.tables) ∧
    ∀ data c, Encodes data c → d.output.length + data.length < 2 ^ 32 →
      ∃ d' offset, d.dedupe dataHash data = some (d', offset) := by
  obtain ⟨hI, hall⟩ := hr.inv
  refine ⟨fun call hcall => ?_, fun data c henc hlt => ?_⟩
  · obtain ⟨-, flags, rest, hdec⟩ := hall call hcall
    refine ⟨⟨call.1.header.set 6 flags, _⟩, ?_, List.length_set .., fun i hi => ?_, rfl⟩
    · rw [decodeAt, hdec]
      rfl
    · rw [List.getD_eq_getElem?_getD, List.getElem?_set_ne hi.symm, List.getD_eq_getElem?_getD]
  · obtain ⟨S, T, hL, htail⟩ := henc.exists_layout
    obtain ⟨d', hs, -⟩ := hI.dedupe hL henc.deduped henc.aligned htail hlt
    exact ⟨d', _, hs⟩

/-- A code info with one register mask table of 34 bits. -/
def oneTable : List Bool := writeInterleavedVarints [0, 0, 0, 0, 0, 0, 2] ++
    (writeInterleavedVarints [1, 11, 11] ++ List.replicate 22 true) ++ [false, false]

lemma reserveForTables_create : create.reserveForTables dataHash = some ⟨0, 1000, 750, fun _ => none⟩ := by
  have hfind : Nat.find (dedupeLoad.mulMax_unbounded (12 + 1) (dedupeLoad.divMax 12)) = 3 := by
    rw [Nat.find_eq_iff]
    decide
  show reserve _ dedupeLoad _ 12 = _
  simp only [reserve]
  rw [hfind]
  rfl

/-- The code info of `oneTable`. -/
def oneTableInfo : CodeInfo :=
  ⟨[0, 0, 0, 0, 0, 0, 2], [{}, ⟨1, [0, 11, 22], List.replicate 22 true⟩, {}, {}, {}, {}, {}, {}]⟩

/-- The second of two equal code infos is a back reference to the first, and both decode. -/
theorem dedupe_run_oneTable : ∃ d, Run (fun _ => 0) d [(oneTableInfo, 8), (oneTableInfo, 0)] ∧
    d.output.length = 120 ∧ ∃ c', decodeAt d.output (8 * 8) = some c' ∧
      c'.tables = oneTableInfo.tables := by
  have henc : Encodes oneTable oneTableInfo :=
    ⟨by decide, by decide, [false, false], by decide, by decide +kernel⟩
  have hlen : oneTable.length = 64 := by decide
  have hrun : ((create.dedupe (fun _ => 0) oneTable).bind fun p =>
      (p.1.dedupe (fun _ => 0) oneTable).map fun q =>
        (p.1.output.length, p.2, q.1.output.length, q.2)) = some (64, 0, 120, 8) := by
    rw [dedupe, reserveForTables_create]
    decide +kernel
  obtain ⟨⟨d1, offset1⟩, hd1, hrun⟩ := bind_eq_some_iff.1 hrun
  obtain ⟨⟨d2, offset2⟩, hd2, hrun⟩ := map_eq_some_iff.1 hrun
  obtain ⟨h1, rfl, h2, rfl⟩ : d1.output.length = 64 ∧ offset1 = 0 ∧ d2.output.length = 120 ∧
    offset2 = 8 := by simpa using hrun
  have hr : Run (fun _ => 0) d2 [(oneTableInfo, 8), (oneTableInfo, 0)] :=
    .dedupe (.dedupe .create henc (by rw [hlen]; decide) hd1 (by omega)) henc (by omega) hd2
      (by omega)
  obtain ⟨c', hdec, -, -, htables⟩ := (dedupe_run hr).1 (oneTableInfo, 8) (by simp)
  exact ⟨d2, hr, h2, c', hdec, htables⟩

end CodeInfoTableDeduper

end Art
