import Art.StackMap.BitTable

/-!
# Decoding a code info

`CodeInfo` of `runtime/stack_map.h`: a header of varints, followed by those of eight
bit tables that are not empty. A table may be replaced by the distance, in bits, back to
an equal table before it.
-/

namespace Art

open Parsing
open Option (bind_eq_some_iff)

def kNumHeaders : ℕ := 7

def kNumBitTables : ℕ := 8

/-- The number of columns of each bit table, in the order of `ForEachBitTableField`. -/
def numColumns : List ℕ := [8, 2, 1, 6, 3, 1, 1, 2]

def hasBitTable (bitTableFlags i : ℕ) : Bool := bitTableFlags.testBit i

def isBitTableDeduped (bitTableFlags i : ℕ) : Bool := bitTableFlags.testBit (kNumBitTables + i)

def setBitTableDeduped (bitTableFlags i : ℕ) : ℕ := bitTableFlags ||| 2 ^ (kNumBitTables + i)

def hasDedupedBitTables (bitTableFlags : ℕ) : Bool := bitTableFlags >>> kNumBitTables ≠ 0

/-- `CodeInfo`: the header fields in the order of `ForEachHeaderField`, and the bit tables in the
    order of `ForEachBitTableField`. -/
structure CodeInfo where
  /-- The header fields. -/
  header : List ℕ
  /-- The bit tables. -/
  tables : List BitTable
  deriving DecidableEq

namespace CodeInfo

variable (c : CodeInfo)

def numberOfDexRegisters : ℕ := c.header.getD 5 0

def bitTableFlags : ℕ := c.header.getD 6 0

def stackMaps : BitTable := c.tables.getD 0 {}

def registerMasks : BitTable := c.tables.getD 1 {}

def stackMasks : BitTable := c.tables.getD 2 {}

def inlineInfos : BitTable := c.tables.getD 3 {}

def methodInfos : BitTable := c.tables.getD 4 {}

def dexRegisterMasks : BitTable := c.tables.getD 5 {}

def dexRegisterMaps : BitTable := c.tables.getD 6 {}

def dexRegisterCatalog : BitTable := c.tables.getD 7 {}

variable (mem : List Bool)

/-- The table at the bit `pos` of the memory, for a second reader. -/
def bitTableAt (kNumColumns pos : ℕ) : Parser Bool BitTable := fun rest =>
  (BitTable.decode kNumColumns (mem.drop pos)).map fun table => (table.1, rest)

/-- One table of the constructor of `CodeInfo`: absent, a back reference, or the table itself.

    The position of the reader is taken before the varint of a back reference is read. -/
def decodeBitTable (bitTableFlags kNumColumns i : ℕ) : Parser Bool BitTable :=
  if hasBitTable bitTableFlags i then
    if isBitTableDeduped bitTableFlags i then do
      let rest ← get
      let distance ← readVarint
      bitTableAt mem kNumColumns (mem.length - rest.length - distance)
    else BitTable.decode kNumColumns
  else pure {}

/-- The constructor of `CodeInfo`, for a reader within the memory `mem`. -/
def decode : Parser Bool CodeInfo := do
  let header ← readInterleavedVarints kNumHeaders
  let tables ← numColumns.zipIdx.mapM fun (kNumColumns, i) =>
    decodeBitTable mem (header.getD 6 0) kNumColumns i
  return { header, tables }

/-- `CodeInfo(data)` for data that starts at the bit `start` of the memory. -/
def decodeAt (start : ℕ) : Option CodeInfo := (decode mem (mem.drop start)).map (·.1)

variable {mem l r : List Bool} {flags k i : ℕ} {t : BitTable}

lemma decodeBitTable_of_deduped (hhas : hasBitTable flags i = true)
    (hded : isBitTableDeduped flags i = true) : decodeBitTable mem flags k i l =
      (readVarint l).bind fun p => bitTableAt mem k (mem.length - l.length - p.1) p.2 := by
  rw [decodeBitTable, if_pos hhas, if_pos hded]
  rfl

/-- More memory at the end does not change a table. -/
lemma decodeBitTable_append (x : List Bool) (h : decodeBitTable mem flags k i l = some (t, r)) :
    decodeBitTable (mem ++ x) flags k i (l ++ x) = some (t, r ++ x) := by
  have hlocal : ∀ {α : Type} {p : Parser Bool α} {l r v}, Local p → p l = some (v, r) →
      p (l ++ x) = some (v, r ++ x) := fun hp h => by
    obtain ⟨c, rfl, hc⟩ := hp h
    rw [List.append_assoc, hc]
  by_cases hhas : hasBitTable flags i = true
  · by_cases hded : isBitTableDeduped flags i = true
    · rw [decodeBitTable_of_deduped hhas hded] at h ⊢
      obtain ⟨⟨distance, l'⟩, hv, ht⟩ := bind_eq_some_iff.1 h
      have hpos : (mem ++ x).length - (l ++ x).length = mem.length - l.length := by
        simp only [List.length_append]
        omega
      refine bind_eq_some_iff.2 ⟨(distance, l' ++ x), hlocal local_readVarint hv, ?_⟩
      obtain ⟨⟨table, rest⟩, hd, ht⟩ := Option.map_eq_some_iff.1 ht
      obtain ⟨rfl, rfl⟩ : table = t ∧ l' = r := by simpa using ht
      refine Option.map_eq_some_iff.2 ⟨(table, rest ++ x), ?_, rfl⟩
      simp only [hpos]
      rw [List.drop_append_of_le_length (by omega)]
      exact hlocal (BitTable.local_decode k) hd
    · rw [decodeBitTable, if_pos hhas, if_neg hded] at h ⊢
      exact hlocal (BitTable.local_decode k) h
  · rw [decodeBitTable, if_neg hhas] at h ⊢
    exact hlocal (local_pure _) h

lemma mapM_append {α β : Type} {f g : α → Parser Bool β} (x : List Bool)
    (hfg : ∀ a l v r, f a l = some (v, r) → g a (l ++ x) = some (v, r ++ x)) (as : List α)
    {l r : List Bool} {vs : List β} (h : as.mapM f l = some (vs, r)) :
    as.mapM g (l ++ x) = some (vs, r ++ x) := by
  induction as generalizing l vs with
  | nil =>
    obtain ⟨rfl, rfl⟩ := eq_of_pure h
    rfl
  | cons a as ih =>
    rw [List.mapM_cons] at h ⊢
    obtain ⟨⟨v, l'⟩, hv, h'⟩ := bind_eq_some_iff.1 h
    obtain ⟨⟨ws, l''⟩, hws, h''⟩ := bind_eq_some_iff.1 h'
    obtain ⟨rfl, rfl⟩ := eq_of_pure h''
    exact bind_eq_some_iff.2 ⟨_, hfg a l v l' hv, bind_eq_some_iff.2 ⟨_, ih hws, rfl⟩⟩

/-- More memory at the end does not change a code info. -/
lemma decode_append (x : List Bool) {c : CodeInfo} (h : decode mem l = some (c, r)) :
    decode (mem ++ x) (l ++ x) = some (c, r ++ x) := by
  obtain ⟨⟨header, l'⟩, hh, h'⟩ := bind_eq_some_iff.1 h
  obtain ⟨⟨tables, l''⟩, ht, h''⟩ := bind_eq_some_iff.1 h'
  obtain ⟨rfl, rfl⟩ := eq_of_pure h''
  refine bind_eq_some_iff.2 ⟨(header, l' ++ x), ?_, bind_eq_some_iff.2 ⟨(tables, l'' ++ x), ?_, rfl⟩⟩
  · obtain ⟨c, rfl, hc⟩ := local_readInterleavedVarints _ hh
    rw [List.append_assoc, hc]
  · exact mapM_append x (fun a l v r h => decodeBitTable_append x h) _ ht

end CodeInfo

end Art
