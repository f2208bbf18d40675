import Art.StackMap.StackMap

/-!
# Recording stack maps

`StackMapStream` of `compiler/optimizing/stack_map_stream.cc`, with the table builders of
`libartbase/base/bit_table.h`. The compiler calls it for one stack map after the other; at
the end it encodes the tables.

A `StackMapEntry` is what the compiler records for one stack map, and `record` the calls it
makes for it. The hash of the rows that the builders look up is arbitrary.
-/

namespace Art

open Parsing InlineInfo StackMap List MethodInfo

/-! ## Table builders -/

/-- `BitTableBuilderBase`: the rows, and the hashes and indices of the runs of rows that were added.

    The rows are found by their hash in the order in which they were added. -/
structure TableBuilder (ρ : Type) where
  rows : List ρ := []
  /-- `dedup_`. -/
  dedupMap : List (ℕ × ℕ) := []
  le : ∀ p ∈ dedupMap, p.2 ≤ rows.length := by simp

namespace TableBuilder

variable {ρ : Type} [DecidableEq ρ] (hash : List ρ → ℕ)

/-- The loop of `Dedup(values, count)`: the index of equal rows. -/
def find (b : TableBuilder ρ) (values : List ρ) : Option ℕ :=
  (b.dedupMap.find? fun p => p.1 = hash values ∧ values.length ≤ b.rows.length - p.2 ∧
    (b.rows.drop p.2).take values.length = values).map (·.2)

/-- The rows are added without looking for equal ones. -/
def append (b : TableBuilder ρ) (values : List ρ) : TableBuilder ρ where
  rows := b.rows ++ values
  dedupMap := b.dedupMap ++ [(hash values, b.rows.length)]
  le p hp := by
    rw [length_append]
    rcases mem_append.mp hp with hp | hp
    · exact (b.le p hp).trans (Nat.le_add_right ..)
    · rw [mem_singleton.mp hp]
      exact Nat.le_add_right ..

/-- `Dedup(values, count)`: the builder, and the index of the first row. -/
def dedup (b : TableBuilder ρ) (values : List ρ) : TableBuilder ρ × ℕ :=
  match b.find hash values with
  | some index => (b, index)
  | none => (b.append hash values, b.rows.length)

end TableBuilder

/-- `BitVector::GetNumberOfBits()`: one more than the highest set bit. -/
def getNumberOfBits (bits : List Bool) : ℕ := (bits.reverse.dropWhile (!·)).length

/-- The bytes at `GetRawStorage()` that hold the given number of bits. -/
def rawStorage (bits : List Bool) (numBits : ℕ) : List Bool :=
  (range (bitsToBytesRoundUp numBits * 8)).map fun i => bits.getD i false

structure BitmapTableBuilder where
  /-- `rows_` and `dedup_`. -/
  table : TableBuilder (List Bool) := {}
  maxNumBits : ℕ := 0

/-- `Dedup(bitmap, num_bits)` of a `BitmapTableBuilder`. -/
def BitmapTableBuilder.dedup (hash : List (List Bool) → ℕ) (b : BitmapTableBuilder)
    (bits : List Bool) (numBits : ℕ) : BitmapTableBuilder × ℕ :=
  let region := rawStorage bits numBits
  match b.table.find hash [region] with
  | some index => (b, index)
  | none => (⟨b.table.append hash [region], max b.maxNumBits numBits⟩, b.table.rows.length)

/-! ## The stream -/

def kMaxDexRegisterMapSearchDistance : ℕ := 32

/-- What `BeginInlineInfoEntry` reads of the method and of the environment. -/
structure InlinedMethod where
  encodeArtMethod : Bool
  /-- The pointer. -/
  address : ℕ
  dexMethodIndex : ℕ
  isSameDexFile : Bool
  isBootStrapClassLoaded : Bool
  /-- The position of the dex file in the boot class path. -/
  bootClassPathIndex : ℕ
  /-- The position of the dex file among those of the oat file. -/
  oatDexFileIndex : ℕ

/-- `is_in_bootclasspath` and `dexfile_index`. -/
def InlinedMethod.dexFile (m : InlinedMethod) (dexPc : ℕ) : ℕ × ℕ :=
  if dexPc ≠ kNoValue then
    if m.isSameDexFile then (kKindNonBCP, kSameDexFile)
    else if m.isBootStrapClassLoaded then (kKindBCP, m.bootClassPathIndex)
    else (kKindNonBCP, m.oatDexFileIndex)
  else (kKindNonBCP, kSameDexFile)

/-- The row of `method_infos_` for a method that is not encoded by its address. -/
def InlinedMethod.methodInfo (m : InlinedMethod) (dexPc : ℕ) : List ℕ :=
  [m.dexMethodIndex, (m.dexFile dexPc).1, (m.dexFile dexPc).2]

structure StackMapStream where
  codeSize : ℕ := 0
  packedFrameSize : ℕ := 0
  coreSpillMask : ℕ := 0
  fpSpillMask : ℕ := 0
  numDexRegisters : ℕ := 0
  baseline : Bool := false
  debuggable : Bool := false
  stackMaps : List (List ℕ) := []
  registerMasks : TableBuilder (List ℕ) := {}
  stackMasks : BitmapTableBuilder := {}
  inlineInfos : TableBuilder (List ℕ) := {}
  methodInfos : TableBuilder (List ℕ) := {}
  dexRegisterMasks : BitmapTableBuilder := {}
  dexRegisterMaps : TableBuilder (List ℕ) := {}
  dexRegisterCatalog : TableBuilder (List ℕ) := {}
  lazyStackMasks : List (Option (List Bool)) := []
  currentStackMap : List ℕ := []
  currentInlineInfos : List (List ℕ) := []
  currentDexRegisters : List DexRegisterLocation := []
  previousDexRegisters : List DexRegisterLocation := []
  dexRegisterTimestamp : List ℕ := []
  expectedNumDexRegisters : ℕ := 0

/-- `LeastSignificantBit(value)`, for a value that is not zero. -/
def leastSignificantBit (value : ℕ) : ℕ := (range 32).findIdx fun i => value.testBit i

/-- The last inline info of a stack map is marked as such. -/
def setLast : List (List ℕ) → List (List ℕ)
  | [] => []
  | [entry] => [entry.set kIsLast kLast]
  | entry :: entries => entry :: setLast entries

/-- The state of the loop of `CreateDexRegisterMap`. -/
structure RegisterState where
  mask : List Bool
  map : List (List ℕ)
  previous : List DexRegisterLocation
  timestamp : List ℕ
  catalog : TableBuilder (List ℕ)

namespace StackMapStream

variable (alignment : ℕ) (rowHash : List (List ℕ) → ℕ) (bitmapHash : List (List Bool) → ℕ)

def kStackAlignment : ℕ := 16

variable (s : StackMapStream)

def beginMethod (frameSizeInBytes coreSpillMask fpSpillMask numDexRegisters : ℕ) (baseline debuggable : Bool) :
    StackMapStream :=
  { s with packedFrameSize := frameSizeInBytes / kStackAlignment, coreSpillMask, fpSpillMask,
           numDexRegisters, baseline, debuggable }

/-- The row of `register_masks_` for a mask that is not zero. -/
def registerMaskRow (registerMask : ℕ) : List ℕ :=
  [registerMask >>> leastSignificantBit registerMask, leastSignificantBit registerMask]

def beginStackMapEntry (dexPc nativePcOffset registerMask : ℕ)
    (stackMask : Option (List Bool)) (kind : StackMap.Kind) (needsVregInfo : Bool) : StackMapStream :=
  let current := replicate 8 kNoValue
    |>.set kKind kind.code
    |>.set kPackedNativePc (packNativePc alignment nativePcOffset)
    |>.set StackMap.kDexPc dexPc
  let s := { s with
    currentStackMap := current
    lazyStackMasks := s.lazyStackMasks ++ [stackMask]
    currentInlineInfos := []
    currentDexRegisters := []
    expectedNumDexRegisters := if needsVregInfo then s.numDexRegisters else 0 }
  if registerMask ≠ 0 then
    let p := s.registerMasks.dedup rowHash [registerMaskRow registerMask]
    { s with registerMasks := p.1
             currentStackMap := s.currentStackMap.set kRegisterMaskIndex p.2 }
  else s

def addDexRegisterEntry (loc : DexRegisterLocation) : StackMapStream :=
  { s with currentDexRegisters := s.currentDexRegisters ++ [loc] }

def beginInlineInfoEntry (method : InlinedMethod) (dexPc numDexRegisters : ℕ) : StackMapStream :=
  let expected := s.expectedNumDexRegisters + numDexRegisters
  let entry := replicate 6 kNoValue
    |>.set kIsLast kMore
    |>.set InlineInfo.kDexPc dexPc
    |>.set kNumberOfDexRegisters (expected % 2 ^ 32)
  if method.encodeArtMethod then
    let entry := entry
      |>.set kArtMethodHi (method.address / 2 ^ 32 % 2 ^ 32)
      |>.set kArtMethodLo (method.address % 2 ^ 32)
    { s with expectedNumDexRegisters := expected
             currentInlineInfos := s.currentInlineInfos ++ [entry] }
  else
    let p := s.methodInfos.dedup rowHash [method.methodInfo dexPc]
    { s with expectedNumDexRegisters := expected
             methodInfos := p.1
             currentInlineInfos := s.currentInlineInfos ++ [entry.set kMethodInfoIndex p.2] }

def endInlineInfoEntry : StackMapStream := s

/-- The row of `dex_register_catalog_` for a location. -/
def catalogRow (reg : DexRegisterLocation) : List ℕ :=
  [reg.kind.code, DexRegisterLocation.packValue reg.kind reg.value]

/-- The loop of `CreateDexRegisterMap` for the register `i`, in the stack map number `now`. -/
def recordRegister (now : ℕ) (current : List DexRegisterLocation) (st : RegisterState) (i : ℕ) :
    RegisterState :=
  let reg := current.getD i .none
  let distance := now - st.timestamp.getD i 0
  if st.previous.getD i .none ≠ reg ∨ kMaxDexRegisterMapSearchDistance < distance then
    let p := if reg.isLive then st.catalog.dedup rowHash [catalogRow reg]
      else (st.catalog, kNoValue)
    { mask := st.mask.set i true
      map := st.map ++ [[p.2]]
      previous := st.previous.set i reg
      timestamp := st.timestamp.set i now
      catalog := p.1 }
  else st

/-- The loop of `CreateDexRegisterMap`. -/
def recordRegisters : RegisterState :=
  let n := s.currentDexRegisters.length
  (range n).foldl (recordRegister rowHash s.stackMaps.length s.currentDexRegisters)
    { mask := replicate n false
      map := []
      previous := s.previousDexRegisters ++ replicate (n - s.previousDexRegisters.length) .none
      timestamp := s.dexRegisterTimestamp ++ replicate (n - s.dexRegisterTimestamp.length) 0
      catalog := s.dexRegisterCatalog }

def createDexRegisterMap : StackMapStream :=
  let st := s.recordRegisters rowHash
  let s := { s with previousDexRegisters := st.previous, dexRegisterTimestamp := st.timestamp,
                    dexRegisterCatalog := st.catalog }
  let numBits := getNumberOfBits st.mask
  let s : StackMapStream := if numBits ≠ 0 then
      let p := s.dexRegisterMasks.dedup bitmapHash st.mask numBits
      { s with dexRegisterMasks := p.1
               currentStackMap := s.currentStackMap.set kDexRegisterMaskIndex p.2 }
    else s
  if s.currentDexRegisters ≠ [] then
    let p := s.dexRegisterMaps.dedup rowHash st.map
    { s with dexRegisterMaps := p.1
             currentStackMap := s.currentStackMap.set kDexRegisterMapIndex p.2 }
  else s

def endStackMapEntry : StackMapStream :=
  let s : StackMapStream := if s.currentInlineInfos ≠ [] then
      let infos := setLast s.currentInlineInfos
      let p := s.inlineInfos.dedup rowHash infos
      { s with inlineInfos := p.1
               currentInlineInfos := infos
               currentStackMap := s.currentStackMap.set kInlineInfoIndex p.2 }
    else s
  let s := if s.currentDexRegisters ≠ [] then s.createDexRegisterMap rowHash bitmapHash else s
  { s with stackMaps := s.stackMaps ++ [s.currentStackMap] }

/-- The loop of `EndMethod`: the stack mask of the stack map `i` is read. -/
def readStackMask (i : ℕ) : StackMapStream :=
  match s.lazyStackMasks.getD i none with
  | none => s
  | some stackMask =>
    if getNumberOfBits stackMask ≠ 0 then
      let p := s.stackMasks.dedup bitmapHash stackMask (getNumberOfBits stackMask)
      { s with stackMasks := p.1
               stackMaps := s.stackMaps.modify i (·.set kStackMaskIndex p.2) }
    else s

def endMethod (codeSize : ℕ) : StackMapStream :=
  (range s.lazyStackMasks.length).foldl (readStackMask bitmapHash) { s with codeSize }

/-! ## Encoding -/

def flags : ℕ := (if s.inlineInfos.rows.length > 0 then 1 else 0) ||| (if s.baseline then 2 else 0) |||
    (if s.debuggable then 4 else 0)

/-- The sizes and the encodings of the tables, in the order of `ForEachBitTable`. -/
def bitTables : List (ℕ × List Bool) := [(s.stackMaps.length, encodeTable 8 s.stackMaps),
    (s.registerMasks.rows.length, encodeTable 2 s.registerMasks.rows),
    (s.stackMasks.table.rows.length, encodeBitmaps s.stackMasks.maxNumBits s.stackMasks.table.rows),
    (s.inlineInfos.rows.length, encodeTable 6 s.inlineInfos.rows),
    (s.methodInfos.rows.length, encodeTable 3 s.methodInfos.rows), (s.dexRegisterMasks.table.rows.length,
      encodeBitmaps s.dexRegisterMasks.maxNumBits s.dexRegisterMasks.table.rows),
    (s.dexRegisterMaps.rows.length, encodeTable 1 s.dexRegisterMaps.rows),
    (s.dexRegisterCatalog.rows.length, encodeTable 2 s.dexRegisterCatalog.rows)]

/-- `bit_table_flags`: the tables that are not empty. -/
def bitTableFlags : ℕ :=
  (s.bitTables.zipIdx.map fun (table, i) => if table.1 ≠ 0 then 2 ^ i else 0).foldl (· ||| ·) 0

/-- The header, in the order of `ForEachHeaderField`. -/
def header : List ℕ :=
  [s.flags, s.codeSize, s.packedFrameSize, s.coreSpillMask, s.fpSpillMask, s.numDexRegisters, s.bitTableFlags]

/-- The bits that `Encode` writes. -/
def writtenBits : List Bool :=
  writeInterleavedVarints s.header ++ s.bitTables.flatMap fun table => if table.1 ≠ 0 then table.2 else []

/-- `Encode()`: the bytes, or `none` if one of its checks fails. -/
def encode : Option (List Bool) := do
  let buffer := byteAlign s.writtenBits
  let (codeInfo, rest) ← CodeInfo.decode buffer buffer
  if buffer.length - rest.length = s.writtenBits.length ∧ codeInfo.stackMaps.numRows = s.stackMaps.length ∧
      buffer.getD 0 false = decide (s.inlineInfos.rows.length > 0) ∧ buffer.getD 1 false = s.baseline then
    some buffer
  else none

end StackMapStream

/-! ## Whole stack maps -/

/-- An inlined frame: its method, its dex pc and the locations of its registers. -/
structure InlineEntry where
  method : InlinedMethod
  dexPc : ℕ
  registers : List DexRegisterLocation

/-- What the compiler records for a stack map. -/
structure StackMapEntry where
  dexPc : ℕ
  nativePcOffset : ℕ
  registerMask : ℕ
  stackMask : Option (List Bool)
  kind : StackMap.Kind
  needsVregInfo : Bool
  registers : List DexRegisterLocation
  inlineInfos : List InlineEntry

namespace StackMapStream

variable (alignment : ℕ) (rowHash : List (List ℕ) → ℕ) (bitmapHash : List (List Bool) → ℕ)

/-- The calls for an inlined frame. -/
def recordInlineInfo (s : StackMapStream) (e : InlineEntry) : StackMapStream :=
  (e.registers.foldl addDexRegisterEntry
    (s.beginInlineInfoEntry rowHash e.method e.dexPc e.registers.length)).endInlineInfoEntry

/-- The calls for a stack map. -/
def record (s : StackMapStream) (e : StackMapEntry) : StackMapStream :=
  let s := s.beginStackMapEntry alignment rowHash e.dexPc e.nativePcOffset e.registerMask
    e.stackMask e.kind e.needsVregInfo
  let s := e.registers.foldl addDexRegisterEntry s
  (e.inlineInfos.foldl (recordInlineInfo rowHash) s).endStackMapEntry rowHash bitmapHash

end StackMapStream

/-- What the compiler records for a method. -/
structure MethodEntry where
  frameSizeInBytes : ℕ
  coreSpillMask : ℕ
  fpSpillMask : ℕ
  numDexRegisters : ℕ
  baseline : Bool
  debuggable : Bool
  stackMaps : List StackMapEntry
  codeSize : ℕ

/-- The calls for a method. -/
def StackMapStream.recordMethod (alignment : ℕ) (rowHash : List (List ℕ) → ℕ)
    (bitmapHash : List (List Bool) → ℕ) (m : MethodEntry) : StackMapStream :=
  let s : StackMapStream := StackMapStream.beginMethod {} m.frameSizeInBytes m.coreSpillMask
    m.fpSpillMask m.numDexRegisters m.baseline m.debuggable
  (m.stackMaps.foldl (StackMapStream.record alignment rowHash bitmapHash) s).endMethod bitmapHash
    m.codeSize

end Art
