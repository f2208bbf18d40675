import Mathlib.Data.Finset.Card
import Art.Lib.Delta
import Art.StackMap.CodeInfo

/-!
# Reading stack maps

The rows of a `CodeInfo` of `runtime/stack_map.h`: stack maps, inline infos and the
locations of dex registers. A stack map has the locations of the registers that changed
since the stack map before it, and `DecodeDexRegisterMap` scans backwards for the others.
-/

namespace Art

open Function List

/-! ## Columns -/

namespace StackMap

/-- The columns of `StackMap`. -/
def kKind : ℕ := 0
def kPackedNativePc : ℕ := 1
def kDexPc : ℕ := 2
def kRegisterMaskIndex : ℕ := 3
def kStackMaskIndex : ℕ := 4
def kInlineInfoIndex : ℕ := 5
def kDexRegisterMaskIndex : ℕ := 6
def kDexRegisterMapIndex : ℕ := 7

inductive Kind
  | default
  | catch
  | osr
  | debug
  deriving DecidableEq

/-- The value of the enumeration, as a `uint32_t`. -/
def Kind.code : Kind → ℕ
  | default => kNoValue
  | .catch => 0
  | osr => 1
  | debug => 2

/-- `PackNativePc(native_pc, isa)`, for the alignment of instructions of the instruction set. -/
def packNativePc (alignment nativePc : ℕ) : ℕ := nativePc / alignment

def unpackNativePc (alignment packedNativePc : ℕ) : ℕ := packedNativePc * alignment % 2 ^ 32

end StackMap

namespace InlineInfo

/-- The columns of `InlineInfo`. -/
def kIsLast : ℕ := 0
def kDexPc : ℕ := 1
def kMethodInfoIndex : ℕ := 2
def kArtMethodHi : ℕ := 3
def kArtMethodLo : ℕ := 4
def kNumberOfDexRegisters : ℕ := 5

def kLast : ℕ := kNoValue

def kMore : ℕ := 0

end InlineInfo

namespace MethodInfo

/-- The columns of `MethodInfo`. -/
def kMethodIndex : ℕ := 0
def kDexFileIndexKind : ℕ := 1
def kDexFileIndex : ℕ := 2

def kKindNonBCP : ℕ := kNoValue

def kKindBCP : ℕ := 0

def kSameDexFile : ℕ := kNoValue

end MethodInfo

/-! ## Locations of dex registers -/

def kFrameSlotSize : ℕ := 4

namespace DexRegisterLocation

inductive Kind
  | invalid
  | none
  | inStack
  | constant
  | inRegister
  | inRegisterHigh
  | inFpuRegister
  | inFpuRegisterHigh
  deriving DecidableEq

/-- The value of the enumeration, as a `uint32_t`. -/
def Kind.code : Kind → ℕ
  | invalid => 2 ^ 32 - 2
  | none => 2 ^ 32 - 1
  | inStack => 0
  | constant => 1
  | inRegister => 2
  | inRegisterHigh => 3
  | inFpuRegister => 4
  | inFpuRegisterHigh => 5

/-- The cast back; only values of the enumeration are stored. -/
def Kind.ofCode (value : ℕ) : Kind :=
  if value = 0 then inStack
  else if value = 1 then constant
  else if value = 2 then inRegister
  else if value = 3 then inRegisterHigh
  else if value = 4 then inFpuRegister
  else if value = 5 then inFpuRegisterHigh
  else if value = 2 ^ 32 - 1 then none
  else invalid

end DexRegisterLocation

/-- `DexRegisterLocation`; the value is an `int32_t` in two's complement. -/
@[ext]
structure DexRegisterLocation where
  kind : DexRegisterLocation.Kind
  value : ℕ
  deriving DecidableEq

namespace DexRegisterLocation

protected def none : DexRegisterLocation := ⟨.none, 0⟩

protected def invalid : DexRegisterLocation := ⟨.invalid, 0⟩

def isLive (loc : DexRegisterLocation) : Bool := loc.kind ≠ .none

variable (kind : Kind)

def packValue (value : ℕ) : ℕ := if kind = .inStack then value / kFrameSlotSize else value

def unpackValue (packedValue : ℕ) : ℕ :=
  if kind = .inStack then packedValue * kFrameSlotSize % 2 ^ 32 else packedValue

@[simp] lemma Kind.ofCode_code : ofCode kind.code = kind := by
  cases kind <;> decide

end DexRegisterLocation

/-! ## Rows -/

namespace CodeInfo

variable (c : CodeInfo) (stackMap : ℕ)

/-- `GetStackMaskOf(stack_map)`, for the stack map in the given row. -/
def getStackMaskOf : List Bool :=
  let index := c.stackMaps.get stackMap StackMap.kStackMaskIndex
  if index = kNoValue then [] else c.stackMasks.getBitMemoryRegion index

def getRegisterMaskOf : ℕ :=
  let index := c.stackMaps.get stackMap StackMap.kRegisterMaskIndex
  if index = kNoValue then 0
  else c.registerMasks.get index 0 <<< c.registerMasks.get index 1 % 2 ^ 32

/-- The loop of `GetInlineInfosOf`: the rows up to the last one; `fuel` counts the rows left. -/
def inlineInfosFrom : ℕ → ℕ → List ℕ
  | 0, _ => []
  | fuel + 1, row =>
    row :: if c.inlineInfos.get row InlineInfo.kIsLast = InlineInfo.kMore then
      inlineInfosFrom fuel (row + 1) else []

/-- `GetInlineInfosOf(stack_map)`: rows of inline infos. -/
def getInlineInfosOf : List ℕ :=
  let index := c.stackMaps.get stackMap StackMap.kInlineInfoIndex
  if index = kNoValue then [] else c.inlineInfosFrom (c.inlineInfos.numRows - index) index

variable (inlineInfo : ℕ)

def getArtMethod : ℕ := c.inlineInfos.get inlineInfo InlineInfo.kArtMethodHi <<< 32 |||
    c.inlineInfos.get inlineInfo InlineInfo.kArtMethodLo

def encodesArtMethod : Bool := c.inlineInfos.get inlineInfo InlineInfo.kArtMethodLo ≠ kNoValue

/-- `GetMethodInfoOf(inline_info)`, with its three columns. -/
def getMethodInfoOf : ℕ × ℕ × ℕ :=
  let row := c.inlineInfos.get inlineInfo InlineInfo.kMethodInfoIndex
  (c.methodInfos.get row MethodInfo.kMethodIndex, c.methodInfos.get row MethodInfo.kDexFileIndexKind,
    c.methodInfos.get row MethodInfo.kDexFileIndex)

def getDexRegisterCatalogEntry (index : ℕ) : DexRegisterLocation :=
  if index = kNoValue then .none
  else
    let kind := DexRegisterLocation.Kind.ofCode (c.dexRegisterCatalog.get index 0)
    ⟨kind, DexRegisterLocation.unpackValue kind (c.dexRegisterCatalog.get index 1)⟩

/-! ## Scanning backwards -/

/-- The state of the scan: the registers found so far, and how many are still to be found. -/
structure Scan where
  /-- The registers of `map`. -/
  regs : List DexRegisterLocation
  remaining : ℕ

variable (mask : List Bool)

/-- The loop of `DecodeDexRegisterMap` over the set bits of a mask, which is read in chunks of 32
    bits: the scan, and `map_index`. -/
def updateRegister (p : Scan × ℕ) (reg : ℕ) : Scan × ℕ :=
  if mask.getD reg false then
    if (p.1.regs.getD reg .invalid).kind = .invalid then
      (⟨p.1.regs.set reg (c.getDexRegisterCatalogEntry (c.dexRegisterMaps.get p.2)),
        p.1.remaining - 1⟩, p.2 + 1)
    else (p.1, p.2 + 1)
  else p

/-- One stack map of the scan. -/
def visit (firstDexRegister s : ℕ) (scan : Scan) : Scan :=
  let maskIndex := c.stackMaps.get s StackMap.kDexRegisterMaskIndex
  if maskIndex = kNoValue then scan
  else
    let mask := c.dexRegisterMasks.getBitMemoryRegion maskIndex
    if mask.length ≤ firstDexRegister then scan
    else
      let mapIndex := c.stackMaps.get s StackMap.kDexRegisterMapIndex +
        (mask.take firstDexRegister).count true
      let mask := mask.drop firstDexRegister
      ((List.range (min scan.regs.length mask.length)).foldl (c.updateRegister mask) (scan, mapIndex)).1

/-- The loop of `DecodeDexRegisterMap` over the stack maps before `s`, the last one first. -/
def scanBack (firstDexRegister : ℕ) : ℕ → Scan → Scan
  | 0, scan => scan
  | s + 1, scan =>
    if scan.remaining = 0 then scan else scanBack firstDexRegister s (c.visit firstDexRegister s scan)

/-- `DecodeDexRegisterMap(stack_map_index, first_dex_register, map)` for a map of `size` invalid
    registers. The index of the stack map is an `int32_t` in the loop. -/
def decodeDexRegisterMap (stackMapIndex firstDexRegister size : ℕ) : List DexRegisterLocation :=
  let scan := c.scanBack firstDexRegister (if stackMapIndex < 2 ^ 31 then stackMapIndex + 1 else 0)
    ⟨List.replicate size .invalid, size⟩
  if scan.remaining = 0 then scan.regs
  else scan.regs.map fun reg => if reg.kind = .invalid then .none else reg

/-- `GetDexRegisterMapOf(stack_map, first, last)`. -/
def getDexRegisterMapOfRange (stackMap first last : ℕ) : List DexRegisterLocation :=
  if c.stackMaps.get stackMap StackMap.kDexRegisterMapIndex = kNoValue then []
  else c.decodeDexRegisterMap stackMap first (last - first)

def getDexRegisterMapOf : List DexRegisterLocation :=
  c.getDexRegisterMapOfRange stackMap 0 c.numberOfDexRegisters

/-- `GetInlineDexRegisterMapOf(stack_map, inline_info)`: the counts of inline infos include the outer
    levels. -/
def getInlineDexRegisterMapOf (stackMap inlineInfo : ℕ) : List DexRegisterLocation :=
  if c.stackMaps.get stackMap StackMap.kDexRegisterMapIndex = kNoValue then []
  else
    let depth := inlineInfo - c.stackMaps.get stackMap StackMap.kInlineInfoIndex
    let first := if depth = 0 then c.numberOfDexRegisters
      else c.inlineInfos.get (inlineInfo - 1) InlineInfo.kNumberOfDexRegisters
    let last := c.inlineInfos.get inlineInfo InlineInfo.kNumberOfDexRegisters
    c.getDexRegisterMapOfRange stackMap first last

/-! ## What the scan finds -/

/-- The location that the stack map `s` has for a register, if it has one. -/
def change (s reg : ℕ) : Option DexRegisterLocation :=
  let maskIndex := c.stackMaps.get s StackMap.kDexRegisterMaskIndex
  if maskIndex = kNoValue then none
  else
    let mask := c.dexRegisterMasks.getBitMemoryRegion maskIndex
    if mask.getD reg false then
      some (c.getDexRegisterCatalogEntry (c.dexRegisterMaps.get
        (c.stackMaps.get s StackMap.kDexRegisterMapIndex + (mask.take reg).count true)))
    else none

variable (loc : DexRegisterLocation)

/-- A location that was found. -/
def known : Option DexRegisterLocation :=
  if loc.kind = .invalid then none else some loc

/-- The registers of a scan are the values of `f`, and `remaining` counts the unknown ones. -/
structure Scan.Rep (scan : Scan) (size : ℕ) (f : ℕ → DexRegisterLocation) : Prop where
  regs : scan.regs = (List.range size).map f
  remaining : scan.remaining = ((Finset.range size).filter fun j => (f j).kind = .invalid).card

variable {scan : Scan} {size : ℕ} {f : ℕ → DexRegisterLocation}

lemma Scan.Rep.congr {g : ℕ → DexRegisterLocation} (h : scan.Rep size f)
    (hfg : ∀ j < size, f j = g j) : scan.Rep size g := by
  refine ⟨h.regs.trans (map_congr_left fun j hj => hfg j (mem_range.1 hj)),
    h.remaining.trans (congrArg Finset.card (Finset.filter_congr fun j hj => ?_))⟩
  rw [hfg j (Finset.mem_range.1 hj)]

lemma set_map_range {α : Type} (f : ℕ → α) (n i : ℕ) (x : α) :
    ((List.range n).map f).set i x = (List.range n).map (update f i x) := by
  refine ext_getElem (by simp) fun j _ _ => ?_
  by_cases hij : i = j
  · simp [hij]
  · simp [hij, Ne.symm hij]

/-- Finding a register is one less to be found. -/
lemma Scan.Rep.set {i : ℕ} {loc : DexRegisterLocation} (h : scan.Rep size f) (hi : i < size)
    (hf : (f i).kind = .invalid) (hloc : loc.kind ≠ .invalid) :
    (⟨scan.regs.set i loc, scan.remaining - 1⟩ : Scan).Rep size (update f i loc) := by
  refine ⟨by rw [h.regs, set_map_range], ?_⟩
  have herase : ((Finset.range size).filter fun j => (update f i loc j).kind = .invalid) =
      ((Finset.range size).filter fun j => (f j).kind = .invalid).erase i := by
    ext j
    by_cases hj : j = i
    · simp [hj, hloc]
    · simp [hj]
  rw [herase, Finset.card_erase_of_mem (by simp [hi, hf]), h.remaining]

lemma count_take_succ (n : ℕ) : (mask.take (n + 1)).count true =
    (mask.take n).count true + (mask.getD n false).toNat := by
  rw [take_add_one, count_append, getD_eq_getElem?_getD]
  rcases mask[n]? with _ | _ | _ <;> rfl

variable {c} {n : ℕ}

/-- The loop over a mask: the unknown registers whose bits are set are found. -/
lemma updateRegister_foldl (mask : List Bool) (mapIndex : ℕ) (h : scan.Rep size f) (hn : n ≤ size)
    (hvalid : ∀ j < n, mask.getD j false = true → (c.getDexRegisterCatalogEntry
      (c.dexRegisterMaps.get (mapIndex + (mask.take j).count true))).kind ≠ .invalid) :
    ((List.range n).foldl (c.updateRegister mask) (scan, mapIndex)).2 = mapIndex + (mask.take n).count true ∧
    ((List.range n).foldl (c.updateRegister mask) (scan, mapIndex)).1.Rep size fun j =>
      if j < n ∧ mask.getD j false = true ∧ (f j).kind = .invalid then
        c.getDexRegisterCatalogEntry (c.dexRegisterMaps.get (mapIndex + (mask.take j).count true))
      else f j := by
  induction n with
  | zero => exact ⟨by simp, by simpa using h⟩
  | succ n ih =>
    obtain ⟨hindex, hrep⟩ := ih (by omega) fun j hj => hvalid j (by omega)
    have hget : ((((List.range n).foldl (c.updateRegister mask) (scan, mapIndex)).1.regs.getD n
        .invalid).kind = .invalid) ↔ (f n).kind = .invalid := by
      rw [hrep.regs, getD_eq_getElem _ _ (by simp; omega)]
      simp
    -- the registers other than the one at `n` are as before
    have hother : ∀ j ≠ n, (j < n + 1 ∧ mask.getD j false = true ∧ (f j).kind = .invalid) ↔
        (j < n ∧ mask.getD j false = true ∧ (f j).kind = .invalid) := fun j hj =>
      and_congr_left' (by omega)
    rw [range_succ, foldl_append, foldl_cons, foldl_nil, updateRegister, count_take_succ, hindex]
    by_cases hmask : mask.getD n false = true
    · rw [if_pos hmask, hmask]
      by_cases hinvalid : (f n).kind = .invalid
      · rw [if_pos (hget.2 hinvalid)]
        refine ⟨rfl, ?_⟩
        have := hrep.set (i := n) (by omega) (by simpa using hinvalid)
          (hvalid n (Nat.lt_succ_self n) hmask)
        convert this using 2 with j
        by_cases hj : j = n
        · subst hj
          rw [if_pos ⟨Nat.lt_succ_self j, hmask, hinvalid⟩, update_self]
        · rw [update_of_ne hj]
          exact if_congr (hother j hj) rfl rfl
      · rw [if_neg (mt hget.1 hinvalid)]
        refine ⟨rfl, ?_⟩
        convert hrep using 2 with j
        by_cases hj : j = n
        · subst hj
          rw [if_neg fun h => hinvalid h.2.2, if_neg fun h => hinvalid h.2.2]
        · exact if_congr (hother j hj) rfl rfl
    · rw [if_neg hmask, Bool.eq_false_iff.2 hmask]
      refine ⟨hindex, ?_⟩
      convert hrep using 2 with j
      by_cases hj : j = n
      · subst hj
        rw [if_neg fun h => hmask h.2.1, if_neg fun h => hmask h.2.1]
      · exact if_congr (hother j hj) rfl rfl

variable {scan : Scan} {size first : ℕ} {f : ℕ → DexRegisterLocation} {s : ℕ}

/-- One stack map fills in the unknown registers that it changes. -/
lemma visit_rep (first : ℕ) (h : scan.Rep size f)
    (hvalid : ∀ reg loc, c.change s reg = some loc → loc.kind ≠ .invalid) :
    (c.visit first s scan).Rep size fun j =>
      if (f j).kind = .invalid then (c.change s (first + j)).getD (f j) else f j := by
  have hsame : (∀ j, c.change s (first + j) = none) →
      (fun j => if (f j).kind = .invalid then (c.change s (first + j)).getD (f j) else f j) = f :=
    fun hnone => funext fun j => by rw [hnone j, Option.getD_none, ite_self]
  rw [visit]
  by_cases hindex : c.stackMaps.get s StackMap.kDexRegisterMaskIndex = kNoValue
  · rwa [if_pos hindex, hsame fun j => by rw [change, if_pos hindex]]
  rw [if_neg hindex]
  set mask := c.dexRegisterMasks.getBitMemoryRegion
    _ with hmask
  have hchange : ∀ reg, c.change s reg = if mask.getD reg false = true then
      some (c.getDexRegisterCatalogEntry (c.dexRegisterMaps.get
        (c.stackMaps.get s StackMap.kDexRegisterMapIndex + (mask.take reg).count true)))
      else none := fun reg => by rw [change, if_neg hindex]
  have hbit : ∀ j, (mask.drop first).getD j false = mask.getD (first + j) false := fun j => by
    rw [getD_eq_getElem?_getD, getElem?_drop, getD_eq_getElem?_getD]
  by_cases hlen : mask.length ≤ first
  · rwa [if_pos hlen, hsame fun j => by
      rw [hchange, getD_eq_default _ _ (by omega), if_neg Bool.false_ne_true]]
  rw [if_neg hlen]
  have hcount : ∀ j, (mask.take (first + j)).count true =
      (mask.take first).count true + ((mask.drop first).take j).count true := fun j => by
    rw [take_add, count_append]
  have hsize : scan.regs.length = size := by rw [h.regs, length_map, length_range]
  have hloop := (updateRegister_foldl (c := c) (mask.drop first)
    (c.stackMaps.get s StackMap.kDexRegisterMapIndex + (mask.take first).count true) h
    (n := min size (mask.drop first).length) (min_le_left ..) fun j hj hbitj => ?_).2
  · rw [hsize]
    refine hloop.congr fun j hj => ?_
    rw [hbit, hchange, hcount, ← add_assoc]
    by_cases hset : mask.getD (first + j) false = true
    · have hlt : j < min size (mask.drop first).length := by
        by_contra hge
        rw [length_drop] at hge
        rw [getD_eq_default _ _ (by omega)] at hset
        cases hset
      rw [if_pos hset, Option.getD_some]
      exact if_congr ⟨fun h => h.2.2, fun h => ⟨hlt, hset, h⟩⟩ rfl rfl
    · rw [if_neg hset, Option.getD_none, ite_self, if_neg fun h => hset h.2.1]
  · rw [hbit] at hbitj
    refine hvalid (first + j) _ ?_
    rw [hchange, if_pos hbitj, hcount, add_assoc]

lemma known_ite_getD {o : Option DexRegisterLocation} (ho : ∀ l, o = some l → l.kind ≠ .invalid) :
    known (if loc.kind = .invalid then o.getD loc else loc) = (known loc).or o := by
  by_cases hloc : loc.kind = .invalid
  · rcases o with _ | l
    · simp [known, hloc]
    · simp [known, hloc, ho l rfl]
  · simp [known, hloc]

/-- The scan finds the latest change of each register that is not known yet. -/
lemma scanBack_rep (h : scan.Rep size f)
    (hvalid : ∀ s < n, ∀ reg loc, c.change s reg = some loc → loc.kind ≠ .invalid) :
    ∃ g, (c.scanBack first n scan).Rep size g ∧
      ∀ j < size, known (g j) = (known (f j)).or (Delta.latest c.change n (first + j)) := by
  induction n generalizing scan f with
  | zero => exact ⟨f, h, fun j _ => by rw [Delta.latest, Option.or_none]⟩
  | succ n ih =>
    rw [scanBack]
    by_cases hdone : scan.remaining = 0
    · refine ⟨f, by rwa [if_pos hdone], fun j hj => ?_⟩
      have hempty := Finset.card_eq_zero.1 (h.remaining.symm.trans hdone)
      have hknown := Finset.filter_eq_empty_iff.1 hempty (Finset.mem_range.2 hj)
      rw [known, if_neg hknown, Option.some_or]
    · rw [if_neg hdone]
      have hv := hvalid n (Nat.lt_succ_self n)
      obtain ⟨g, hg, hfound⟩ := ih (visit_rep first h hv) fun s hs => hvalid s (by omega)
      refine ⟨g, hg, fun j hj => ?_⟩
      rw [hfound j hj, known_ite_getD _ fun l hl => hv _ l hl, Delta.or_latest_succ]

/-- `DecodeDexRegisterMap` finds the latest change of each register of the range. -/
lemma decodeDexRegisterMap_eq (hs : s < 2 ^ 31)
    (hvalid : ∀ s' ≤ s, ∀ reg loc, c.change s' reg = some loc → loc.kind ≠ .invalid) :
    c.decodeDexRegisterMap s first size =
      (List.range size).map fun j => (Delta.latest c.change (s + 1) (first + j)).getD .none := by
  have h0 : (⟨List.replicate size .invalid, size⟩ : Scan).Rep size fun _ => .invalid :=
    ⟨by simp, by simp [DexRegisterLocation.invalid]⟩
  obtain ⟨g, hg, hfound⟩ := scanBack_rep h0 (n := s + 1) fun s' hs' => hvalid s' (by omega)
  have hvalue : ∀ j < size, (Delta.latest c.change (s + 1) (first + j)).getD .none =
      if (g j).kind = .invalid then .none else g j := fun j hj => by
    have hnone : known .invalid = none := rfl
    rw [← Option.none_or (o := Delta.latest c.change (s + 1) (first + j)), ← hnone, ← hfound j hj, known]
    split <;> rfl
  rw [decodeDexRegisterMap, if_pos hs]
  by_cases hdone : (c.scanBack first (s + 1) ⟨List.replicate size .invalid, size⟩).remaining = 0
  · rw [if_pos hdone, hg.regs]
    refine map_congr_left fun j hj => ?_
    have hempty := Finset.card_eq_zero.1 (hg.remaining.symm.trans hdone)
    have hknown := Finset.filter_eq_empty_iff.1 hempty (Finset.mem_range.2 (mem_range.1 hj))
    rw [hvalue j (mem_range.1 hj), if_neg hknown]
  · rw [if_neg hdone, hg.regs, map_map]
    exact map_congr_left fun j hj => (hvalue j (mem_range.1 hj)).symm

end CodeInfo

end Art
