import Art.Verifier.Decode
import Art.Verifier.MergeRuns

/-!
# `fill-array-data`

`MethodVerifier::CheckArrayData` and the rule for `FILL_ARRAY_DATA` of
`runtime/verifier/method_verifier.cc`, and `FillArrayData` of `runtime/entrypoints/entrypoint_utils.cc`.
Sizes are computed in 32 bits throughout, and `FillArrayData` compares the element count with the length
of the array as a signed number.
-/

namespace Art

open BitVec (ofNat toNat_add toNat_ofNat)

def PrimitiveType.componentSize : PrimitiveType → ℕ
  | boolean | byte => 1
  | char | short => 2
  | int | float => 4
  | long | double => 8

lemma PrimitiveType.componentSize_cases (p : PrimitiveType) :
    p.componentSize = 1 ∨ p.componentSize = 2 ∨ p.componentSize = 4 ∨ p.componentSize = 8 := by
  cases p <;> decide

/-- An array of primitives: the length is an `int32_t`. -/
structure PrimitiveArray where
  component : PrimitiveType
  length : ℕ
  length_lt : length < 2 ^ 31

/-- What `FillArrayData` does: it throws, or copies `size` bytes to the start of the data of the array.
    Offsets of bytes are from the start of the instructions. -/
inductive FillResult
  | threw
  | copied (source : ℤ) (size : ℕ)
  deriving DecidableEq

namespace CodeItem

variable (c : CodeItem)

/-! ## The verifier -/

/-- A read of one code unit; the positions that were read are kept. -/
def readUnit (i : ℤ) : StateM (List ℤ) (BitVec 16) := fun reads => (c.insns i, i :: reads)

/-- A read of two code units as a number of 32 bits. -/
def readWord (i : ℤ) : StateM (List ℤ) (BitVec 32) := do
  let lo ← c.readUnit i
  let hi ← c.readUnit (i + 1)
  return lo.setWidth 32 ||| (hi.setWidth 32 <<< 16)

/-- `IsAligned<4>` of the address of a code unit. -/
def isAligned (i : ℤ) : Bool := (c.insnsAddr + 2 * i) % 4 = 0

def checkArrayData (opcodes : List ℕ) (curOffset : BitVec 32) : StateM (List ℤ) Bool := do
  let insnCount := BitVec.ofNat 32 c.insnsSize
  let arrayDataOffset ← c.readWord (curOffset.toNat + 1)
  if (curOffset + arrayDataOffset).toInt < 0 ∨ insnCount ≤ curOffset + arrayDataOffset + 2 then
    return false
  else
    let arrayData := curOffset.toNat + arrayDataOffset.toInt
    if !c.isAligned arrayData then
      return false
    else if !opcodes.contains (curOffset + arrayDataOffset).toNat then
      return false
    else
      let valueWidth ← c.readUnit (arrayData + 1)
      let valueCount ← c.readWord (arrayData + 2)
      return !decide (insnCount < curOffset + arrayDataOffset + arrayDataSize valueWidth valueCount)

variable (pc : ℕ)

/-- The position of the payload that the instruction at `pc` refers to. -/
def payload : ℤ := pc + (c.word (pc + 1)).toInt

def elementWidth : BitVec 16 := c.insns (c.payload pc + 1)

def elementCount : BitVec 32 := c.word (c.payload pc + 2)

variable {N : Type} (cache : RegTypeCache N)

/-- The rule for `FILL_ARRAY_DATA` in `CodeFlowVerifyInstruction`. -/
def verifyFillArrayData (arrayType : RegType N) (pc : ℕ) : Bool :=
  if arrayType.isZeroOrNull then true
  else if !arrayType.isArrayTypes cache then false
  else if arrayType.isUnresolvedTypes then false
  else
    match arrayType with
    | .ref (.array (.primitive p)) _ =>
      decide (c.insns (c.payload pc) = kArrayDataSignature) &&
        decide ((c.elementWidth pc).toNat = p.componentSize)
    -- the component type is a reference
    | _ => false

/-- The instruction at `pc` is a `fill-array-data` of a code item that passes the verifier. -/
structure VerifiedFillArrayData (opcodes : List ℕ) (arrayType : RegType N) (pc : ℕ) : Prop where
  widths : c.computeWidthsAndCountOps = some (true, opcodes)
  mem_opcodes : pc ∈ opcodes
  opcode_eq : c.opcode pc = 0x26
  checked : (c.checkArrayData opcodes (BitVec.ofNat 32 pc) []).1 = true
  flow : c.verifyFillArrayData cache arrayType pc = true

/-! ## The runtime -/

def fillArrayData : Option PrimitiveArray → FillResult
  | none => .threw
  | some array =>
    if (array.length : ℤ) < (c.elementCount pc).toInt then .threw
    else
      .copied (2 * c.payload pc + 8) (c.elementCount pc * (c.elementWidth pc).setWidth 32).toNat

variable (array : PrimitiveArray)

/-- The copy is exactly the one that the payload describes, inside of the payload and of the array. -/
def CopyInBounds : FillResult → Prop
  | .threw => True
  | .copied source size =>
    size = (c.elementCount pc).toNat * (c.elementWidth pc).toNat ∧
      2 * c.payload pc + 8 ≤ source ∧ 0 ≤ source ∧ source + size ≤ 2 * c.insnsSize ∧
      size ≤ array.component.componentSize * array.length

/-! ## What the verifier establishes -/

variable {c} {cache} {opcodes : List ℕ} {pc : ℕ}

lemma checkArrayData_reads (hpc : 2 * pc < 2 ^ 32)
    (h : (c.checkArrayData opcodes (ofNat 32 pc) []).1 = true) :
    0 ≤ (ofNat 32 pc + c.word (pc + 1)).toInt ∧ ofNat 32 pc + c.word (pc + 1) + 2 < ofNat 32 c.insnsSize ∧
      ofNat 32 pc + c.word (pc + 1) + arrayDataSize (c.elementWidth pc) (c.elementCount pc) ≤
        ofNat 32 c.insnsSize ∧ (c.checkArrayData opcodes (ofNat 32 pc) []).2 =
        [c.payload pc + 2 + 1, c.payload pc + 2, c.payload pc + 1, pc + 1 + 1, pc + 1] := by
  have hcur : (ofNat 32 pc).toNat = pc := by
    rw [toNat_ofNat]
    omega
  simp only [checkArrayData, readWord, readUnit, bind, StateT.bind, pure, StateT.pure, hcur] at h ⊢
  split at h
  · cases h
  · rename_i hstart
    rw [if_neg hstart]
    split at h
    · cases h
    · rename_i haligned
      rw [if_neg haligned]
      split at h
      · cases h
      · rename_i hopcode
        rw [if_neg hopcode]
        rw [not_or, Int.not_lt, BitVec.not_le] at hstart
        refine ⟨hstart.1, hstart.2, ?_, rfl⟩
        replace h : (!decide (ofNat 32 c.insnsSize < ofNat 32 pc + c.word (pc + 1) +
          arrayDataSize (c.elementWidth pc) (c.elementCount pc))) = true := h
        simpa only [Bool.not_eq_true', decide_eq_false_iff_not, BitVec.not_lt] using h

lemma arrayDataSize_le (width : BitVec 16) (count : BitVec 32) :
    (arrayDataSize width count).toNat ≤ 2 ^ 31 + 3 := by
  change (4 + (width.setWidth 32 * count + 1).toNat / 2) % 2 ^ 32 ≤ _
  omega

/-- The table is large enough for the data, unless the number of bytes wraps around. -/
lemma mul_le_arrayDataSize {width : BitVec 16} {count : BitVec 32}
    (h : width.toNat * count.toNat + 1 < 2 ^ 32) :
    8 + width.toNat * count.toNat ≤ 2 * (arrayDataSize width count).toNat := by
  have hwidth : (width.setWidth 32).toNat = width.toNat := by
    rw [BitVec.toNat_setWidth]
    exact Nat.mod_eq_of_lt (width.isLt.trans (by decide))
  have hbytes : (width.setWidth 32 * count + 1).toNat = width.toNat * count.toNat + 1 := by
    rw [toNat_add, BitVec.toNat_mul, hwidth, Nat.mod_add_mod]
    exact Nat.mod_eq_of_lt h
  rw [arrayDataSize, toNat_add, BitVec.toNat_udiv, hbytes]
  change _ ≤ 2 * ((4 + (width.toNat * count.toNat + 1) / 2) % 2 ^ 32)
  omega

/-- The table of an accepted instruction is inside the code item. -/
lemma checkArrayData_spec (hpc : pc < c.insnsSize)
    (h : (c.checkArrayData opcodes (ofNat 32 pc) []).1 = true) : 0 ≤ c.payload pc ∧
      c.payload pc + (arrayDataSize (c.elementWidth pc) (c.elementCount pc)).toNat ≤ c.insnsSize := by
  have hsize := c.two_mul_insnsSize_lt
  obtain ⟨hnonneg, hstart, hend, -⟩ := checkArrayData_reads (by omega) h
  have hle := arrayDataSize_le (c.elementWidth pc) (c.elementCount pc)
  rw [payload]
  generalize c.word (pc + 1) = offset at hnonneg hstart hend ⊢
  generalize arrayDataSize _ _ = size at hend hle ⊢
  -- the start of the table as a signed number does not wrap around
  have hsum : (ofNat 32 pc + offset).toNat = (pc + offset.toNat) % 2 ^ 32 := by
    rw [toNat_add, toNat_ofNat, Nat.mod_add_mod]
  rw [BitVec.toInt_eq_toNat_cond, hsum] at hnonneg
  rw [BitVec.lt_def, toNat_add, hsum, toNat_ofNat] at hstart
  rw [BitVec.le_def, toNat_add, hsum, toNat_ofNat] at hend
  change ((pc + offset.toNat) % 2 ^ 32 + 2) % 2 ^ 32 < c.insnsSize % 2 ^ 32 at hstart
  rw [BitVec.toInt_eq_toNat_cond]
  split_ifs at hnonneg ⊢ <;> omega

section

variable {opcodes : List ℕ} {arrayType : RegType N} {pc : ℕ}

/-- All three code units of the instruction are inside the code item. -/
lemma VerifiedFillArrayData.end_le (h : c.VerifiedFillArrayData cache opcodes arrayType pc) :
    pc + 3 ≤ c.insnsSize := by
  obtain ⟨r, hr, hend⟩ := c.computeWidthsAndCountOps_spec
  obtain rfl := Option.some.inj (h.widths.symm.trans hr)
  have hsize : c.sizeInCodeUnits pc = 3 := by
    rw [sizeInCodeUnits, h.opcode_eq, if_neg (by decide)]
    decide
  rw [← hsize]
  exact hend pc h.mem_opcodes

/-- `CheckArrayData` reads only code units of the code item. -/
lemma VerifiedFillArrayData.reads_inBounds (h : c.VerifiedFillArrayData cache opcodes arrayType pc) :
    ∀ i ∈ (c.checkArrayData opcodes (ofNat 32 pc) []).2, 0 ≤ i ∧ i < c.insnsSize := by
  have hpc := h.end_le
  have hsize := c.two_mul_insnsSize_lt
  obtain ⟨hnonneg, hend⟩ := checkArrayData_spec (by omega) h.checked
  obtain ⟨-, -, -, hreads⟩ := checkArrayData_reads (by omega) h.checked
  have hfour := four_le_arrayDataSize (c.elementWidth pc) (c.elementCount pc)
  intro i hi
  rw [hreads] at hi
  simp only [List.mem_cons, List.not_mem_nil, or_false] at hi
  omega

end

/-- The comparison is one of signed numbers, and the number of bytes may wrap around. -/
lemma fillArrayData_some : c.fillArrayData pc (some array) =
      if (c.elementCount pc).toNat < 2 ^ 31 ∧ array.length < (c.elementCount pc).toNat then .threw
      else .copied (2 * c.payload pc + 8)
        ((c.elementCount pc).toNat * (c.elementWidth pc).toNat % 2 ^ 32) := by
  refine if_congr ?_ rfl rfl
  rw [BitVec.toInt_eq_toNat_cond]
  split <;> omega

/-- A copy in bounds has a count that is not negative, and its size does not wrap around. -/
lemma CopyInBounds.count_lt {array : PrimitiveArray}
    (hwidth : array.component.componentSize = (c.elementWidth pc).toNat)
    (h : c.CopyInBounds pc array (c.fillArrayData pc (some array))) :
    (c.elementCount pc).toNat < 2 ^ 31 ∧ ((c.elementCount pc).toNat ≤ array.length →
      (c.elementCount pc).toNat * (c.elementWidth pc).toNat < 2 ^ 32) := by
  have hlt := array.length_lt
  have hpos : 0 < (c.elementWidth pc).toNat := by
    rcases array.component.componentSize_cases with h' | h' | h' | h' <;> omega
  rw [fillArrayData_some] at h
  by_cases hthrow : (c.elementCount pc).toNat < 2 ^ 31 ∧ array.length < (c.elementCount pc).toNat
  · exact ⟨hthrow.1, fun hle => absurd hthrow.2 (not_lt.2 hle)⟩
  · rw [if_neg hthrow] at h
    obtain ⟨hsize, -, -, -, hfits⟩ := h
    rw [hsize, hwidth, mul_comm] at hfits
    have hle := Nat.le_of_mul_le_mul_left hfits hpos
    exact ⟨by omega, fun _ => by rw [← hsize]; exact Nat.mod_lt _ (by decide)⟩

/-- In verified code, `CheckArrayData` reads inside of the code item; and the copy is in bounds if and only
    if the element count is not negative as an `int32_t`, and the size in bytes of a copy that is made
    does not wrap around. -/
theorem fillArrayData_inBounds_iff {opcodes : List ℕ} {arrayType : RegType N} {pc : ℕ}
    (h : c.VerifiedFillArrayData cache opcodes arrayType pc) (array : PrimitiveArray)
    (hwidth : array.component.componentSize = (c.elementWidth pc).toNat) :
    (∀ i ∈ (c.checkArrayData opcodes (BitVec.ofNat 32 pc) []).2, 0 ≤ i ∧ i < c.insnsSize) ∧
      (c.CopyInBounds pc array (c.fillArrayData pc (some array)) ↔
        (c.elementCount pc).toNat < 2 ^ 31 ∧ ((c.elementCount pc).toNat ≤ array.length →
          (c.elementCount pc).toNat * (c.elementWidth pc).toNat < 2 ^ 32)) := by
  refine ⟨h.reads_inBounds, CopyInBounds.count_lt hwidth, fun ⟨hcount, hbytes⟩ => ?_⟩
  have hpc := h.end_le
  obtain ⟨hnonneg, hend⟩ := checkArrayData_spec (by omega) h.checked
  rw [fillArrayData_some]
  by_cases hthrow : (c.elementCount pc).toNat < 2 ^ 31 ∧ array.length < (c.elementCount pc).toNat
  · rw [if_pos hthrow]
    exact trivial
  · have hle : (c.elementCount pc).toNat ≤ array.length := by omega
    specialize hbytes hle
    rw [if_neg hthrow, CopyInBounds, Nat.mod_eq_of_lt hbytes]
    -- rounding up the size does not wrap around either: it would need an odd width other than one
    have hround : (c.elementWidth pc).toNat * (c.elementCount pc).toNat + 1 < 2 ^ 32 := by
      rcases array.component.componentSize_cases with h' | h' | h' | h' <;>
        (rw [h'] at hwidth; rw [← hwidth] at hbytes ⊢; omega)
    have htable := mul_le_arrayDataSize hround
    rw [mul_comm] at htable
    refine ⟨rfl, le_rfl, by omega, by push_cast at htable ⊢; omega, ?_⟩
    rw [hwidth, mul_comm]
    exact Nat.mul_le_mul_left _ hle

/-- A method that makes a `short[]` and fills it from a payload of one code unit of data: `const/4`,
    `new-array`, `fill-array-data` at 3, `return-void`, `nop`, and the payload at 8. -/
def fillShorts (countLo countHi : BitVec 16) : CodeItem where
  insnsAddr := 16
  insns i := if i < 0 then 0 else
    [0x0012, 0x0023, 0x0001, 0x0026, 0x0005, 0x0000, 0x000e, 0x0000,
      0x0300, 0x0002, countLo, countHi, 0x1234].getD i.toNat 0
  insnsSize := 13
  two_mul_insnsSize_lt := by decide

/-- One element is copied to an array of one element. -/
theorem fillArrayData_inBounds_iff_one : let c := fillShorts 1 0
    let cache : RegTypeCache Unit := ⟨RegType.objectOnly, fun _ => false⟩
    let type : RegType Unit := .ref (.array (.primitive .short)) true
    let array : PrimitiveArray := ⟨.short, 1, by decide⟩
    c.VerifiedFillArrayData cache [8, 7, 6, 3, 1, 0] type 3 ∧
      array.component.componentSize = (c.elementWidth 3).toNat ∧
      (∀ i ∈ (c.checkArrayData [8, 7, 6, 3, 1, 0] 3 []).2, 0 ≤ i ∧ i < c.insnsSize) ∧
      (c.CopyInBounds 3 array (c.fillArrayData 3 (some array)) ↔
        (c.elementCount 3).toNat < 2 ^ 31 ∧ ((c.elementCount 3).toNat ≤ array.length →
          (c.elementCount 3).toNat * (c.elementWidth 3).toNat < 2 ^ 32)) := by
  intro c cache type array
  have h : c.VerifiedFillArrayData cache [8, 7, 6, 3, 1, 0] type 3 :=
    ⟨by decide, by decide, by decide, by decide, by decide⟩
  have hwidth : array.component.componentSize = (c.elementWidth 3).toNat := by decide
  exact ⟨h, hwidth, fillArrayData_inBounds_iff h array hwidth⟩

/-- A count of `0x80000001` is negative and its size wraps around to two bytes: these are copied to an
    array without elements. -/
theorem fillArrayData_negative_count : let c := fillShorts 0x0001 0x8000
    let cache : RegTypeCache Unit := ⟨RegType.objectOnly, fun _ => false⟩
    let array : PrimitiveArray := ⟨.short, 0, by decide⟩
    c.VerifiedFillArrayData cache [8, 7, 6, 3, 1, 0] (.ref (.array (.primitive .short)) true) 3 ∧
      array.component.componentSize = (c.elementWidth 3).toNat ∧
      c.fillArrayData 3 (some array) = .copied 24 2 ∧
      ¬c.CopyInBounds 3 array (c.fillArrayData 3 (some array)) := by
  intro c cache array
  have hcopied : c.fillArrayData 3 (some array) = .copied 24 2 := by decide
  refine ⟨⟨by decide, by decide, by decide, by decide, by decide⟩, by decide, hcopied, ?_⟩
  rw [hcopied]
  exact fun h => absurd h.2.2.2.2 (by decide)

end CodeItem

end Art
