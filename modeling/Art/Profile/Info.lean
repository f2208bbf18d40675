import Mathlib.Algebra.Order.Ring.Nat
import Art.Lib.AssocMap

/-!
# Profiles

`ProfileCompilationInfo` of `libprofile/profile/profile_compilation_info.h`: dex files with hot methods
and their inline caches, classes and method flags, and extra descriptors, by which types outside of a
dex file are known. `profile_key_map_` and `extra_descriptors_indexes_` are searches in the lists
that they index.
-/

namespace Art

def kDexNoIndex16 : ℕ := 0xffff

def kIndividualInlineCacheSize : ℕ := 5

/-! ## Inline caches -/

/-- `DexPcData`, with the type indexes of `classes` as a list without duplicates. -/
structure DexPcData where
  isMissingTypes : Bool := false
  isMegamorphic : Bool := false
  classes : List ℕ := []
  nodup : classes.Nodup := by decide
  size : classes.length < kIndividualInlineCacheSize := by decide
  missing : isMissingTypes = true → isMegamorphic = false ∧ classes = [] := by decide
  megamorphic : isMegamorphic = true → classes = [] := by decide

namespace DexPcData

/-- `DexPcData(allocator)`. -/
def new : DexPcData := {}

def addClass (d : DexPcData) (typeIdx : ℕ) : DexPcData :=
  if hflag : d.isMegamorphic || d.isMissingTypes then d
  else if hmem : typeIdx ∈ d.classes then d
  else if hsize : d.classes.length + 1 ≥ kIndividualInlineCacheSize then
    { isMegamorphic := true }
  else
    { d with
      classes := typeIdx :: d.classes
      nodup := List.nodup_cons.mpr ⟨hmem, d.nodup⟩
      size := Nat.lt_of_not_ge hsize
      missing := fun h => absurd (by rw [h, Bool.or_true]) hflag
      megamorphic := fun h => absurd (by rw [h, Bool.true_or]) hflag }

def setIsMegamorphic (d : DexPcData) : DexPcData := if d.isMissingTypes then d else { isMegamorphic := true }

def setIsMissingTypes (_d : DexPcData) : DexPcData := { isMissingTypes := true }

end DexPcData

/-- `InlineCacheMap`: what is known at each dex pc. -/
abbrev InlineCacheMap : Type := AssocMap ℕ DexPcData

/-- `MethodMap`: the inline caches of each hot method. -/
abbrev MethodMap : Type := AssocMap ℕ InlineCacheMap

/-! ## Dex files -/

/-- `DexFileData`. Its `profile_index` is its position in `info_`. -/
structure DexFileData where
  profileKey : String
  checksum : ℕ
  methodMap : MethodMap
  classSet : List ℕ
  numTypeIds : ℕ
  numMethodIds : ℕ
  bitmapStorage : List (BitVec 8)

/-- The number of flags in the bitmap: those up to `kFlagLastBoot` or `kFlagLastRegular`, without
    `kFlagHot`. -/
def numberOfBitmapFlags (forBootImage : Bool) : ℕ := if forBootImage then 15 else 2

def computeBitmapStorage (forBootImage : Bool) (numMethodIds : ℕ) : ℕ :=
  (numMethodIds * numberOfBitmapFlags forBootImage + 7) / 8

namespace DexFileData

/-- The data of a new dex file. -/
def new (profileKey : String) (checksum numTypeIds numMethodIds : ℕ) (forBootImage : Bool) :
    DexFileData where
  profileKey
  checksum
  methodMap := .empty
  classSet := []
  numTypeIds
  numMethodIds
  bitmapStorage := List.replicate (computeBitmapStorage forBootImage numMethodIds) 0

/-- `method_bitmap.LoadBit(MethodFlagBitmapIndex(flag, method_index))`, for the index of the flag. -/
def loadFlag (d : DexFileData) (flagIndex methodIndex : ℕ) : Bool :=
  let bit := methodIndex + flagIndex * d.numMethodIds
  (d.bitmapStorage.getD (bit / 8) 0).getLsbD (bit % 8)

/-- `MergeBitmap(other)`, for bitmaps of one size. -/
def mergeBitmap (d other : DexFileData) : DexFileData :=
  { d with bitmapStorage := List.zipWith (· ||| ·) d.bitmapStorage other.bitmapStorage }

end DexFileData

/-! ## Profiles -/

/-- `ProfileCompilationInfo`. There are two versions, one for boot images. -/
structure ProfileCompilationInfo where
  forBootImage : Bool
  info : List DexFileData
  extraDescriptors : List String

namespace ProfileCompilationInfo

def maxProfileIndex : ℕ := 2 ^ 16 - 1

def kMaxExtraDescriptors : ℕ := kDexNoIndex16

variable (p : ProfileCompilationInfo) (profileKey : String)

def findDexData : Option DexFileData := p.info.find? (·.profileKey = profileKey)

variable (checksum numTypeIds numMethodIds : ℕ)

/-- The index of a dex file, which is added without data if it is new. -/
def findOrAddDexFileData : Option (ProfileCompilationInfo × ℕ) :=
  match p.info.findIdx? (·.profileKey = profileKey) with
  | some profileIndex => some (p, profileIndex)
  | none =>
    if p.info.length = maxProfileIndex then none
    else some ({ p with info := p.info ++
      [.new profileKey checksum numTypeIds numMethodIds p.forBootImage] }, p.info.length)

/-- `GetOrAddDexFileData(profile_key, checksum, num_type_ids, num_method_ids)`: the profile, and the
    index of the dex file. -/
def getOrAddDexFileData : Option (ProfileCompilationInfo × ℕ) := do
  let (p, profileIndex) ← p.findOrAddDexFileData profileKey checksum numTypeIds numMethodIds
  let result ← p.info[profileIndex]?
  if result.checksum ≠ checksum then none
  else if numTypeIds ≠ result.numTypeIds ∨ numMethodIds ≠ result.numMethodIds then none
  else return (p, profileIndex)

/-- The index of an extra descriptor, which is added with `AddExtraDescriptor` if it is new. -/
def getOrAddExtraDescriptor (extraDescriptor : String) : Option (ProfileCompilationInfo × ℕ) :=
  match p.extraDescriptors.findIdx? (· = extraDescriptor) with
  | some index => some (p, index)
  | none =>
    if p.extraDescriptors.length = kMaxExtraDescriptors then none
    else some ({ p with extraDescriptors := p.extraDescriptors ++ [extraDescriptor] },
      p.extraDescriptors.length)

/-! ## Merging -/

variable (extraDescriptorsRemap : List ℕ)

/-- The type index for the one of an extra descriptor of the other profile; the differences are
    taken in `uint32_t`, and a type index is a `uint16_t`. -/
def remapExtra (numTypeIds typeIdx : ℕ) : Option ℕ := do
  let newExtraDescriptorIndex ← extraDescriptorsRemap[(typeIdx + 2 ^ 32 - numTypeIds) % 2 ^ 32]?
  if newExtraDescriptorIndex ≥ (kDexNoIndex16 + 2 ^ 32 - numTypeIds) % 2 ^ 32 then none
  else return (numTypeIds + newExtraDescriptorIndex) % 2 ^ 16

/-- The classes of another dex file are merged; those from `lower_bound(TypeIndex(num_type_ids))` on
    are known by extra descriptors. -/
def mergeClasses (numTypeIds : ℕ) (classSet other : List ℕ) : Option (List ℕ) :=
  other.foldlM (fun classSet typeIdx =>
    if typeIdx < numTypeIds % 2 ^ 16 then some (classSet.insert typeIdx)
    else (remapExtra extraDescriptorsRemap numTypeIds typeIdx).map classSet.insert) classSet

/-- The state of an inline cache at one dex pc is merged. -/
def mergeDexPc (numTypeIds : ℕ) (d other : DexPcData) : Option DexPcData :=
  if other.isMissingTypes then some d.setIsMissingTypes
  else if other.isMegamorphic then some d.setIsMegamorphic
  else other.classes.foldlM (fun d typeIdx =>
    if typeIdx ≥ numTypeIds then
      (remapExtra extraDescriptorsRemap numTypeIds typeIdx).map d.addClass
    else some (d.addClass typeIdx)) d

/-- The methods and the inline caches of another dex file are merged. -/
def mergeMethods (numTypeIds numMethodIds : ℕ) (methodMap other : MethodMap) : Option MethodMap :=
  methodMap.merge (fun inlineCache methodIndex otherInlineCache =>
    -- `FindOrAddHotMethod`
    if methodIndex ≥ numMethodIds then none
    else (inlineCache.getD .empty).merge (fun d _ otherData =>
      mergeDexPc extraDescriptorsRemap numTypeIds (d.getD {}) otherData) otherInlineCache) other

/-- The data of another dex file with the same key are merged. -/
def mergeDexFileData (mergeClassSet : Bool) (dexData other : DexFileData) : Option DexFileData := do
  let classSet ←
    if mergeClassSet then
      mergeClasses extraDescriptorsRemap dexData.numTypeIds dexData.classSet other.classSet
    else some dexData.classSet
  let methodMap ← mergeMethods extraDescriptorsRemap dexData.numTypeIds dexData.numMethodIds
    dexData.methodMap other.methodMap
  return { dexData with classSet, methodMap }.mergeBitmap other

/-- `MergeWith(other, merge_classes)`: the profile, if it returns true. -/
def mergeWith (p other : ProfileCompilationInfo) (mergeClassSet : Bool := true) :
    Option ProfileCompilationInfo := do
  if p.forBootImage ≠ other.forBootImage then none
  else if other.info.any (fun otherDexData =>
      (p.findDexData otherDexData.profileKey).any (·.checksum ≠ otherDexData.checksum)) then none
  else
    let (p, dexProfileIndexRemap) ← other.info.foldlM (fun (p, remap) otherDexData => do
      let (p, profileIndex) ← p.getOrAddDexFileData otherDexData.profileKey otherDexData.checksum
        otherDexData.numTypeIds otherDexData.numMethodIds
      return (p, remap ++ [profileIndex])) (p, [])
    let (p, extraDescriptorsRemap) ← other.extraDescriptors.foldlM (fun (p, remap) descriptor => do
      let (p, index) ← p.getOrAddExtraDescriptor descriptor
      return (p, remap ++ [index])) (p, [])
    (other.info.zip dexProfileIndexRemap).foldlM (fun p (otherDexData, profileIndex) => do
      let dexData ← p.info[profileIndex]?
      let dexData ← mergeDexFileData extraDescriptorsRemap mergeClassSet dexData otherDexData
      return { p with info := p.info.set profileIndex dexData }) p

end ProfileCompilationInfo

end Art
