import Mathlib.Algebra.Order.Ring.Nat

/-!
# The size limit of `LoadInternal`

`ProfileCompilationInfo::LoadInternal` of `libprofile/profile/profile_compilation_info.cc`, up to the
sections: the header is checked, the table of the sections is read, and the memory that the sections take is
added up in 32 bits. `loadInternal_withinLimit` says that neither the table is read nor the sections are
processed if the sizes, as unbounded numbers, are above the limit.
-/

namespace Art

inductive ProfileLoadStatus
  | success | ioError | badMagic | versionMismatch | badData | mergeError

/-- `FileSectionInfo`, without the type and the offset. -/
structure FileSectionInfo where
  fileSize : ℕ
  inflatedSize : ℕ

def FileSectionInfo.getMemSize (info : FileSectionInfo) : ℕ :=
  if info.inflatedSize ≠ 0 then info.inflatedSize else info.fileSize

def sizeofFileSectionInfo : ℕ := 16

def sizeofFileHeader : ℕ := 12

def kMaxFileSectionCount : ℕ := (2 ^ 32 - 1 - sizeofFileHeader) / sizeofFileSectionInfo

def kProfileMagic : List UInt8 := [112, 114, 111, 0]

def kProfileVersion : List UInt8 := [48, 49, 53, 0]

def kProfileVersionForBootImage : List UInt8 := [48, 49, 54, 0]

structure FileHeader where
  magic : List UInt8
  version : List UInt8
  fileSectionCount : ℕ

def FileHeader.isValid (h : FileHeader) : Bool :=
  h.magic = kProfileMagic && (h.version = kProfileVersion || h.version = kProfileVersionForBootImage) &&
    h.fileSectionCount ≠ 0 && h.fileSectionCount ≤ kMaxFileSectionCount

/-- `InvalidHeaderMessage(error_msg)`. The version of an app profile is compared twice. -/
def FileHeader.invalidHeaderMessage (h : FileHeader) : ProfileLoadStatus × String :=
  if h.magic ≠ kProfileMagic then (.badMagic, "Profile missing magic.")
  else if h.version ≠ kProfileVersion ∧ h.version ≠ kProfileVersion then
    (.versionMismatch, "Profile version mismatch.")
  else if h.fileSectionCount = 0 then (.badData, "Missing mandatory dex files section.")
  else (.badData, "Too many sections.")

/-- `version_`. -/
def profileVersion (isForBootImage : Bool) : List UInt8 :=
  if isForBootImage then kProfileVersionForBootImage else kProfileVersion

def getSizeErrorThresholdBytes (isForBootImage : Bool) : ℕ := if isForBootImage then 100000000 else 1500000

/-- `ProfileSource`: what `Read` finds at the header and, for a number of sections, after it. -/
structure ProfileSource where
  hasEmptyContent : Bool
  header : Except (ProfileLoadStatus × String) FileHeader
  sectionInfos : ℕ → Except (ProfileLoadStatus × String) (List FileSectionInfo)
  length_sectionInfos : ∀ count infos, sectionInfos count = .ok infos → infos.length = count

/-- The table of the sections is read, or the sections are processed. -/
inductive LoadStep
  | readSectionInfos (sectionCount : ℕ)
  | processSections (sectionInfos : List FileSectionInfo)

/-- The loop that finishes the size calculation, in a `uint32_t`. -/
def addMemSizes (uncompressedDataSize : ℕ) : List FileSectionInfo → Option ℕ
  | [] => some uncompressedDataSize
  | info :: rest =>
    if info.getMemSize > 2 ^ 32 - 1 - uncompressedDataSize then none
    else addMemSizes ((uncompressedDataSize + info.getMemSize) % 2 ^ 32) rest

section

variable (source : ProfileSource) (isForBootImage : Bool)
  (processSections : List FileSectionInfo → ProfileLoadStatus × String)

/-- `LoadInternal` after the header, with the steps that are taken. -/
def loadSections (sectionCount : ℕ) : (ProfileLoadStatus × String) × List LoadStep :=
  let uncompressedDataSize := (sizeofFileHeader + sectionCount * sizeofFileSectionInfo) % 2 ^ 32
  if uncompressedDataSize > getSizeErrorThresholdBytes isForBootImage then ((.badData, ""), [])
  else
    match source.sectionInfos sectionCount with
    | .error e => (e, [.readSectionInfos sectionCount])
    | .ok infos =>
      match addMemSizes uncompressedDataSize infos with
      | none => ((.badData, "Total memory size overflow."), [.readSectionInfos sectionCount])
      | some size =>
        if size > getSizeErrorThresholdBytes isForBootImage then
          ((.badData, ""), [.readSectionInfos sectionCount])
        else (processSections infos, [.readSectionInfos sectionCount, .processSections infos])

def loadInternal : (ProfileLoadStatus × String) × List LoadStep :=
  if source.hasEmptyContent then ((.success, ""), [])
  else
    match source.header with
    | .error e => (e, [])
    | .ok header =>
      if !header.isValid then (header.invalidHeaderMessage, [])
      else if header.version ≠ profileVersion isForBootImage then
        ((.versionMismatch, if isForBootImage then "Expected boot profile, got app profile."
          else "Expected app profile, got boot profile."), [])
      else loadSections source isForBootImage processSections header.fileSectionCount

/-! ## The limit -/

/-- The sizes that a step depends on, as unbounded numbers, are within the limit. -/
def LoadStep.WithinLimit : LoadStep → Prop
  | .readSectionInfos sectionCount =>
    sizeofFileHeader + sectionCount * sizeofFileSectionInfo ≤ getSizeErrorThresholdBytes isForBootImage
  | .processSections infos => sizeofFileHeader + infos.length * sizeofFileSectionInfo +
      (infos.map (·.getMemSize)).sum ≤ getSizeErrorThresholdBytes isForBootImage

/-- The addition in 32 bits is exact: what would overflow is refused. -/
lemma addMemSizes_eq {infos : List FileSectionInfo} {size total : ℕ} (hsize : size < 2 ^ 32)
    (h : addMemSizes size infos = some total) : total = size + (infos.map (·.getMemSize)).sum := by
  induction infos generalizing size with
  | nil => exact (Option.some.inj h).symm
  | cons info rest ih =>
    rw [addMemSizes] at h
    split at h
    next => cases h
    next hfits =>
      rw [Nat.mod_eq_of_lt (by omega)] at h
      rw [ih (by omega) h, List.map_cons, List.sum_cons, add_assoc]

lemma loadSections_withinLimit {sectionCount : ℕ} (hcount : sectionCount ≤ kMaxFileSectionCount) :
    ∀ step ∈ (loadSections source isForBootImage processSections sectionCount).2,
      LoadStep.WithinLimit isForBootImage step := by
  -- the bound on the number of sections keeps the first size from overflowing
  have hlt : sizeofFileHeader + sectionCount * sizeofFileSectionInfo < 2 ^ 32 := by
    unfold kMaxFileSectionCount sizeofFileHeader sizeofFileSectionInfo at *
    omega
  simp only [loadSections, Nat.mod_eq_of_lt hlt]
  split
  next => simp
  next hle =>
    have hread : LoadStep.WithinLimit isForBootImage (.readSectionInfos sectionCount) :=
      Nat.le_of_not_gt hle
    split
    next => simpa using hread
    next infos hinfos =>
      split
      next => simpa using hread
      next size hsize =>
        split
        next => simpa using hread
        next hle' =>
          have hprocess : LoadStep.WithinLimit isForBootImage (.processSections infos) := by
            rw [LoadStep.WithinLimit, source.length_sectionInfos _ _ hinfos, ← addMemSizes_eq hlt hsize]
            exact Nat.le_of_not_gt hle'
          simpa using ⟨hread, hprocess⟩

/-- Whatever the file has, the table of the sections is read only if the header and the table are within the
    limit, and sections are processed only if the memory of all sections is as well. -/
theorem loadInternal_withinLimit : ∀ step ∈ (loadInternal source isForBootImage processSections).2,
    LoadStep.WithinLimit isForBootImage step := by
  unfold loadInternal
  split
  next => simp
  next =>
    split
    next => simp
    next header _ =>
      split
      next => simp
      next hvalid =>
        split
        next => simp
        next =>
          rw [Bool.not_eq_true', Bool.not_eq_false, FileHeader.isValid, Bool.and_eq_true] at hvalid
          exact loadSections_withinLimit _ _ _ (of_decide_eq_true hvalid.2)

end

/-- A section of 100 bytes is processed. -/
theorem loadInternal_withinLimit_section : LoadStep.WithinLimit false (.processSections [⟨100, 0⟩]) :=
  loadInternal_withinLimit ⟨false, .ok ⟨kProfileMagic, kProfileVersion, 1⟩,
    fun count => .ok (.replicate count ⟨100, 0⟩), by rintro count _ ⟨⟩; simp⟩ false
    (fun _ => (.success, "")) _ (List.mem_cons_of_mem _ List.mem_cons_self)

end Art
