import Art.Lib.Capped
import Art.Profile.Info

/-!
# The content of a profile

What a profile says, whatever the numbering of its dex files and of its extra descriptors: types are
known by name, and the states of the inline caches are ordered from sets of classes over megamorphic
caches to those with missing types. Contents have joins.
-/

namespace Art

/-! ## Types by name -/

/-- A type of a dex file, or one known by an extra descriptor. -/
inductive TypeName
  | type (index : ℕ)
  | extra (descriptor : String)
  deriving DecidableEq

/-- The name of a type index. -/
def typeName (numTypeIds : ℕ) (extraDescriptors : List String) (typeIdx : ℕ) : TypeName :=
  if typeIdx < numTypeIds then .type typeIdx
  else .extra (extraDescriptors.getD (typeIdx - numTypeIds) "")

/-- A type index is one of the dex file or of an extra descriptor. -/
structure IsTypeIndex (numTypeIds : ℕ) (extraDescriptors : List String) (typeIdx : ℕ) : Prop where
  lt_pow : typeIdx < 2 ^ 16
  lt_add : typeIdx < numTypeIds + extraDescriptors.length

namespace IsTypeIndex

variable {numTypeIds typeIdx : ℕ} {extraDescriptors : List String}

lemma mono (h : IsTypeIndex numTypeIds extraDescriptors typeIdx) (l : List String) :
    IsTypeIndex numTypeIds (extraDescriptors ++ l) typeIdx :=
  ⟨h.lt_pow, h.lt_add.trans_le (by rw [List.length_append]; omega)⟩

/-- New extra descriptors rename no type. -/
lemma typeName_append (h : IsTypeIndex numTypeIds extraDescriptors typeIdx) (l : List String) :
    typeName numTypeIds (extraDescriptors ++ l) typeIdx = typeName numTypeIds extraDescriptors typeIdx := by
  unfold typeName
  split_ifs with hlt
  · rfl
  · rw [List.getD_append _ _ _ _ (by have := h.lt_add; omega)]

end IsTypeIndex

/-- Two type indexes with one name are one. -/
lemma typeName_injOn {numTypeIds : ℕ} {extraDescriptors : List String} (hnodup : extraDescriptors.Nodup) :
    Set.InjOn (typeName numTypeIds extraDescriptors) {t | IsTypeIndex numTypeIds extraDescriptors t} := by
  intro t ht u hu h
  have ht := IsTypeIndex.lt_add ht
  have hu := IsTypeIndex.lt_add hu
  unfold typeName at h
  split_ifs at h with h1 h2 h2
  · exact TypeName.type.inj h
  · have hlt : t - numTypeIds < extraDescriptors.length := by omega
    have hlu : u - numTypeIds < extraDescriptors.length := by omega
    have hget := TypeName.extra.inj h
    rw [List.getD_eq_getElem _ _ hlt, List.getD_eq_getElem _ _ hlu] at hget
    have := (hnodup.getElem_inj_iff).1 hget
    omega

/-! ## Inline caches -/

/-- The state of an inline cache: a set of classes, or megamorphic (`full`), or missing types (`⊤`). -/
abbrev CacheState : Type := WithTop (Capped TypeName kIndividualInlineCacheSize)

namespace CacheState

/-- A megamorphic cache. -/
def megamorphic : CacheState := WithTop.some Capped.full

/-- A cache with some classes, megamorphic if they are too many. -/
def classes (s : Finset TypeName) : CacheState := WithTop.some (Capped.ofFinset s)

lemma classes_union (s t : Finset TypeName) : classes (s ∪ t) = classes s ⊔ classes t := by
  rw [classes, Capped.ofFinset_union, WithTop.coe_sup, classes, classes]

lemma megamorphic_sup_classes (s : Finset TypeName) : megamorphic ⊔ classes s = megamorphic := by
  rw [classes, megamorphic, ← WithTop.coe_sup, Capped.full_sup]

end CacheState

namespace DexPcData

variable (name : ℕ → TypeName)

/-- What an inline cache says. -/
def content (d : DexPcData) : CacheState :=
  if d.isMissingTypes then ⊤
  else if d.isMegamorphic then CacheState.megamorphic
  else CacheState.classes (d.classes.toFinset.image name)

variable {name} {d : DexPcData}

lemma content_of_missing (h : d.isMissingTypes = true) : d.content name = ⊤ := by
  rw [content, if_pos h]

lemma content_of_megamorphic (hmissing : ¬d.isMissingTypes = true) (h : d.isMegamorphic = true) :
    d.content name = CacheState.megamorphic := by
  rw [content, if_neg hmissing, if_pos h]

lemma content_of_classes (hmissing : ¬d.isMissingTypes = true) (hmega : ¬d.isMegamorphic = true) :
    d.content name = CacheState.classes (d.classes.toFinset.image name) := by
  rw [content, if_neg hmissing, if_neg hmega]

variable {t : ℕ}

/-- Adding a class joins it. -/
lemma content_addClass {s : Set ℕ} (hinj : Set.InjOn name s) (hd : ∀ t ∈ d.classes, t ∈ s)
    (ht : t ∈ s) : (d.addClass t).content name = d.content name ⊔ CacheState.classes {name t} := by
  by_cases hmissing : d.isMissingTypes = true
  · have hadd : d.addClass t = d := by simp [addClass, hmissing]
    rw [hadd, content_of_missing hmissing, top_sup_eq]
  by_cases hmega : d.isMegamorphic = true
  · have hadd : d.addClass t = d := by simp [addClass, hmega]
    rw [hadd, content_of_megamorphic hmissing hmega, CacheState.megamorphic_sup_classes]
  have hjoin : d.content name ⊔ CacheState.classes {name t} =
      CacheState.classes (insert (name t) (d.classes.toFinset.image name)) := by
    rw [content_of_classes hmissing hmega, Finset.insert_eq, Finset.union_comm, CacheState.classes_union]
  rw [hjoin]
  by_cases hmem : t ∈ d.classes
  · have : name t ∈ d.classes.toFinset.image name := Finset.mem_image_of_mem _ (List.mem_toFinset.2 hmem)
    simp [addClass, content, hmissing, hmega, hmem, Finset.insert_eq_of_mem this]
  -- the class is new, and so is its name
  have hnew : name t ∉ d.classes.toFinset.image name := by
    intro h
    obtain ⟨u, hu, hname⟩ := Finset.mem_image.1 h
    have hu := List.mem_toFinset.1 hu
    exact hmem (hinj (hd u hu) ht hname ▸ hu)
  have hcard : (insert (name t) (d.classes.toFinset.image name)).card = d.classes.length + 1 := by
    rw [Finset.card_insert_of_notMem hnew, Finset.card_image_of_injOn, List.toFinset_card_of_nodup d.nodup]
    exact hinj.mono fun u hu => hd u (List.mem_toFinset.1 hu)
  by_cases hsize : d.classes.length + 1 ≥ kIndividualInlineCacheSize
  · rw [CacheState.classes, Capped.ofFinset_of_le (hcard ▸ hsize)]
    simp [addClass, content, hmissing, hmega, hmem, hsize, CacheState.megamorphic]
  · simp [addClass, content, hmissing, hmega, hmem, hsize]

lemma mem_classes_addClass {u : ℕ} (h : u ∈ (d.addClass t).classes) : u = t ∨ u ∈ d.classes := by
  unfold addClass at h
  split_ifs at h
  · exact .inr h
  · exact .inr h
  · cases h
  · exact List.mem_cons.1 h

lemma content_setIsMegamorphic (d : DexPcData) : d.setIsMegamorphic.content name =
    d.content name ⊔ CacheState.megamorphic := by
  unfold setIsMegamorphic
  split_ifs with hmissing
  · rw [content_of_missing hmissing, top_sup_eq]
  · rw [content_of_megamorphic Bool.false_ne_true rfl]
    by_cases hmega : d.isMegamorphic = true
    · rw [content_of_megamorphic hmissing hmega, sup_idem]
    · rw [content_of_classes hmissing hmega, sup_comm, CacheState.megamorphic_sup_classes]

end DexPcData

/-! ## Dex files and profiles -/

/-- What a profile says about a dex file: flags of methods, classes, and the caches of hot methods. -/
abbrev DexContent : Type := Set (ℕ × ℕ) × Set TypeName × (ℕ → WithBot (ℕ → WithBot CacheState))

/-- What the inline caches of a method say. -/
def InlineCacheMap.content (name : ℕ → TypeName) (m : InlineCacheMap) : ℕ → WithBot CacheState :=
  m.denote (DexPcData.content name)

/-- What the hot methods say. -/
def MethodMap.content (name : ℕ → TypeName) (m : MethodMap) : ℕ → WithBot (ℕ → WithBot CacheState) :=
  m.denote (InlineCacheMap.content name)

namespace DexFileData

/-- The flags of methods that are set. -/
def flags (forBootImage : Bool) (d : DexFileData) : Set (ℕ × ℕ) :=
  {x | x.1 < numberOfBitmapFlags forBootImage ∧ x.2 < d.numMethodIds ∧ d.loadFlag x.1 x.2}

/-- What a profile says about a dex file. -/
def content (forBootImage : Bool) (extraDescriptors : List String) (d : DexFileData) : DexContent :=
  (d.flags forBootImage, {n | ∃ t ∈ d.classSet, typeName d.numTypeIds extraDescriptors t = n},
    d.methodMap.content (typeName d.numTypeIds extraDescriptors))

/-- The checksum and the counts of ids. -/
def header (d : DexFileData) : ℕ × ℕ × ℕ := (d.checksum, d.numTypeIds, d.numMethodIds)

/-- The indexes of the data of a dex file are in bounds. -/
structure IsValid (forBootImage : Bool) (extraDescriptors : List String) (d : DexFileData) : Prop where
  numTypeIds_lt : d.numTypeIds < 2 ^ 32
  length_bitmapStorage : d.bitmapStorage.length = computeBitmapStorage forBootImage d.numMethodIds
  classSet : ∀ t ∈ d.classSet, IsTypeIndex d.numTypeIds extraDescriptors t
  methodMap : d.methodMap.Forall (AssocMap.Forall fun c =>
    ∀ t ∈ c.classes, IsTypeIndex d.numTypeIds extraDescriptors t)

end DexFileData

namespace ProfileCompilationInfo

/-- What a profile says about its dex files. -/
def content (p : ProfileCompilationInfo) (profileKey : String) : WithBot DexContent :=
  AssocMap.lift (DexFileData.content p.forBootImage p.extraDescriptors) (p.findDexData profileKey)

/-- The checksums and the counts of ids of the dex files of a profile. -/
def header (p : ProfileCompilationInfo) (profileKey : String) : Option (ℕ × ℕ × ℕ) :=
  (p.findDexData profileKey).map DexFileData.header

/-- Keys and extra descriptors are unique, and indexes are in bounds. -/
structure IsValid (p : ProfileCompilationInfo) : Prop where
  keys : (p.info.map (·.profileKey)).Nodup
  extraDescriptors : p.extraDescriptors.Nodup
  length_extraDescriptors : p.extraDescriptors.length ≤ kMaxExtraDescriptors
  info : ∀ d ∈ p.info, d.IsValid p.forBootImage p.extraDescriptors

end ProfileCompilationInfo

/-! ## New extra descriptors -/

section

variable {extraDescriptors : List String} (l : List String)

lemma DexPcData.content_congr {d : DexPcData} {f g : ℕ → TypeName} (h : ∀ t ∈ d.classes, f t = g t) :
    d.content f = d.content g := by
  have : d.classes.toFinset.image f = d.classes.toFinset.image g :=
    Finset.image_congr fun t ht => h t (List.mem_toFinset.1 ht)
  rw [DexPcData.content, DexPcData.content, this]

variable {forBootImage : Bool} {d : DexFileData}

lemma DexFileData.IsValid.append (h : d.IsValid forBootImage extraDescriptors) :
    d.IsValid forBootImage (extraDescriptors ++ l) where
  numTypeIds_lt := h.numTypeIds_lt
  length_bitmapStorage := h.length_bitmapStorage
  classSet t ht := (h.classSet t ht).mono l
  methodMap m c hm pc e he t ht := (h.methodMap m c hm pc e he t ht).mono l

/-- New extra descriptors change no content. -/
lemma DexFileData.IsValid.content_append (h : d.IsValid forBootImage extraDescriptors) :
    d.content forBootImage (extraDescriptors ++ l) = d.content forBootImage extraDescriptors := by
  refine Prod.ext rfl (Prod.ext ?_ ?_)
  · ext n
    refine exists_congr fun t => and_congr_right fun ht => ?_
    rw [(h.classSet t ht).typeName_append]
  · exact AssocMap.denote_congr h.methodMap fun c hc => AssocMap.denote_congr hc fun e he =>
      DexPcData.content_congr fun t ht => (he t ht).typeName_append l

end

end Art
