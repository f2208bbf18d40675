import Art.Profile.Content

/-!
# Merging the data of dex files

Merging the classes, the inline caches and the bitmaps of two dex files joins their contents, if the
remapping of extra descriptors finds each descriptor of the other profile.
-/

namespace Art

open List DexFileData DexPcData
open Option (bind_eq_some_iff some)
namespace ProfileCompilationInfo

/-! ## Remapping types -/

/-- The remapping finds each extra descriptor of the other profile. -/
structure Remaps (extraDescriptorsRemap : List ℕ) (other extraDescriptors : List String) : Prop where
  length : extraDescriptorsRemap.length = other.length
  exists_index : ∀ (i : ℕ) (s : String), other[i]? = some s →
    ∃ j, extraDescriptorsRemap[i]? = some j ∧ extraDescriptors[j]? = some s

/-- A type index has the name of one of the other profile. -/
structure Renames (numTypeIds : ℕ) (other extraDescriptors : List String) (t t' : ℕ) : Prop where
  isTypeIndex : IsTypeIndex numTypeIds extraDescriptors t'
  typeName_eq : typeName numTypeIds extraDescriptors t' = typeName numTypeIds other t

section

variable {remap : List ℕ} {other extra : List String} {numTypeIds : ℕ} (hnum : numTypeIds < 2 ^ 32)
  (hother : other.length ≤ kMaxExtraDescriptors) (hremap : Remaps remap other extra)

include hnum hother hremap

lemma remapExtra_renames {t t' : ℕ} (ht : IsTypeIndex numTypeIds other t)
    (hle : numTypeIds % 2 ^ 16 ≤ t) (h : remapExtra remap numTypeIds t = some t') :
    Renames numTypeIds other extra t t' := by
  have hpow := ht.lt_pow
  have hmax : kMaxExtraDescriptors = 65535 := rfl
  obtain ⟨j, hj, h⟩ := bind_eq_some_iff.1 h
  split_ifs at h with hge
  cases h
  have hlen := (List.getElem?_eq_some_iff.1 hj).1
  rw [hremap.length] at hlen
  -- with more types than type indexes the difference would be out of bounds
  have hindex : (t + 2 ^ 32 - numTypeIds) % 2 ^ 32 = t - numTypeIds := by omega
  rw [hindex] at hj hlen
  obtain ⟨j', hj', hextra⟩ := hremap.exists_index _ _ (getElem?_eq_getElem hlen)
  obtain rfl := some.inj (hj.symm.trans hj')
  have hjlen := (List.getElem?_eq_some_iff.1 hextra).1
  have hno : kDexNoIndex16 = 65535 := rfl
  have hmod : (numTypeIds + j) % 2 ^ 16 = numTypeIds + j := by omega
  rw [hmod]
  refine ⟨⟨by omega, by omega⟩, ?_⟩
  rw [typeName, if_neg (by omega), typeName, if_neg (by omega), Nat.add_sub_cancel_left,
    getD_eq_getElem _ _ hjlen, getD_eq_getElem _ _ hlen]
  exact congrArg _ (List.getElem?_eq_some_iff.1 hextra).2

omit hnum hother hremap in
lemma renames_of_lt {t : ℕ} (ht : IsTypeIndex numTypeIds other t) (hlt : t < numTypeIds) :
    Renames numTypeIds other extra t t :=
  ⟨⟨ht.lt_pow, hlt.trans_le (Nat.le_add_right _ _)⟩, by rw [typeName, if_pos hlt, typeName, if_pos hlt]⟩

/-- Classes are merged by name. -/
lemma mergeClasses_spec {classSet classSet' otherSet : List ℕ}
    (hclass : ∀ t ∈ classSet, IsTypeIndex numTypeIds extra t)
    (hset : ∀ t ∈ otherSet, IsTypeIndex numTypeIds other t)
    (h : mergeClasses remap numTypeIds classSet otherSet = some classSet') :
    (∀ t ∈ classSet', IsTypeIndex numTypeIds extra t) ∧
      {n | ∃ t ∈ classSet', typeName numTypeIds extra t = n} =
        {n | ∃ t ∈ classSet, typeName numTypeIds extra t = n} ∪
          {n | ∃ t ∈ otherSet, typeName numTypeIds other t = n} := by
  induction otherSet generalizing classSet with
  | nil =>
    cases h
    exact ⟨hclass, by simp⟩
  | cons t otherSet ih =>
    rw [mergeClasses, foldlM_cons] at h
    obtain ⟨next, hnext, h⟩ := bind_eq_some_iff.1 h
    obtain ⟨t', hren, rfl⟩ : ∃ t', Renames numTypeIds other extra t t' ∧ classSet.insert t' = next := by
      split_ifs at hnext with hlt
      · refine ⟨t, renames_of_lt (hset t mem_cons_self) (hlt.trans_le (Nat.mod_le _ _)), ?_⟩
        exact some.inj hnext
      · obtain ⟨t', ht', hins⟩ := Option.map_eq_some_iff.1 hnext
        exact ⟨t', remapExtra_renames hnum hother hremap (hset t mem_cons_self) (not_lt.1 hlt) ht', hins⟩
    obtain ⟨hvalid, hnames⟩ := ih
      (fun u hu => (mem_insert_iff.1 hu).elim (fun h => h ▸ hren.isTypeIndex) (hclass u))
      (fun u hu => hset u (mem_cons_of_mem t hu)) h
    refine ⟨hvalid, hnames.trans ?_⟩
    ext n
    simp only [Set.mem_union, Set.mem_ofPred_eq, mem_insert_iff, mem_cons, or_and_right,
      exists_or, exists_eq_left, hren.typeName_eq]
    rw [or_assoc, or_left_comm]

/-- The states of inline caches are joined. -/
lemma mergeDexPc_spec (hnodup : extra.Nodup) {d d' otherData : DexPcData}
    (hd : ∀ t ∈ d.classes, IsTypeIndex numTypeIds extra t)
    (hdata : ∀ t ∈ otherData.classes, IsTypeIndex numTypeIds other t)
    (h : mergeDexPc remap numTypeIds d otherData = some d') :
    (∀ t ∈ d'.classes, IsTypeIndex numTypeIds extra t) ∧ d'.content (typeName numTypeIds extra) =
        d.content (typeName numTypeIds extra) ⊔ otherData.content (typeName numTypeIds other) := by
  unfold mergeDexPc at h
  split_ifs at h with hmissing hmega
  · cases h
    refine ⟨nofun, ?_⟩
    rw [content_of_missing hmissing, content_of_missing rfl, sup_top_eq]
  · cases h
    refine ⟨fun t ht => ?_, ?_⟩
    · unfold setIsMegamorphic at ht
      split_ifs at ht
      · exact hd t ht
      · exact absurd ht not_mem_nil
    · rw [content_setIsMegamorphic, content_of_megamorphic hmissing hmega]
  · rw [content_of_classes hmissing hmega]
    -- the classes that were added so far are joined
    generalize otherData.classes = l at h hdata
    induction l generalizing d with
    | nil =>
      cases h
      refine ⟨hd, ?_⟩
      rw [sup_comm]
      exact (Capped.coe_ofFinset_empty_sup _).symm
    | cons t l ih =>
      rw [foldlM_cons] at h
      obtain ⟨next, hnext, h⟩ := bind_eq_some_iff.1 h
      obtain ⟨t', hren, rfl⟩ : ∃ t', Renames numTypeIds other extra t t' ∧ d.addClass t' = next := by
        split_ifs at hnext with hle
        · obtain ⟨t', ht', hins⟩ := Option.map_eq_some_iff.1 hnext
          exact ⟨t', remapExtra_renames hnum hother hremap (hdata t mem_cons_self)
            ((Nat.mod_le _ _).trans hle) ht', hins⟩
        · exact ⟨t, renames_of_lt (hdata t mem_cons_self) (not_le.1 hle), some.inj hnext⟩
      obtain ⟨hvalid, hjoin⟩ := ih
        (fun u hu => (mem_classes_addClass hu).elim (fun h => h ▸ hren.isTypeIndex) (hd u))
        h (fun u hu => hdata u (mem_cons_of_mem t hu))
      refine ⟨hvalid, hjoin.trans ?_⟩
      rw [content_addClass (typeName_injOn hnodup) hd hren.isTypeIndex, sup_assoc,
        hren.typeName_eq, ← CacheState.classes_union, toFinset_cons, Finset.image_insert, Finset.insert_eq]

/-- The inline caches of hot methods are joined. -/
lemma mergeMethods_spec (hnodup : extra.Nodup) {numMethodIds : ℕ}
    {methodMap methodMap' otherMap : MethodMap}
    (hmap : methodMap.Forall (AssocMap.Forall fun c => ∀ t ∈ c.classes, IsTypeIndex numTypeIds extra t))
    (hotherMap : otherMap.Forall (AssocMap.Forall fun c => ∀ t ∈ c.classes, IsTypeIndex numTypeIds other t))
    (h : mergeMethods remap numTypeIds numMethodIds methodMap otherMap = some methodMap') :
    methodMap'.Forall (AssocMap.Forall fun c => ∀ t ∈ c.classes, IsTypeIndex numTypeIds extra t) ∧
      methodMap'.content (typeName numTypeIds extra) = methodMap.content (typeName numTypeIds extra) ⊔
          otherMap.content (typeName numTypeIds other) := by
  refine AssocMap.denote_merge ?_ hmap hotherMap h
  intro o m c c' ho hc h
  split_ifs at h
  have hd : (o.getD .empty).Forall fun c => ∀ t ∈ c.classes, IsTypeIndex numTypeIds extra t := by
    cases o with
    | none => exact AssocMap.forall_empty _
    | some c => exact ho c rfl
  have hcaches : c'.Forall (fun c => ∀ t ∈ c.classes, IsTypeIndex numTypeIds extra t) ∧
      InlineCacheMap.content (typeName numTypeIds extra) c' =
        InlineCacheMap.content (typeName numTypeIds extra) (o.getD .empty) ⊔
          InlineCacheMap.content (typeName numTypeIds other) c := by
    refine AssocMap.denote_merge ?_ hd hc h
    intro o pc v w ho hv hw
    cases o with
    | none =>
      -- a new cache is empty
      obtain ⟨hvalid, hjoin⟩ := mergeDexPc_spec hnum hother hremap hnodup
        (fun t ht => absurd ht not_mem_nil) hv hw
      refine ⟨hvalid, (congrArg _ (hjoin.trans ?_)).trans (bot_sup_eq _).symm⟩
      exact Capped.coe_ofFinset_empty_sup _
    | some d =>
      obtain ⟨hvalid, hjoin⟩ := mergeDexPc_spec hnum hother hremap hnodup (ho d rfl) hv hw
      exact ⟨hvalid, congrArg _ hjoin⟩
  refine ⟨hcaches.1, ?_⟩
  cases o with
  | none =>
    refine (congrArg _ (hcaches.2.trans ?_)).trans (bot_sup_eq _).symm
    exact bot_sup_eq _
  | some c0 => exact congrArg _ hcaches.2

end

/-! ## Dex files -/

lemma getD_zipWith_or {l l' : List (BitVec 8)} (hlen : l.length = l'.length) (i : ℕ) :
    (zipWith (· ||| ·) l l').getD i 0 = l.getD i 0 ||| l'.getD i 0 := by
  by_cases hi : i < l.length
  · rw [getD_eq_getElem _ _ (by rw [length_zipWith]; omega), getElem_zipWith,
      getD_eq_getElem, getD_eq_getElem]
  · rw [getD_eq_default _ _ (by rw [length_zipWith]; omega),
      getD_eq_default _ _ (by omega), getD_eq_default _ _ (by omega), BitVec.or_self]

variable {forBootImage : Bool}

lemma flags_mergeBitmap {d other : DexFileData} (hnum : d.numMethodIds = other.numMethodIds)
    (hlen : d.bitmapStorage.length = other.bitmapStorage.length) :
    (d.mergeBitmap other).flags forBootImage = d.flags forBootImage ∪ other.flags forBootImage := by
  ext ⟨flag, method⟩
  have hload : (d.mergeBitmap other).loadFlag flag method =
      (d.loadFlag flag method || other.loadFlag flag method) := by
    rw [loadFlag, loadFlag, loadFlag, ← hnum]
    change ((zipWith (· ||| ·) d.bitmapStorage other.bitmapStorage).getD _ 0).getLsbD _ = _
    rw [getD_zipWith_or hlen, BitVec.getLsbD_or]
    rfl
  simp only [flags, Set.mem_union, Set.mem_ofPred_eq, hload, Bool.or_eq_true, ← hnum]
  rw [← and_or_left, ← and_or_left]
  rfl

/-- Merging the data of a dex file joins their contents. -/
lemma mergeDexFileData_spec {remap : List ℕ} {otherExtra extra : List String}
    {d d' other : DexFileData} (hnodup : extra.Nodup)
    (hlen : otherExtra.length ≤ kMaxExtraDescriptors) (hremap : Remaps remap otherExtra extra)
    (hd : d.IsValid forBootImage extra) (hother : other.IsValid forBootImage otherExtra)
    (hheader : d.header = other.header) (h : mergeDexFileData remap true d other = some d') :
    d'.IsValid forBootImage extra ∧ d'.profileKey = d.profileKey ∧ d'.header = d.header ∧
      d'.content forBootImage extra = d.content forBootImage extra ⊔
        other.content forBootImage otherExtra := by
  obtain ⟨-, htypes, hmethods⟩ : d.checksum = other.checksum ∧ d.numTypeIds = other.numTypeIds ∧
      d.numMethodIds = other.numMethodIds := by
    simpa [DexFileData.header] using hheader
  obtain ⟨classSet, hclassSet, h⟩ := bind_eq_some_iff.1 h
  obtain ⟨methodMap, hmethodMap, h⟩ := bind_eq_some_iff.1 h
  obtain ⟨hvalidSet, hset⟩ := mergeClasses_spec hd.numTypeIds_lt hlen hremap hd.classSet
    (htypes ▸ hother.classSet) hclassSet
  obtain ⟨hvalidMap, hmap⟩ := mergeMethods_spec hd.numTypeIds_lt hlen hremap hnodup hd.methodMap
    (htypes ▸ hother.methodMap) hmethodMap
  have hstorage : d.bitmapStorage.length = other.bitmapStorage.length := by
    rw [hd.length_bitmapStorage, hother.length_bitmapStorage, hmethods]
  cases h
  refine ⟨⟨hd.numTypeIds_lt, ?_, hvalidSet, hvalidMap⟩, rfl, rfl, ?_⟩
  · refine (length_zipWith ..).trans ?_
    rw [← hstorage, min_self]
    exact hd.length_bitmapStorage
  · rw [DexFileData.content, DexFileData.content, DexFileData.content, ← htypes]
    exact Prod.ext (flags_mergeBitmap hmethods hstorage) (Prod.ext hset hmap)

end ProfileCompilationInfo
end Art
