import Art.Lib.EarlyExit
import Art.Profile.Merge

/-!
# Merges that fail

`MergeWith` changes the profile in place, and returns false where it cannot go on. Only versions and
checksums are verified before something is changed. At the other exits a part of the other profile was
merged: the dex files that were added so far, or all dex files with a part of their data.
-/

namespace Art
namespace ProfileCompilationInfo

open EarlyExit List AssocMap
open Option (bind_eq_bind bind_some map_none map_some)

/-! ## Changes in place -/

variable (extraDescriptorsRemap : List ℕ) (numTypeIds : ℕ)

/-- A class of another dex file is merged. -/
def mergeClassInPlace (classSet : List ℕ) (typeIdx : ℕ) : List ℕ × Bool :=
  if typeIdx < numTypeIds % 2 ^ 16 then (classSet.insert typeIdx, true)
  else match remapExtra extraDescriptorsRemap numTypeIds typeIdx with
    | some typeIdx => (classSet.insert typeIdx, true)
    | none => (classSet, false)

/-- The classes of another dex file are merged. -/
def mergeClassesInPlace (classSet other : List ℕ) : List ℕ × Bool :=
  each (mergeClassInPlace extraDescriptorsRemap numTypeIds) classSet other

/-- A class of an inline cache is merged. -/
def mergeCacheClassInPlace (d : DexPcData) (typeIdx : ℕ) : DexPcData × Bool :=
  if typeIdx ≥ numTypeIds then
    match remapExtra extraDescriptorsRemap numTypeIds typeIdx with
    | some typeIdx => (d.addClass typeIdx, true)
    | none => (d, false)
  else (d.addClass typeIdx, true)

/-- The state of an inline cache at one dex pc is merged. -/
def mergeDexPcInPlace (d other : DexPcData) : DexPcData × Bool :=
  if other.isMissingTypes then (d.setIsMissingTypes, true)
  else if other.isMegamorphic then (d.setIsMegamorphic, true)
  else each (mergeCacheClassInPlace extraDescriptorsRemap numTypeIds) d other.classes

/-- An entry of an inline cache is merged, after `FindOrAddDexPc`. -/
def mergeDexPcEntryInPlace (inlineCache : InlineCacheMap) (e : ℕ × DexPcData) : InlineCacheMap × Bool :=
  let r := mergeDexPcInPlace extraDescriptorsRemap numTypeIds ((inlineCache.get? e.1).getD .new) e.2
  (inlineCache.set e.1 r.1, r.2)

variable (numTypeIds numMethodIds : ℕ)

/-- A hot method is merged, after `FindOrAddHotMethod`. -/
def mergeMethodInPlace (methodMap : MethodMap) (e : ℕ × InlineCacheMap) : MethodMap × Bool :=
  if e.1 ≥ numMethodIds then (methodMap, false)
  else
    let r := each (mergeDexPcEntryInPlace extraDescriptorsRemap numTypeIds)
      ((methodMap.get? e.1).getD .empty) e.2.entries
    (methodMap.set e.1 r.1, r.2)

/-- The methods and the inline caches of another dex file are merged. -/
def mergeMethodsInPlace (methodMap other : MethodMap) : MethodMap × Bool :=
  each (mergeMethodInPlace extraDescriptorsRemap numTypeIds numMethodIds) methodMap other.entries

/-- The data of another dex file with the same key are merged. -/
def mergeDexFileDataInPlace (mergeClassSet : Bool) (dexData other : DexFileData) : DexFileData × Bool :=
  let classes :=
    if mergeClassSet then
      mergeClassesInPlace extraDescriptorsRemap dexData.numTypeIds dexData.classSet other.classSet
    else (dexData.classSet, true)
  if !classes.2 then ({ dexData with classSet := classes.1 }, false)
  else
    let methods := mergeMethodsInPlace extraDescriptorsRemap dexData.numTypeIds dexData.numMethodIds
      dexData.methodMap other.methodMap
    if !methods.2 then ({ dexData with classSet := classes.1, methodMap := methods.1 }, false)
    else
      ({ dexData with classSet := classes.1, methodMap := methods.1 }.mergeBitmap other, true)

/-- A round of the loop that merges the data of the dex files of another profile. -/
def mergeDataInPlace (mergeClassSet : Bool)
    (p : ProfileCompilationInfo) (e : DexFileData × ℕ) : ProfileCompilationInfo × Bool :=
  match p.info[e.2]? with
  | some dexData =>
    let r := mergeDexFileDataInPlace extraDescriptorsRemap mergeClassSet dexData e.1
    ({ p with info := p.info.set e.2 r.1 }, r.2)
  | none => (p, false)

/-- A dex file of another profile has a different checksum. -/
def hasChecksumMismatch (p : ProfileCompilationInfo) (other : List DexFileData) : Bool :=
  other.any fun otherDexData =>
    (p.findDexData otherDexData.profileKey).any (·.checksum ≠ otherDexData.checksum)

/-- `MergeWith(other, merge_classes)`: the profile that is left, and what is returned. A dex file that
    `GetOrAddDexFileData` rejects is not a new one, so nothing was added for it. -/
def mergeWithInPlace (p other : ProfileCompilationInfo) (mergeClassSet : Bool := true) :
    ProfileCompilationInfo × Bool :=
  if p.forBootImage ≠ other.forBootImage then (p, false)
  else if p.hasChecksumMismatch other.info then (p, false)
  else
    let dexFiles := each (attempt addDexFile) (p, []) other.info
    if !dexFiles.2 then (dexFiles.1.1, false)
    else
      let descriptors := each (attempt addDescriptor) (dexFiles.1.1, []) other.extraDescriptors
      if !descriptors.2 then (descriptors.1.1, false)
      else each (mergeDataInPlace descriptors.1.2 mergeClassSet) descriptors.1.1
        (other.info.zip dexFiles.1.2)

variable {p q : ProfileCompilationInfo} {numTypeIds : ℕ}

/-! ## What is merged of a dex file -/

section

variable (extraDescriptorsRemap : List ℕ) (numTypeIds numMethodIds : ℕ)

/-- A class of an inline cache can be represented. -/
def isRepresentable (typeIdx : ℕ) : Bool :=
  typeIdx < numTypeIds || (remapExtra extraDescriptorsRemap numTypeIds typeIdx).isSome

/-- A class of the class set can be represented. -/
def isRepresentableClass (typeIdx : ℕ) : Bool :=
  typeIdx < numTypeIds % 2 ^ 16 || (remapExtra extraDescriptorsRemap numTypeIds typeIdx).isSome

/-- All classes at a dex pc can be represented. -/
def isMergeableDexPc (e : ℕ × DexPcData) : Bool := e.2.isMissingTypes || e.2.isMegamorphic ||
    e.2.classes.all (isRepresentable extraDescriptorsRemap numTypeIds)

/-- The classes at a dex pc before the first one that cannot be represented. -/
def mergedDexPc (e : ℕ × DexPcData) : Option (ℕ × DexPcData) := some (e.1,
    { classes := e.2.classes.takeWhile (isRepresentable extraDescriptorsRemap numTypeIds)
      nodup := e.2.nodup.sublist (takeWhile_sublist _)
      size := (takeWhile_sublist _).length_le.trans_lt e.2.size
      missing := fun h => by cases h
      megamorphic := fun h => by cases h })

/-- The inline caches of a method that are merged. -/
def mergedInlineCache (c : InlineCacheMap) : InlineCacheMap where
  entries := handled (isMergeableDexPc extraDescriptorsRemap numTypeIds)
    (mergedDexPc extraDescriptorsRemap numTypeIds) c.entries
  nodup := c.nodup.sublist (map_handled_sublist (fun _ _ h => by cases h; rfl) _)

variable (e : ℕ × InlineCacheMap)

/-- All of a method can be merged. -/
def isMergeableMethod : Bool :=
  e.1 < numMethodIds && e.2.entries.all (isMergeableDexPc extraDescriptorsRemap numTypeIds)

/-- What is merged of a method. -/
def mergedMethod : Option (ℕ × InlineCacheMap) :=
  if e.1 < numMethodIds then some (e.1, mergedInlineCache extraDescriptorsRemap numTypeIds e.2) else none

lemma fst_of_mergedMethod {e e' : ℕ × InlineCacheMap}
    (h : mergedMethod extraDescriptorsRemap numTypeIds numMethodIds e = some e') : e'.1 = e.1 := by
  rw [mergedMethod] at h
  split_ifs at h
  cases h
  rfl

/-- The hot methods that are merged. -/
def mergedMethodMap (m : MethodMap) : MethodMap where
  entries := handled (isMergeableMethod extraDescriptorsRemap numTypeIds numMethodIds)
    (mergedMethod extraDescriptorsRemap numTypeIds numMethodIds) m.entries
  nodup := m.nodup.sublist (map_handled_sublist
    (fun _ _ => fst_of_mergedMethod extraDescriptorsRemap numTypeIds numMethodIds) _)

end

/-- All of a dex file can be merged. -/
def isMergeable (o : DexFileData) : Bool :=
  o.classSet.all (isRepresentableClass extraDescriptorsRemap o.numTypeIds) &&
    o.methodMap.entries.all (isMergeableMethod extraDescriptorsRemap o.numTypeIds o.numMethodIds)

variable (forBootImage : Bool)

/-- A dex file without its data. -/
def withoutData (o : DexFileData) : DexFileData :=
  .new o.profileKey o.checksum o.numTypeIds o.numMethodIds forBootImage

/-- What is merged of a dex file that cannot be merged as a whole: no methods if a class of the class
    set cannot be represented, and never the bitmap. -/
def mergedDexFileData (o : DexFileData) : DexFileData :=
  if o.classSet.all (isRepresentableClass extraDescriptorsRemap o.numTypeIds) then
    { withoutData forBootImage o with
      classSet := o.classSet
      methodMap := mergedMethodMap extraDescriptorsRemap o.numTypeIds o.numMethodIds o.methodMap }
  else
    { withoutData forBootImage o with
      classSet := o.classSet.takeWhile (isRepresentableClass extraDescriptorsRemap o.numTypeIds) }

/-- What is merged of the dex files, which were all added before. -/
def mergedInfo (extraDescriptorsRemap : List ℕ) (forBootImage : Bool) : List DexFileData → List DexFileData
  | [] => []
  | o :: l =>
    if isMergeable extraDescriptorsRemap o then o :: mergedInfo extraDescriptorsRemap forBootImage l
    else mergedDexFileData extraDescriptorsRemap forBootImage o :: l.map (withoutData forBootImage)

/-- The part of the other profile that `MergeWith` merges before it returns. -/
def mergedPart (p other : ProfileCompilationInfo) : ProfileCompilationInfo :=
  if p.forBootImage ≠ other.forBootImage then ⟨p.forBootImage, [], []⟩
  else if p.hasChecksumMismatch other.info then ⟨p.forBootImage, [], []⟩
  else
    let dexFiles := each (attempt addDexFile) (p, []) other.info
    if !dexFiles.2 then
      ⟨p.forBootImage, (done addDexFile (p, []) other.info).map (withoutData p.forBootImage), []⟩
    else
      let descriptors := each (attempt addDescriptor) (dexFiles.1.1, []) other.extraDescriptors
      if !descriptors.2 then
        ⟨p.forBootImage, other.info.map (withoutData p.forBootImage),
          done addDescriptor (dexFiles.1.1, []) other.extraDescriptors⟩
      else
        ⟨p.forBootImage, mergedInfo descriptors.1.2 p.forBootImage other.info, other.extraDescriptors⟩

/-! ## Loops and their parts -/

section

variable {remap : List ℕ} {numTypeIds numMethodIds : ℕ}

lemma handles_class (t : ℕ) : Handles (mergeClassInPlace remap numTypeIds) (fun classSet typeIdx =>
      if typeIdx < numTypeIds % 2 ^ 16 then some (classSet.insert typeIdx)
      else (remapExtra remap numTypeIds typeIdx).map classSet.insert)
    (isRepresentableClass remap numTypeIds) (fun _ => none) t := by
  refine .of_option (r := if t < numTypeIds % 2 ^ 16 then some t else remapExtra remap numTypeIds t)
    (fun t s => s.insert t) ?_ rfl (fun s => ?_) fun s => ?_
  · rw [isRepresentableClass]
    split_ifs with h
    · rw [decide_eq_true h]; rfl
    · rw [decide_eq_false h]; rfl
  · rw [mergeClassInPlace]
    split_ifs <;> [rfl; cases remapExtra remap numTypeIds t <;> rfl]
  · split_ifs <;> rfl

lemma handles_cacheClass (t : ℕ) : Handles (mergeCacheClassInPlace remap numTypeIds) (fun d typeIdx =>
      if typeIdx ≥ numTypeIds then (remapExtra remap numTypeIds typeIdx).map d.addClass
      else some (d.addClass typeIdx))
    (isRepresentable remap numTypeIds) (fun _ => none) t := by
  refine .of_option (r := if t ≥ numTypeIds then remapExtra remap numTypeIds t else some t)
    (fun t s => s.addClass t) ?_ rfl (fun s => ?_) fun s => ?_
  · rw [isRepresentable]
    split_ifs with h <;> simp [← not_le, h]
  · rw [mergeCacheClassInPlace]
    split_ifs <;> [cases remapExtra remap numTypeIds t <;> rfl; rfl]
  · split_ifs <;> rfl

lemma mergeDexPc_eq_ite (d : DexPcData) (e : ℕ × DexPcData) :
    (mergeDexPcInPlace remap numTypeIds d e.2).2 = isMergeableDexPc remap numTypeIds e ∧
      mergeDexPc remap numTypeIds d e.2 = if isMergeableDexPc remap numTypeIds e then
        some (mergeDexPcInPlace remap numTypeIds d e.2).1 else none := by
  rw [mergeDexPc, mergeDexPcInPlace, isMergeableDexPc]
  cases hmissing : e.2.isMissingTypes with
  | true => exact ⟨rfl, rfl⟩
  | false =>
    cases hmega : e.2.isMegamorphic with
    | true => exact ⟨rfl, rfl⟩
    | false =>
      exact ⟨snd_each (fun t _ => handles_cacheClass t) d, foldlM_eq_ite (fun t _ => handles_cacheClass t) d⟩

/-- What is merged at a dex pc whose classes cannot all be represented. -/
lemma mergeDexPc_of_isMergeableDexPc_eq_false {e : ℕ × DexPcData}
    (h : isMergeableDexPc remap numTypeIds e = false) :
    ∃ e', mergedDexPc remap numTypeIds e = some e' ∧ e'.1 = e.1 ∧ ∀ d, mergeDexPc remap numTypeIds d e'.2 =
        some (mergeDexPcInPlace remap numTypeIds d e.2).1 := by
  simp only [isMergeableDexPc, Bool.or_eq_false_iff] at h
  refine ⟨_, rfl, rfl, fun d => ?_⟩
  rw [mergeDexPcInPlace, h.1.1, h.1.2, if_neg Bool.false_ne_true, if_neg Bool.false_ne_true,
    ← foldlM_handled (fun t _ => handles_cacheClass t), handled_none]
  rfl

/-- A value of a map is changed in place. -/
lemma handles_modify {ν : Type} {f : Option ν → ℕ × ν → ν × Bool} {g : Option ν → ℕ × ν → Option ν}
    {ok : ℕ × ν → Bool} {part : ℕ × ν → Option (ℕ × ν)} {e : ℕ × ν}
    (hsnd : ∀ o, (f o e).2 = ok e) (heq : ∀ o, g o e = if ok e then some (f o e).1 else none)
    (hpart : ok e = false → ∃ e', part e = some e' ∧ e'.1 = e.1 ∧ ∀ o, g o e' = some (f o e).1) :
    Handles (fun (m : AssocMap ℕ ν) e => (m.set e.1 (f (m.get? e.1) e).1, (f (m.get? e.1) e).2))
      (fun m e => m.modify e.1 fun o => g o e) ok part e := by
  refine ⟨fun m => hsnd _, fun m => ?_, fun m hok => ?_⟩
  · rw [AssocMap.modify, heq]
    cases ok e <;> rfl
  · obtain ⟨e', he', hkey, hg⟩ := hpart hok
    rw [he', Option.elim_some, AssocMap.modify, hg, hkey]
    rfl

lemma handles_dexPcEntry (e : ℕ × DexPcData) : Handles (mergeDexPcEntryInPlace remap numTypeIds)
    (fun m e => m.modify e.1 fun o => mergeDexPc remap numTypeIds (o.getD {}) e.2)
    (isMergeableDexPc remap numTypeIds) (mergedDexPc remap numTypeIds) e := by
  refine handles_modify (f := fun o e => mergeDexPcInPlace remap numTypeIds (o.getD {}) e.2)
    (g := fun o e => mergeDexPc remap numTypeIds (o.getD {}) e.2)
    (fun o => (mergeDexPc_eq_ite _ e).1) (fun o => (mergeDexPc_eq_ite _ e).2) fun hok => ?_
  obtain ⟨e', he', hkey, hmerge⟩ := mergeDexPc_of_isMergeableDexPc_eq_false hok
  exact ⟨e', he', hkey, fun o => hmerge _⟩

lemma handles_method (e : ℕ × InlineCacheMap) : Handles (mergeMethodInPlace remap numTypeIds numMethodIds)
      (fun m e => m.modify e.1 fun inlineCache =>
        if e.1 ≥ numMethodIds then none
        else (inlineCache.getD .empty).merge (fun d _ otherData =>
          mergeDexPc remap numTypeIds (d.getD {}) otherData) e.2)
      (isMergeableMethod remap numTypeIds numMethodIds) (mergedMethod remap numTypeIds numMethodIds)
      e := by
  by_cases hlt : e.1 < numMethodIds
  · have hge : ¬ e.1 ≥ numMethodIds := not_le.2 hlt
    have hok : isMergeableMethod remap numTypeIds numMethodIds e =
        e.2.entries.all (isMergeableDexPc remap numTypeIds) := by
      rw [isMergeableMethod, decide_eq_true hlt, Bool.true_and]
    have hf : ∀ m : MethodMap, mergeMethodInPlace remap numTypeIds numMethodIds m e =
        (m.set e.1 (each (mergeDexPcEntryInPlace remap numTypeIds) ((m.get? e.1).getD .empty)
          e.2.entries).1, (each (mergeDexPcEntryInPlace remap numTypeIds)
            ((m.get? e.1).getD .empty) e.2.entries).2) := fun m => if_neg hge
    refine ⟨fun m => ?_, fun m => ?_, fun m _ => ?_⟩
    · rw [hf, hok]
      exact snd_each (fun e _ => handles_dexPcEntry e) _
    · rw [hf, hok, AssocMap.modify, if_neg hge, AssocMap.merge, AssocMap.mergeList,
        foldlM_eq_ite fun e _ => handles_dexPcEntry e]
      cases e.2.entries.all _ <;> rfl
    · rw [hf, mergedMethod, if_pos hlt, Option.elim_some, AssocMap.modify, if_neg hge,
        AssocMap.merge, AssocMap.mergeList, mergedInlineCache, foldlM_handled fun e _ => handles_dexPcEntry e]
      rfl
  · have hge := not_lt.1 hlt
    refine .of_false ?_ (if_neg hlt) (fun s => if_pos hge) (fun s => ?_)
    · rw [isMergeableMethod, decide_eq_false hlt, Bool.false_and]
    · rw [AssocMap.modify, if_pos hge, map_none]

lemma mergeMethods_eq_ite (m other : MethodMap) : mergeMethods remap numTypeIds numMethodIds m other =
      if other.entries.all (isMergeableMethod remap numTypeIds numMethodIds) then
        some (mergeMethodsInPlace remap numTypeIds numMethodIds m other).1 else none :=
  foldlM_eq_ite (fun e _ => handles_method e) m

lemma mergeClasses_eq_ite (classSet other : List ℕ) : mergeClasses remap numTypeIds classSet other =
      if other.all (isRepresentableClass remap numTypeIds) then
        some (mergeClassesInPlace remap numTypeIds classSet other).1 else none :=
  foldlM_eq_ite (fun t _ => handles_class t) classSet

end

/-! ## Dex files and their parts -/

variable {o : DexFileData}

/-- An empty bitmap changes nothing. -/
lemma mergeBitmap_eq_self {d : DexFileData}
    (h : o.bitmapStorage = List.replicate d.bitmapStorage.length 0) : d.mergeBitmap o = d := by
  rw [DexFileData.mergeBitmap, h]
  have hzip : ∀ l : List (BitVec 8), zipWith (· ||| ·) l (List.replicate l.length 0) = l := by
    intro l
    induction l with
    | nil => rfl
    | cons x l ih =>
      rw [length_cons, replicate_succ, zipWith_cons_cons, ih]
      simp
  rw [hzip]

section

variable {remap : List ℕ} {forBootImage : Bool} {d o : DexFileData}

/-- Without a bitmap, the classes and the methods are merged. -/
lemma mergeDexFileData_of_bitmap {classSet : List ℕ} {methodMap : MethodMap}
    (hclasses : mergeClasses remap d.numTypeIds d.classSet o.classSet = some classSet)
    (hmap : mergeMethods remap d.numTypeIds d.numMethodIds d.methodMap o.methodMap = some methodMap)
    (hzero : o.bitmapStorage = List.replicate d.bitmapStorage.length 0) :
    mergeDexFileData remap true d o = some { d with classSet, methodMap } := by
  rw [mergeDexFileData, if_pos rfl, hclasses, hmap]
  exact congrArg some (mergeBitmap_eq_self hzero)

section

variable (htypes : d.numTypeIds = o.numTypeIds) (hmethods : d.numMethodIds = o.numMethodIds)

include htypes hmethods

/-- The exits of a merge of dex files. -/
lemma mergeDexFileDataInPlace_eq : mergeDexFileDataInPlace remap true d o =
      let classSet := (mergeClassesInPlace remap d.numTypeIds d.classSet o.classSet).1
      let methodMap := (mergeMethodsInPlace remap d.numTypeIds d.numMethodIds d.methodMap o.methodMap).1
      if o.classSet.all (isRepresentableClass remap o.numTypeIds) then
        if o.methodMap.entries.all (isMergeableMethod remap o.numTypeIds o.numMethodIds) then
          ({ d with classSet, methodMap }.mergeBitmap o, true)
        else ({ d with classSet, methodMap }, false)
      else ({ d with classSet }, false) := by
  have hclasses : (mergeClassesInPlace remap d.numTypeIds d.classSet o.classSet).2 =
      o.classSet.all (isRepresentableClass remap o.numTypeIds) := by
    rw [htypes]
    exact snd_each (fun t _ => handles_class t) _
  have hmap : (mergeMethodsInPlace remap d.numTypeIds d.numMethodIds d.methodMap o.methodMap).2 =
      o.methodMap.entries.all (isMergeableMethod remap o.numTypeIds o.numMethodIds) := by
    rw [htypes, hmethods]
    exact snd_each (fun e _ => handles_method e) _
  rw [mergeDexFileDataInPlace]
  simp only [if_true, hclasses, hmap]
  cases o.classSet.all _ with
  | false => rfl
  | true => cases o.methodMap.entries.all _ <;> rfl

lemma mergeDexFileData_eq_ite : (mergeDexFileDataInPlace remap true d o).2 = isMergeable remap o ∧
    mergeDexFileData remap true d o =
      if isMergeable remap o then some (mergeDexFileDataInPlace remap true d o).1 else none := by
  rw [mergeDexFileDataInPlace_eq htypes hmethods, isMergeable, mergeDexFileData, if_pos rfl,
    mergeClasses_eq_ite, mergeMethods_eq_ite, ← htypes, ← hmethods]
  cases o.classSet.all _ with
  | false => exact ⟨rfl, rfl⟩
  | true =>
    cases o.methodMap.entries.all _ <;> exact ⟨rfl, rfl⟩

/-- What is merged of a dex file that cannot be merged as a whole. -/
lemma mergeDexFileData_mergedDexFileData
    (hbitmap : d.bitmapStorage.length = computeBitmapStorage forBootImage d.numMethodIds)
    (hmerge : isMergeable remap o = false) :
    mergeDexFileData remap true d (mergedDexFileData remap forBootImage o) =
      some (mergeDexFileDataInPlace remap true d o).1 := by
  have hzero : (withoutData forBootImage o).bitmapStorage = List.replicate d.bitmapStorage.length 0 := by
    rw [hbitmap, hmethods]
    rfl
  rw [mergeDexFileDataInPlace_eq htypes hmethods, mergedDexFileData]
  rw [isMergeable] at hmerge
  cases hclasses : o.classSet.all _ with
  | false =>
    refine mergeDexFileData_of_bitmap ?_ rfl hzero
    rw [htypes, ← handled_none]
    exact foldlM_handled (fun t _ => handles_class t) d.classSet
  | true =>
    rw [hclasses, Bool.true_and] at hmerge
    rw [hmerge]
    refine mergeDexFileData_of_bitmap ?_ ?_ hzero
    · refine (mergeClasses_eq_ite d.classSet o.classSet).trans (if_pos ?_)
      rw [htypes, hclasses]
    · rw [htypes, hmethods]
      exact foldlM_handled (fun e _ => handles_method e) d.methodMap

end

/-- A dex file without data changes nothing. -/
lemma mergeDexFileData_withoutData (hmethods : d.numMethodIds = o.numMethodIds)
    (hbitmap : d.bitmapStorage.length = computeBitmapStorage forBootImage d.numMethodIds) :
    mergeDexFileData remap true d (withoutData forBootImage o) = some d :=
  congrArg some (mergeBitmap_eq_self (by rw [hbitmap, hmethods]; rfl))

end

/-! ## Parts are profiles -/

variable {remap : List ℕ}

lemma forall_mergedInlineCache {P : ℕ → Prop} {c : InlineCacheMap}
    (h : c.Forall fun d => ∀ t ∈ d.classes, P t) :
    (mergedInlineCache remap numTypeIds c).Forall fun d => ∀ t ∈ d.classes, P t := by
  refine forall_of_entries fun e he t ht => ?_
  rcases mem_handled he with he | ⟨a, ha, -, hpart⟩
  · exact h.of_mem he t ht
  · cases hpart
    exact h.of_mem ha t ((takeWhile_sublist _).subset ht)

variable {forBootImage : Bool} {extra : List String}

lemma isValid_mergedDexFileData (ho : o.IsValid forBootImage extra) (remap : List ℕ) :
    (mergedDexFileData remap forBootImage o).IsValid forBootImage extra := by
  rw [mergedDexFileData]
  split_ifs with hclasses
  · refine ⟨ho.numTypeIds_lt, length_replicate, ho.classSet, ?_⟩
    refine forall_of_entries fun e he => ?_
    rcases mem_handled he with he | ⟨a, ha, -, hpart⟩
    · exact ho.methodMap.of_mem he
    · rw [mergedMethod] at hpart
      split_ifs at hpart
      cases hpart
      exact forall_mergedInlineCache (ho.methodMap.of_mem ha)
  · refine ⟨ho.numTypeIds_lt, length_replicate, fun t ht => ?_, forall_empty _⟩
    exact ho.classSet t ((takeWhile_sublist _).subset ht)

lemma key_header_mergedDexFileData (remap : List ℕ) (forBootImage : Bool) (o : DexFileData) :
    (mergedDexFileData remap forBootImage o).profileKey = o.profileKey ∧
      (mergedDexFileData remap forBootImage o).header = o.header := by
  rw [mergedDexFileData]
  split_ifs <;> exact ⟨rfl, rfl⟩

lemma key_mem_mergedInfo (remap : List ℕ) (forBootImage : Bool) (l : List DexFileData) :
    (mergedInfo remap forBootImage l).map (·.profileKey) = l.map (·.profileKey) := by
  induction l with
  | nil => rfl
  | cons o l ih =>
    rw [mergedInfo]
    split_ifs
    · rw [map_cons, ih, map_cons]
    · rw [map_cons, (key_header_mergedDexFileData remap _ o).1, map_map, map_cons]
      rfl

variable {l : List DexFileData}

lemma isValid_mergedInfo (hl : ∀ o ∈ l, o.IsValid forBootImage extra) (remap : List ℕ) :
    ∀ d ∈ mergedInfo remap forBootImage l, d.IsValid forBootImage extra := by
  induction l with
  | nil => exact nofun
  | cons o l ih =>
    have ho := hl o mem_cons_self
    have hl' := fun e he => hl e (mem_cons_of_mem o he)
    intro d hd
    rw [mergedInfo] at hd
    split_ifs at hd
    · rcases mem_cons.1 hd with rfl | hd
      · exact ho
      · exact ih hl' d hd
    · rcases mem_cons.1 hd with rfl | hd
      · exact isValid_mergedDexFileData ho remap
      · obtain ⟨e, he, rfl⟩ := mem_map.1 hd
        exact isValid_new _ _ (hl' e he).numTypeIds_lt

/-! ## The loops over the dex files -/

section

variable {remap : List ℕ} {otherExtra : List String}

/-- A round of the loop that merges the data of dex files, without exits. -/
def mergeData (extraDescriptorsRemap : List ℕ) (p : ProfileCompilationInfo) (e : DexFileData × ℕ) :
    Option ProfileCompilationInfo := do
  let dexData ← p.info[e.2]?
  let dexData ← mergeDexFileData extraDescriptorsRemap true dexData e.1
  return { p with info := p.info.set e.2 dexData }

variable {p : ProfileCompilationInfo} {o : DexFileData} {i : ℕ}

/-- A dex file without data changes nothing in a profile. -/
lemma Found.exists_ids (h : p.Found o i) : ∃ d, p.info[i]? = some d ∧ d.numTypeIds = o.numTypeIds ∧
    d.numMethodIds = o.numMethodIds :=
  h.imp fun _ hd => ⟨hd.1, congrArg (·.2.1) hd.2.2, congrArg (·.2.2) hd.2.2⟩

lemma mergeData_withoutData (hp : p.IsValid) (hfound : p.Found o i) :
    mergeData remap p (withoutData p.forBootImage o, i) = some p := by
  obtain ⟨d, hd, -, hmethods⟩ := hfound.exists_ids
  have hbitmap := (hp.info d (mem_of_getElem? hd)).length_bitmapStorage
  have hset : p.info.set i d = p.info := by
    obtain ⟨hlt, rfl⟩ := List.getElem?_eq_some_iff.1 hd
    exact set_getElem_self hlt
  simp only [mergeData, hd, mergeDexFileData_withoutData hmethods hbitmap, bind_eq_bind, bind_some, hset]
  rfl

variable {l : List DexFileData} {indexes : List ℕ}

lemma foldlM_withoutData (remap : List ℕ) (hp : p.IsValid) (hfound : List.Forall₂ p.Found l indexes) :
    ((l.map (withoutData p.forBootImage)).zip indexes).foldlM (mergeData remap) p = some p := by
  induction hfound with
  | nil => rfl
  | cons hi _ ih =>
    rw [map_cons, zip_cons_cons, foldlM_cons, mergeData_withoutData hp hi]
    exact ih

/-- A round of the loop over the dex files. -/
lemma mergeData_eq_ite (remap : List ℕ) (hfound : p.Found o i) :
    (mergeDataInPlace remap true p (o, i)).2 = isMergeable remap o ∧ mergeData remap p (o, i) =
        if isMergeable remap o then some (mergeDataInPlace remap true p (o, i)).1 else none := by
  obtain ⟨d, hd, htypes, hmethods⟩ := hfound.exists_ids
  simp only [mergeDataInPlace, mergeData, hd, bind_eq_bind, bind_some,
    mergeDexFileData_eq_ite htypes hmethods, true_and]
  cases isMergeable remap o <;> rfl

lemma mergeData_mergedDexFileData (hp : p.IsValid) (hfound : p.Found o i)
    (hmerge : isMergeable remap o = false) : mergeData remap p (mergedDexFileData remap p.forBootImage o, i) =
      some (mergeDataInPlace remap true p (o, i)).1 := by
  obtain ⟨d, hd, htypes, hmethods⟩ := hfound.exists_ids
  have hbitmap := (hp.info d (mem_of_getElem? hd)).length_bitmapStorage
  simp only [mergeDataInPlace, mergeData, hd, bind_eq_bind, bind_some,
    mergeDexFileData_mergedDexFileData htypes hmethods hbitmap hmerge]
  rfl

variable (hp : p.IsValid) (hlen : otherExtra.length ≤ kMaxExtraDescriptors)
  (hremap : Remaps remap otherExtra p.extraDescriptors)

include hp hlen hremap in
/-- Merging data keeps the profile valid and the dex files where they are. -/
lemma mergeData_spec {q : ProfileCompilationInfo} (hfound : p.Found o i)
    (ho : o.IsValid p.forBootImage otherExtra) (h : mergeData remap p (o, i) = some q) :
    q.IsValid ∧ q.forBootImage = p.forBootImage ∧ q.extraDescriptors = p.extraDescriptors ∧
      ∀ o' j, p.Found o' j → q.Found o' j := by
  obtain ⟨d, hd, h⟩ := Option.bind_eq_some_iff.1 h
  obtain ⟨d', hd', h⟩ := Option.bind_eq_some_iff.1 h
  cases h
  obtain ⟨hjoins, hkeep⟩ := joins_mergeDexFileData hp hlen hremap hd hfound ho hd'
  exact ⟨hjoins.isValid, rfl, rfl, hkeep⟩

include hp hlen hremap in
/-- The loop over the dex files merges a part of their data, which is all of it if no round fails. -/
lemma foldlM_mergedInfo (hfound : List.Forall₂ p.Found l indexes)
    (hl : ∀ o ∈ l, o.IsValid p.forBootImage otherExtra) :
    ((mergedInfo remap p.forBootImage l).zip indexes).foldlM (mergeData remap) p =
        some (each (mergeDataInPlace remap true) p (l.zip indexes)).1 ∧
      (each (mergeDataInPlace remap true) p (l.zip indexes)).2 = l.all (isMergeable remap) ∧
      (l.zip indexes).foldlM (mergeData remap) p = if l.all (isMergeable remap) then
          some (each (mergeDataInPlace remap true) p (l.zip indexes)).1 else none := by
  induction l generalizing p indexes with
  | nil => exact ⟨rfl, rfl, rfl⟩
  | cons o l ih =>
    obtain ⟨i, indexes, hi, htail, rfl⟩ := forall₂_cons_left_iff.1 hfound
    have ho := hl o mem_cons_self
    obtain ⟨hsnd, hdata⟩ := mergeData_eq_ite remap hi
    rw [zip_cons_cons, foldlM_cons, each, hsnd, mergedInfo, all_cons, hdata]
    cases hmerge : isMergeable remap o with
    | true =>
      rw [hmerge, if_pos rfl] at hdata
      obtain ⟨hq, hboot, hextra, hkeep⟩ := mergeData_spec hp hlen hremap hi ho hdata
      have hrest := ih hq (hextra ▸ hremap) (htail.imp fun _ _ hf => hkeep _ _ hf)
        (fun e he => hboot ▸ hl e (mem_cons_of_mem o he))
      rw [hboot] at hrest
      refine ⟨?_, hrest.2⟩
      rw [if_pos rfl, zip_cons_cons, foldlM_cons, hdata]
      exact hrest.1
    | false =>
      -- the rest was added without its data
      have hpart := mergeData_mergedDexFileData hp hi hmerge
      have hfound' : p.Found (mergedDexFileData remap p.forBootImage o) i := by
        obtain ⟨d, hd, hkey, hheader⟩ := hi
        obtain ⟨hkey', hheader'⟩ := key_header_mergedDexFileData remap p.forBootImage o
        exact ⟨d, hd, hkey.trans hkey'.symm, hheader.trans hheader'.symm⟩
      obtain ⟨hq, hboot, hextra, hkeep⟩ := mergeData_spec hp hlen hremap hfound'
        (isValid_mergedDexFileData ho remap) hpart
      refine ⟨?_, hsnd.trans hmerge, rfl⟩
      rw [if_neg Bool.false_ne_true, zip_cons_cons, foldlM_cons, hpart]
      have hrest := foldlM_withoutData remap hq (htail.imp fun _ _ hf => hkeep _ _ hf)
      rw [hboot] at hrest
      exact hrest

end

/-! ## Failed merges -/

variable {l' : List DexFileData}

lemma hasChecksumMismatch_eq_false_of_headers
    (h : ∀ d ∈ l', ∃ o ∈ l, d.profileKey = o.profileKey ∧ d.header = o.header)
    (hl : p.hasChecksumMismatch l = false) : p.hasChecksumMismatch l' = false := by
  rw [hasChecksumMismatch, any_eq_false] at hl ⊢
  intro d hd
  obtain ⟨o, ho, hkey, hheader⟩ := h d hd
  have hchecksum : d.checksum = o.checksum := congrArg (·.1) hheader
  rw [hkey, hchecksum]
  exact hl o ho

lemma mem_map_withoutData (forBootImage : Bool) (hsub : l' ⊆ l) :
    ∀ d ∈ l'.map (withoutData forBootImage), ∃ o ∈ l, d.profileKey = o.profileKey ∧ d.header = o.header := by
  intro d hd
  obtain ⟨o, ho, rfl⟩ := mem_map.1 hd
  exact ⟨o, hsub ho, rfl, rfl⟩

lemma mem_mergedInfo (remap : List ℕ) (forBootImage : Bool) (l : List DexFileData) :
    ∀ d ∈ mergedInfo remap forBootImage l, ∃ o ∈ l, d.profileKey = o.profileKey ∧ d.header = o.header := by
  induction l with
  | nil => exact nofun
  | cons o l ih =>
    intro d hd
    rw [mergedInfo] at hd
    split_ifs at hd
    · rcases mem_cons.1 hd with rfl | hd
      · exact ⟨d, mem_cons_self, rfl, rfl⟩
      · obtain ⟨e, he, h⟩ := ih d hd
        exact ⟨e, mem_cons_of_mem o he, h⟩
    · rcases mem_cons.1 hd with rfl | hd
      · exact ⟨o, mem_cons_self, key_header_mergedDexFileData remap _ o⟩
      · exact mem_map_withoutData _ (subset_cons_self o l) d hd

variable {p other : ProfileCompilationInfo}

/-- The loops of a merge, after the checks. -/
lemma mergeWith_of_checks (hboot : p.forBootImage = other.forBootImage)
    (hchecksum : p.hasChecksumMismatch other.info = false) :
    p.mergeWith other = (other.info.foldlM addDexFile (p, [])).bind fun s1 =>
      (other.extraDescriptors.foldlM addDescriptor (s1.1, [])).bind fun s2 =>
        (other.info.zip s1.2).foldlM (mergeData s2.2) s2.1 := by
  rw [mergeWith, if_neg (not_not.2 hboot), if_neg (by rw [← Bool.not_eq_true] at hchecksum; exact hchecksum)]
  rfl

lemma mergeWith_of_loops {p1 p2 : ProfileCompilationInfo} {indexes : List ℕ}
    (hchecksum : p.hasChecksumMismatch l = false)
    (h1 : l.foldlM addDexFile (p, []) = some (p1, indexes))
    (h2 : extra.foldlM addDescriptor (p1, []) = some (p2, remap)) :
    p.mergeWith ⟨p.forBootImage, l, extra⟩ = (l.zip indexes).foldlM (mergeData remap) p2 := by
  have hloops := mergeWith_of_checks (show p.forBootImage =
    (⟨_, l, extra⟩ : ProfileCompilationInfo).forBootImage from rfl) hchecksum
  refine hloops.trans ?_
  rw [h1, bind_some]
  rw [h2, bind_some]

lemma foldlM_addDexFile_mergedInfo (remap : List ℕ) (forBootImage : Bool) (l : List DexFileData)
    (s : ProfileCompilationInfo × List ℕ) :
    (mergedInfo remap forBootImage l).foldlM addDexFile s = l.foldlM addDexFile s := by
  induction l generalizing s with
  | nil => rfl
  | cons o l ih =>
    rw [mergedInfo]
    split_ifs
    · rw [foldlM_cons, foldlM_cons]
      exact congrArg _ (funext ih)
    · have hstep : addDexFile s (mergedDexFileData remap forBootImage o) = addDexFile s o := by
        rw [mergedDexFileData]
        split_ifs <;> rfl
      rw [foldlM_cons, foldlM_cons, hstep]
      exact congrArg _ (funext fun _ => foldlM_map)

section

variable {p p1 p2 other : ProfileCompilationInfo} {indexes remap : List ℕ} (hp : p.IsValid)
  (hother : other.IsValid) (hchecksum : p.hasChecksumMismatch other.info = false)

include hp hother hchecksum

/-- If a dex file or an extra descriptor cannot be added, dex files were added without data. -/
lemma mergeWith_map_withoutData {l : List DexFileData} {extra : List String} (hl : l ⊆ other.info)
    (h1 : l.foldlM addDexFile (p, []) = some (p1, indexes))
    (h2 : extra.foldlM addDescriptor (p1, []) = some (p2, remap)) :
    p.mergeWith ⟨p.forBootImage, l.map (withoutData p.forBootImage), extra⟩ = some p2 := by
  obtain ⟨hp1, hadds, hfound⟩ := foldlM_addDexFile_spec hl
    (fun o ho => (hother.info o ho).numTypeIds_lt) hp h1
  obtain ⟨hp2, hextra, -⟩ := foldlM_addDescriptor_spec hp1 h2
  have hmismatch := hasChecksumMismatch_eq_false_of_headers
    (mem_map_withoutData p.forBootImage hl) hchecksum
  have hkeep := foldlM_withoutData remap hp2 (hfound.imp fun _ _ => hextra.found)
  rw [hextra.forBootImage, hadds.forBootImage] at hkeep
  exact (mergeWith_of_loops hmismatch (foldlM_map.trans h1) h2).trans hkeep

/-- If all of them were added, a part of the data is merged. -/
lemma mergeWith_mergedInfo (hboot : p.forBootImage = other.forBootImage)
    (h1 : other.info.foldlM addDexFile (p, []) = some (p1, indexes))
    (h2 : other.extraDescriptors.foldlM addDescriptor (p1, []) = some (p2, remap)) :
    p.mergeWith ⟨p.forBootImage, mergedInfo remap p.forBootImage other.info, other.extraDescriptors⟩ =
        some (each (mergeDataInPlace remap true) p2 (other.info.zip indexes)).1 ∧
      p.mergeWith other = if (each (mergeDataInPlace remap true) p2 (other.info.zip indexes)).2 then
          some (each (mergeDataInPlace remap true) p2 (other.info.zip indexes)).1 else none := by
  obtain ⟨hp1, hadds, hfound⟩ := foldlM_addDexFile_spec (List.Subset.refl _)
    (fun o ho => (hother.info o ho).numTypeIds_lt) hp h1
  obtain ⟨hp2, hextra, hremap⟩ := foldlM_addDescriptor_spec hp1 h2
  have hboot2 : p2.forBootImage = p.forBootImage := hextra.forBootImage.trans hadds.forBootImage
  obtain ⟨hpart, hsnd, hall⟩ := foldlM_mergedInfo hp2 hother.length_extraDescriptors hremap
    (hfound.imp fun _ _ => hextra.found) fun o ho => (hboot2.trans hboot) ▸ hother.info o ho
  have hmismatch := hasChecksumMismatch_eq_false_of_headers
    (mem_mergedInfo remap p.forBootImage other.info) hchecksum
  rw [hboot2] at hpart
  constructor
  · exact (mergeWith_of_loops hmismatch ((foldlM_addDexFile_mergedInfo _ _ _ _).trans h1) h2).trans hpart
  · have hself : other = ⟨p.forBootImage, other.info, other.extraDescriptors⟩ := by rw [hboot]
    refine (congrArg (fun q => p.mergeWith q) hself).trans ?_
    rw [mergeWith_of_loops hchecksum h1 h2, hall, hsnd]

end

/-- The profile that is left has a part of the other profile merged, which is all of it if the merge
    succeeds. -/
lemma mergeWith_mergedPart (hp : p.IsValid) (hother : other.IsValid) :
    p.mergeWith (p.mergedPart other) = some (p.mergeWithInPlace other).1 ∧ p.mergeWith other =
        if (p.mergeWithInPlace other).2 then some (p.mergeWithInPlace other).1 else none := by
  by_cases hboot : p.forBootImage = other.forBootImage
  swap
  · have hval : p.mergeWithInPlace other = (p, false) := if_pos hboot
    have hnone : p.mergeWith other = none := if_pos hboot
    rw [hval, hnone, mergedPart, if_pos hboot]
    exact ⟨mergeWith_of_checks rfl rfl, rfl⟩
  cases hchecksum : p.hasChecksumMismatch other.info with
  | true =>
    have hval : p.mergeWithInPlace other = (p, false) := by
      rw [mergeWithInPlace, if_neg (not_not.2 hboot), if_pos hchecksum]
    have hnone : p.mergeWith other = none := (if_neg (not_not.2 hboot)).trans (if_pos hchecksum)
    rw [hval, hnone, mergedPart, if_neg (not_not.2 hboot), if_pos hchecksum]
    exact ⟨mergeWith_of_checks rfl rfl, rfl⟩
  | false =>
    -- a loop that fails has done a part of its list, on which it succeeds
    have hdone := foldlM_done addDexFile (p, []) other.info
    have hspec := done_spec addDexFile (p, []) other.info
    obtain ⟨⟨⟨p1, indexes⟩, ok1⟩, hdex⟩ : ∃ r, each (attempt addDexFile) (p, []) other.info = r := ⟨_, rfl⟩
    rw [hdex] at hdone hspec
    cases ok1 with
    | false =>
      have hval : p.mergeWithInPlace other = (p1, false) := by
        rw [mergeWithInPlace, if_neg (not_not.2 hboot), hchecksum, hdex]
        rfl
      rw [hval, mergeWith_of_checks hboot hchecksum, show _ = none from hspec, mergedPart, if_neg (not_not.2 hboot),
        hchecksum, hdex]
      exact ⟨mergeWith_map_withoutData hp hother hchecksum (done_isPrefix _ _ _).subset hdone rfl, rfl⟩
    | true =>
      rw [show _ = other.info from hspec] at hdone
      have hdone2 := foldlM_done addDescriptor (p1, []) other.extraDescriptors
      have hspec2 := done_spec addDescriptor (p1, []) other.extraDescriptors
      obtain ⟨⟨⟨p2, remap⟩, ok2⟩, hdesc⟩ :
        ∃ r, each (attempt addDescriptor) (p1, []) other.extraDescriptors = r := ⟨_, rfl⟩
      have hpart : p.mergedPart other = if !ok2 then
          ⟨p.forBootImage, other.info.map (withoutData p.forBootImage),
            done addDescriptor (p1, []) other.extraDescriptors⟩
          else ⟨p.forBootImage, mergedInfo remap p.forBootImage other.info, other.extraDescriptors⟩ := by
        rw [mergedPart, if_neg (not_not.2 hboot), hchecksum, hdex]
        dsimp only
        rw [hdesc]
        rfl
      have hval : p.mergeWithInPlace other = if !ok2 then (p2, false) else
          each (mergeDataInPlace remap true) p2 (other.info.zip indexes) := by
        rw [mergeWithInPlace, if_neg (not_not.2 hboot), hchecksum, hdex]
        dsimp only
        rw [hdesc]
        rfl
      rw [hdesc] at hdone2 hspec2
      cases ok2 with
      | false =>
        rw [hval, hpart]
        refine ⟨mergeWith_map_withoutData hp hother hchecksum (List.Subset.refl _) hdone hdone2, ?_⟩
        rw [mergeWith_of_checks hboot hchecksum, hdone, bind_some, show _ = none from hspec2]
        rfl
      | true =>
        rw [hval, hpart]
        rw [show _ = other.extraDescriptors from hspec2] at hdone2
        exact mergeWith_mergedInfo hp hother hchecksum hboot hdone hdone2

lemma isValid_map_withoutData (hother : other.IsValid) (hl : l <+: other.info)
    (hextra : extra <+: other.extraDescriptors) :
    IsValid ⟨p.forBootImage, l.map (withoutData p.forBootImage), extra⟩ where
  keys := by
    rw [map_map]
    exact hother.keys.sublist (hl.sublist.map _)
  extraDescriptors := hother.extraDescriptors.sublist hextra.sublist
  length_extraDescriptors := hextra.length_le.trans hother.length_extraDescriptors
  info d hd := by
    obtain ⟨o, ho, rfl⟩ := mem_map.1 hd
    exact isValid_new _ _ (hother.info o (hl.subset ho)).numTypeIds_lt

lemma isValid_mergedPart (p : ProfileCompilationInfo) (hother : other.IsValid) :
    (p.mergedPart other).IsValid := by
  have hnil : IsValid ⟨p.forBootImage, [], []⟩ :=
    isValid_map_withoutData (p := p) hother nil_prefix nil_prefix
  rw [mergedPart]
  by_cases hboot : p.forBootImage = other.forBootImage
  swap
  · rw [if_pos hboot]
    exact hnil
  rw [if_neg (not_not.2 hboot)]
  dsimp only
  split_ifs
  · exact hnil
  · exact isValid_map_withoutData hother (done_isPrefix _ _ _) nil_prefix
  · exact isValid_map_withoutData hother prefix_rfl (done_isPrefix _ _ _)
  · refine ⟨?_, hother.extraDescriptors, hother.length_extraDescriptors, ?_⟩
    · rw [key_mem_mergedInfo]
      exact hother.keys
    · exact isValid_mergedInfo (fun o ho => hboot ▸ hother.info o ho) _

/-- A join changes nothing exactly if it adds nothing. -/
lemma IsJoin.denotation_eq_iff (h : IsJoin p other q) :
    q.denotation = p.denotation ↔ other.content ≤ p.content := by
  constructor
  · intro heq
    have hcontent : q.content = p.content := congrArg (·.2.2) heq
    rw [← sup_eq_left, ← h.content, hcontent]
  · intro hle
    refine Prod.ext h.forBootImage (Prod.ext (funext fun k => ?_) ?_)
    · refine (h.header k).trans ?_
      -- a dex file of the other profile is known
      cases ho : other.findDexData k with
      | none =>
        have hnone : other.header k = none := by rw [ProfileCompilationInfo.header, ho]; rfl
        rw [hnone, Option.or_none]
        rfl
      | some d =>
        have hk := hle k
        rw [ProfileCompilationInfo.content, ProfileCompilationInfo.content, ho] at hk
        cases hp : p.findDexData k with
        | none =>
          rw [hp] at hk
          exact absurd (le_bot_iff.1 hk) (WithBot.coe_ne_bot)
        | some e =>
          have hsome : p.header k = some e.header := by rw [ProfileCompilationInfo.header, hp]; rfl
          rw [hsome]
          exact hsome.symm
    · exact h.content.trans (sup_eq_left.2 hle)

/-- A merge that fails leaves what a profile says as it was exactly if the part that was merged before
    the failure was known. -/
theorem denotation_of_failed_iff (hp : p.IsValid) (hother : other.IsValid) :
    ((p.mergeWithInPlace other).2 = false → denotation (p.mergeWithInPlace other).1 = p.denotation) ↔
      (p.mergeWithInPlace other).2 = true ∨ (p.mergedPart other).content ≤ p.content := by
  have hjoin := (mergeWith_spec hp (isValid_mergedPart p hother) (mergeWith_mergedPart hp hother).1).2
  rw [hjoin.denotation_eq_iff, Bool.eq_false_iff, or_iff_not_imp_left]

/-- A profile of dex files without data, given by their keys and numbers of types. -/
def profileWithoutData (l : List (String × ℕ)) : ProfileCompilationInfo :=
  ⟨false, l.map fun e => .new e.1 0 e.2 0 false, []⟩

lemma isValid_profileWithoutData {l : List (String × ℕ)} (hkeys : (l.map Prod.fst).Nodup)
    (hnum : ∀ e ∈ l, e.2 < 2 ^ 32) : (profileWithoutData l).IsValid where
  keys := by
    rw [profileWithoutData, map_map]
    exact hkeys
  extraDescriptors := nodup_nil
  length_extraDescriptors := Nat.zero_le _
  info d hd := by
    obtain ⟨e, he, rfl⟩ := mem_map.1 hd
    exact isValid_new false [] (o := .new e.1 0 e.2 0 false) (hnum e he)

/-- The first dex file is rejected for its number of types, and nothing has changed. -/
theorem denotation_of_failed_first :
    ((profileWithoutData [("a", 1)]).mergeWithInPlace (profileWithoutData [("a", 2)])).2 = false ∧
      denotation ((profileWithoutData [("a", 1)]).mergeWithInPlace (profileWithoutData [("a", 2)])).1 =
        denotation (profileWithoutData [("a", 1)]) := by
  have hfail : ((profileWithoutData [("a", 1)]).mergeWithInPlace
      (profileWithoutData [("a", 2)])).2 = false := by decide
  have hpart : (profileWithoutData [("a", 1)]).mergedPart (profileWithoutData [("a", 2)]) =
      ⟨false, [], []⟩ := by rfl
  refine ⟨hfail, (denotation_of_failed_iff (isValid_profileWithoutData (by decide) (by decide))
    (isValid_profileWithoutData (by decide) (by decide))).2 (.inr ?_) hfail⟩
  exact fun k => bot_le

/-- The second dex file is rejected, and the first one was added. -/
theorem denotation_of_failed_second : ∃ p other : ProfileCompilationInfo, p.IsValid ∧ other.IsValid ∧
      (p.mergeWithInPlace other).2 = false ∧ denotation (p.mergeWithInPlace other).1 ≠ p.denotation := by
  refine ⟨profileWithoutData [("a", 1)], profileWithoutData [("b", 1), ("a", 2)],
    isValid_profileWithoutData (by decide) (by decide),
    isValid_profileWithoutData (by decide) (by decide), by decide, fun h => ?_⟩
  have hheader := congrArg (·.2.1 "b") h
  revert hheader
  decide

end ProfileCompilationInfo
end Art
