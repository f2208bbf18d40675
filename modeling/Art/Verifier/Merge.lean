import Art.Verifier.TypeOrder

/-!
# Merging register types

The merge of two types is an upper bound of both in the order of types, and a type that is above
another one absorbs it. The only exception are constants: a negative imprecise constant and one that
is not negative are merged to the smallest signed type in which both fit, even if the first one came
out of such a merge.
-/

namespace Art

open Finset
namespace RegType

open Bool (not_eq_true or_eq_true)

variable {N : Type} [DecidableEq N] {cache : RegTypeCache N} {foundPrecise : Class N → Bool}

/-! ## Types of a cache -/

/-- A merged type has unresolved parts, and either all parts are arrays of objects or none is an
    array. -/
structure IsMerged (cache : RegTypeCache N) (resolved : Option (Class N × Bool)) (types : Finset ℕ) :
    Prop where
  nonempty : types.Nonempty
  isPrimitive : ∀ x, resolved = some x → x.1.isPrimitive = false
  ne_object : resolved ≠ some (.named cache.hierarchy.object, false)
  isObjectArray : ∀ x, resolved = some x → x.1.isArrayClass = true → (ref x.1 x.2).isObjectArrayTypes = true
  isArray : ∀ id ∈ types, cache.unresolvedIsArray id = resolved.any fun x => x.1.isArrayClass

/-- The types of a cache. -/
def IsValid (cache : RegTypeCache N) : RegType N → Prop
  | ref c _ => c.isPrimitive = false
  | merged resolved types => IsMerged cache resolved types
  | _ => True

variable {types : Finset ℕ} {f : RegType N → RegType N → Option (RegType N)} {t : RegType N}
  {a b : RegType N} {z : Option (Class N × Bool)}

omit [DecidableEq N] in
lemma IsMerged.isArrayTypes {resolved : Option (Class N × Bool)} (h : IsMerged cache resolved types) :
    (merged resolved types).isArrayTypes cache = resolved.any fun x => x.1.isArrayClass := by
  obtain ⟨i, hi, heq⟩ := exists_mem_eq_sup types h.nonempty id
  have hsup := h.isArray (types.sup id) (by rwa [heq])
  cases resolved with
  | none => exact (Bool.true_and _).trans hsup
  | some x => exact (congrArg (x.1.isArrayClass && ·) hsup).trans (Bool.and_self _)

/-! ## Resolved references -/

variable {c : Class N} {precise : Bool}

lemma isJavaLangObject_ref : (ref c precise).isJavaLangObject cache = true ↔
      (c, precise) = (.named cache.hierarchy.object, false) := by
  cases c <;> cases precise <;> simp [isJavaLangObject, Class.isObjectClass]

lemma fromClass_of_ne {j : Class N} (hj : Class.isAssignableFrom cache.hierarchy j c = true)
    (hne : c ≠ j) : fromClass cache foundPrecise j = ref j false := by
  have hcannot : j.cannotBeAssignedFromOtherTypes cache.hierarchy = false := by
    by_contra h
    exact hne (Class.eq_of_cannotBeAssignedFromOtherTypes (by simpa using h) hj)
  rw [fromClass, hcannot, Bool.false_and]

variable (cache foundPrecise) in
/-- The merge of two different references is the imprecise reference of their join. -/
lemma mergeRef_spec (hc : c.isPrimitive = false) (hd : d.isPrimitive = false)
    (hne : (c, precise) ≠ (d, precise')) :
    ∃ j, mergeRef cache foundPrecise c precise d precise' = some (ref j false) ∧
      j.isPrimitive = false ∧ RefLe cache.hierarchy (c, precise) (j, false) ∧
        RefLe cache.hierarchy (d, precise') (j, false) := by
  obtain ⟨j, hj, hprim, hjc, hjd⟩ := Class.classJoin_spec (h := cache.hierarchy) hc hd
  refine ⟨j, ?_, hprim, .inr ⟨rfl, hjc⟩, .inr ⟨rfl, hjd⟩⟩
  rw [mergeRef, hj, Option.map_some]
  congr 1
  split_ifs with h1 h2
  · rw [h1.1, h1.2]
  · rw [h2.1, h2.2]
  · -- with one class for both types, one of them would be imprecise
    by_cases hcj : c = j
    · have hdj : d ≠ j := by
        rintro rfl
        subst hcj
        refine hne ?_
        have hp : precise = true := by simpa using h1
        have hp' : precise' = true := by simpa using h2
        rw [hp, hp']
      exact fromClass_of_ne hjd hdj
    · exact fromClass_of_ne hjc hcj

lemma mergeRef_of_le (hcd : Class.isAssignableFrom cache.hierarchy c d = true) :
    mergeRef cache foundPrecise c false d precise' = some (ref c false) := by
  rw [mergeRef, Class.classJoin_of_isAssignableFrom hcd, Option.map_some, if_pos ⟨rfl, rfl⟩]

/-! ## Resolved parts -/

/-- The merge of the resolved parts of unresolved types. -/
def mergeResolved (cache : RegTypeCache N) (foundPrecise : Class N → Bool)
    (x y : Option (Class N × Bool)) : Option (RegType N) :=
  if (ofResolved x : RegType N) = ofResolved y then some (ofResolved x)
  else mergeReference cache foundPrecise (fun _ _ => none) (ofResolved x) (ofResolved y)

omit [DecidableEq N] in
@[simp] lemma isZeroOrNull_zero : (zero : RegType N).isZeroOrNull = true := rfl

lemma mergeReference_ref_ref (hc : (c, precise) ≠ (.named cache.hierarchy.object, false))
    (hd : (d, precise') ≠ (.named cache.hierarchy.object, false)) :
    mergeReference cache foundPrecise f (ref c precise) (ref d precise') =
      mergeRef cache foundPrecise c precise d precise' := by
  have hc' : (ref c precise).isJavaLangObject cache = false := by
    rw [← not_eq_true, isJavaLangObject_ref]
    exact hc
  have hd' : (ref d precise').isJavaLangObject cache = false := by
    rw [← not_eq_true, isJavaLangObject_ref]
    exact hd
  simp [mergeReference, isZeroOrNull, isZero, isUnresolvedTypes, hc', hd']

variable (foundPrecise) in
/-- The resolved parts of a merge are below the merged one. -/
lemma mergeResolved_spec {x y : Option (Class N × Bool)}
    (hx : x ≠ some (.named cache.hierarchy.object, false))
    (hy : y ≠ some (.named cache.hierarchy.object, false))
    (hxprim : ∀ z, x = some z → z.1.isPrimitive = false)
    (hyprim : ∀ z, y = some z → z.1.isPrimitive = false) :
    ∃ z, mergeResolved cache foundPrecise x y = some (ofResolved z) ∧
      (∀ w, z = some w → w.1.isPrimitive = false) ∧ ResolvedLe cache.hierarchy x z ∧
        ResolvedLe cache.hierarchy y z := by
  have hrefl : ∀ z, ResolvedLe cache.hierarchy z z := fun z w hw => ⟨w, hw, .inl rfl⟩
  have hnone : ∀ z, ResolvedLe cache.hierarchy none z := fun z w hw => by cases hw
  unfold mergeResolved
  split_ifs with heq
  · obtain rfl : x = y := by
      cases x <;> cases y <;> simp_all [ofResolved, zero, Prod.ext_iff]
    exact ⟨x, rfl, hxprim, hrefl x, hrefl x⟩
  · cases x with
    | none =>
      cases y with
      | none => exact absurd rfl heq
      | some y => exact ⟨some y, rfl, hyprim, hnone _, hrefl _⟩
    | some x =>
      cases y with
      | none => exact ⟨some x, by simp [mergeReference, ofResolved, selectNonConstant2, isConstantTypes],
          hxprim, hrefl _, hnone _⟩
      | some y =>
        obtain ⟨c, precise⟩ := x
        obtain ⟨d, precise'⟩ := y
        have hne : (c, precise) ≠ (d, precise') := fun h => heq (congrArg (fun z => ofResolved (some z)) h)
        obtain ⟨j, hj, hprim, hcj, hdj⟩ := mergeRef_spec cache foundPrecise
          (hxprim _ rfl) (hyprim _ rfl) hne
        refine ⟨some (j, false), ?_, ?_, ?_, ?_⟩
        · rw [ofResolved, ofResolved, mergeReference_ref_ref (fun h => hx (congrArg some h))
            (fun h => hy (congrArg some h)), hj]
          rfl
        · intro w hw
          cases hw
          exact hprim
        · intro w hw
          cases hw
          exact ⟨_, rfl, hcj⟩
        · intro w hw
          cases hw
          exact ⟨_, rfl, hdj⟩

variable (foundPrecise) in
/-- A resolved part absorbs the ones below. -/
lemma mergeResolved_of_le {x y : Option (Class N × Bool)}
    (hx : x ≠ some (.named cache.hierarchy.object, false))
    (hy : y ≠ some (.named cache.hierarchy.object, false)) (hle : ResolvedLe cache.hierarchy y x) :
    mergeResolved cache foundPrecise x y = some (ofResolved x) := by
  unfold mergeResolved
  split_ifs with heq
  · rfl
  · cases y with
    | none =>
      cases x with
      | none => exact absurd rfl heq
      | some x => simp [mergeReference, ofResolved, selectNonConstant2, isConstantTypes]
    | some y =>
      obtain ⟨x, rfl, hyx⟩ := hle y rfl
      obtain ⟨c, precise⟩ := x
      rcases hyx with heq' | ⟨hc, hcd⟩
      · exact absurd (congrArg (fun z => ofResolved (some z)) heq'.symm) heq
      · obtain rfl : precise = false := hc
        rw [ofResolved, ofResolved, mergeReference_ref_ref (fun h => hx (congrArg some h))
            (fun h => hy (congrArg some h)), mergeRef_of_le hcd]

/-! ## Unresolved types -/

/-- The resolved part of a reference. -/
def resolvedPart : RegType N → Option (Class N × Bool)
  | ref c precise => some (c, precise)
  | merged resolved _ => resolved
  | _ => none

/-- The unresolved types of a reference. -/
def unresolvedPart : RegType N → Finset ℕ
  | merged _ types => types
  | unresolved id => {id}
  | _ => ∅

omit [DecidableEq N] in
lemma parts_of_isRef (ht : IsRef t) : parts cache t =
    (t.unresolvedPart, ofResolved t.resolvedPart, t.isUnresolvedTypes && t.isArrayTypes cache) := by
  cases ht with
  | ref c precise => rfl
  | unresolved id => rfl
  | merged resolved types => exact congrArg (fun b => (types, ofResolved resolved, b)) (Bool.true_and _).symm

lemma fromUnresolvedMerge_eq (ha : IsRef a) (hb : IsRef b) : fromUnresolvedMerge cache foundPrecise a b =
      (mergeResolved cache foundPrecise a.resolvedPart b.resolvedPart).map
        (fromMergedParts cache a b (a.isUnresolvedTypes && a.isArrayTypes cache)
          (b.isUnresolvedTypes && b.isArrayTypes cache) (a.unresolvedPart ∪ b.unresolvedPart)) := by
  rw [fromUnresolvedMerge, parts_of_isRef ha, parts_of_isRef hb]
  rfl

/-- A reference that is no imprecise `Object`. -/
structure IsProper (cache : RegTypeCache N) (t : RegType N) : Prop where
  isRef : IsRef t
  isValid : t.IsValid cache
  not_isJavaLangObject : t.isJavaLangObject cache = false

namespace IsProper

variable (h : IsProper cache t)

include h

lemma resolvedPart_ne : t.resolvedPart ≠ some (.named cache.hierarchy.object, false) := by
  obtain ⟨href, hvalid, hobj⟩ := h
  cases href with
  | ref c precise =>
    intro heq
    rw [isJavaLangObject_ref.mpr (Option.some.inj heq)] at hobj
    cases hobj
  | unresolved id => exact fun heq => by cases heq
  | merged resolved types => exact IsMerged.ne_object hvalid

lemma isPrimitive_resolvedPart (x : Class N × Bool) (hx : t.resolvedPart = some x) :
    x.1.isPrimitive = false := by
  obtain ⟨href, hvalid, -⟩ := h
  cases href with
  | ref c precise =>
    cases hx
    exact hvalid
  | unresolved id => cases hx
  | merged resolved types => exact IsMerged.isPrimitive hvalid x hx

/-- The unresolved types of a reference are arrays if it is. -/
lemma unresolvedIsArray (id : ℕ) (hid : id ∈ t.unresolvedPart) :
    cache.unresolvedIsArray id = t.isArrayTypes cache ∧ t.isUnresolvedTypes = true := by
  obtain ⟨href, hvalid, -⟩ := h
  cases href with
  | ref c precise => exact absurd hid (notMem_empty _)
  | unresolved id' =>
    obtain rfl := mem_singleton.mp hid
    exact ⟨rfl, rfl⟩
  | merged resolved types =>
    exact ⟨(IsMerged.isArray hvalid id hid).trans (IsMerged.isArrayTypes hvalid).symm, rfl⟩

lemma unresolvedPart_nonempty (hu : t.isUnresolvedTypes = true) : t.unresolvedPart.Nonempty := by
  obtain ⟨href, hvalid, -⟩ := h
  cases href with
  | ref c precise => cases hu
  | unresolved id => exact singleton_nonempty id
  | merged resolved types => exact IsMerged.nonempty hvalid

/-- A reference is below a merged type of its parts. -/
lemma le_merged {resolved : Option (Class N × Bool)}
    (hres : ResolvedLe cache.hierarchy t.resolvedPart resolved) (htypes : t.unresolvedPart ⊆ types) :
    Le cache t (merged resolved types) := by
  have hne := h.resolvedPart_ne
  obtain ⟨href, -, -⟩ := h
  cases href with
  | ref c precise => exact .ref_merged (fun heq => hne (congrArg some heq)) hres
  | unresolved id => exact .mem (htypes (mem_singleton_self id))
  | merged resolved' types' => exact .merged hres htypes

end IsProper

lemma isJavaLangObject_ofResolved :
    (ofResolved z).isJavaLangObject cache = true ↔ z = some (.named cache.hierarchy.object, false) := by
  cases z with
  | none => simp [ofResolved, zero, isJavaLangObject]
  | some x => exact isJavaLangObject_ref.trans ⟨congrArg some, Option.some.inj⟩

lemma fromMergedParts_eq {isArray isArray' : Bool} (hz : z ≠ some (.named cache.hierarchy.object, false)) :
    fromMergedParts cache a b isArray isArray' types (ofResolved z) =
      if (isArray || isArray' || (ofResolved z).isArrayTypes cache) &&
        (((ofResolved z).isArrayTypes cache && !(ofResolved z).isObjectArrayTypes) ||
          (!isArray && a.isUnresolvedTypes) || (!isArray' && b.isUnresolvedTypes) ||
            !(ofResolved z).isArrayTypes cache)
      then javaLangObject cache else merged z types := by
  have hobj : (ofResolved z).isJavaLangObject cache = false := by
    rw [← not_eq_true, isJavaLangObject_ofResolved]
    exact hz
  unfold fromMergedParts
  rw [hobj]
  cases z <;> rfl

omit [DecidableEq N] in
lemma isArrayTypes_ofResolved (z : Option (Class N × Bool)) :
    (ofResolved z).isArrayTypes cache = z.any fun x => x.1.isArrayClass := by
  cases z <;> rfl

/-- A merged type is no `Object` if its unresolved types are arrays exactly when the resolved one is. -/
lemma not_object_iff : ∀ unresolved isArray unresolved' isArray' resolved object : Bool,
    ¬((((unresolved && isArray) || (unresolved' && isArray') || resolved) &&
      ((resolved && !object) || (!(unresolved && isArray) && unresolved) ||
        (!(unresolved' && isArray') && unresolved') || !resolved)) = true) ↔
    (unresolved = true → isArray = resolved) ∧ (unresolved' = true → isArray' = resolved) ∧
      (resolved = true → object = true) := by
  decide

variable (foundPrecise) in
lemma fromUnresolvedMerge_spec (ha : IsProper cache a) (hb : IsProper cache b)
    (hu : (a.isUnresolvedTypes || b.isUnresolvedTypes) = true) :
    ∃ r, fromUnresolvedMerge cache foundPrecise a b = some r ∧ r.IsValid cache ∧ Le cache a r ∧
      Le cache b r := by
  obtain ⟨z, hz, hprim, haz, hbz⟩ := mergeResolved_spec foundPrecise
    ha.resolvedPart_ne hb.resolvedPart_ne ha.isPrimitive_resolvedPart hb.isPrimitive_resolvedPart
  have hobject : (javaLangObject cache).IsValid cache ∧ Le cache a (javaLangObject cache) ∧
      Le cache b (javaLangObject cache) := ⟨rfl, .object ha.isRef, .object hb.isRef⟩
  rw [fromUnresolvedMerge_eq ha.isRef hb.isRef, hz, Option.map_some]
  refine ⟨_, rfl, ?_⟩
  by_cases hzobj : z = some (.named cache.hierarchy.object, false)
  · have heq : ∀ isArray isArray' types, fromMergedParts cache a b isArray isArray' types (ofResolved z) =
        javaLangObject cache := by
      intro isArray isArray' types
      unfold fromMergedParts
      rw [if_pos (isJavaLangObject_ofResolved.mpr hzobj), hzobj]
      rfl
    rw [heq]
    exact hobject
  · rw [fromMergedParts_eq hzobj]
    split_ifs with hcond
    · exact hobject
    · obtain ⟨haArray, hbArray, hobjArray⟩ := (not_object_iff _ _ _ _ _ _).1 hcond
      rw [isArrayTypes_ofResolved] at haArray hbArray hobjArray
      refine ⟨⟨?_, hprim, hzobj, ?_, ?_⟩, ha.le_merged haz subset_union_left,
        hb.le_merged hbz subset_union_right⟩
      · rcases Bool.or_eq_true_iff.mp hu with hu | hu
        · exact (ha.unresolvedPart_nonempty hu).mono subset_union_left
        · exact (hb.unresolvedPart_nonempty hu).mono subset_union_right
      · rintro x rfl hx
        exact hobjArray hx
      · intro id hid
        rcases mem_union.mp hid with hid | hid
        · obtain ⟨heq, hu⟩ := ha.unresolvedIsArray id hid
          exact heq.trans (haArray hu)
        · obtain ⟨heq, hu⟩ := hb.unresolvedIsArray id hid
          exact heq.trans (hbArray hu)

/-- A merged type absorbs its parts. -/
lemma fromUnresolvedMerge_of_le (hr : IsMerged cache z types) (ht : IsProper cache t)
    (hres : ResolvedLe cache.hierarchy t.resolvedPart z) (htypes : t.unresolvedPart ⊆ types) :
    fromUnresolvedMerge cache foundPrecise (merged z types) t = some (merged z types) := by
  have hresolved := mergeResolved_of_le foundPrecise hr.ne_object ht.resolvedPart_ne hres
  rw [fromUnresolvedMerge_eq (.merged z types) ht.isRef]
  change (mergeResolved cache foundPrecise z t.resolvedPart).map _ = _
  rw [hresolved, Option.map_some, fromMergedParts_eq hr.ne_object, if_neg]
  · exact congrArg (fun T => some _) (union_eq_left.mpr htypes)
  · rw [hr.isArrayTypes, isArrayTypes_ofResolved]
    refine (not_object_iff true _ _ _ _ _).2 ⟨fun _ => rfl, fun hu => ?_, fun harray => ?_⟩
    · obtain ⟨id, hid⟩ := ht.unresolvedPart_nonempty hu
      rw [← (ht.unresolvedIsArray id hid).1, hr.isArray id (htypes hid)]
    · cases z with
      | none => cases harray
      | some x => exact hr.isObjectArray x rfl harray

/-! ## Constants and primitive types -/

lemma toInt_intMax : (0x7fffffff : BitVec 32).toInt = intMax := by decide

omit [DecidableEq N] in
/-- The merge of two constants is above both. -/
lemma mergeConst_spec (v w : BitVec 32) (precise precise' : Bool) :
    ∃ x, (mergeConst v precise w precise' : RegType N) = const x false ∧
      ConstLe v.toInt precise x.toInt ∧ ConstLe w.toInt precise' x.toInt := by
  have hv := toInt_le_intMax v
  have hw := toInt_le_intMax w
  have hbyte : (-128 : BitVec 32).toInt = -128 := by decide
  have hshort : (-32768 : BitVec 32).toInt = -32768 := by decide
  have hint := toInt_intMax
  unfold mergeConst
  simp only [isConstantByte, isConstantShort, decide_eq_true_eq]
  unfold ConstLe intMax at *
  split_ifs
  all_goals first
    | exact ⟨v, rfl, by omega, by omega⟩
    | exact ⟨w, rfl, by omega, by omega⟩
    | exact ⟨_, rfl, by omega, by omega⟩

lemma le_boolean (h : t.isBooleanTypes = true) : Le cache t (prim .boolean) := by
  cases t with
  | prim p => cases p <;> first | exact .refl _ | cases h
  | const v precise =>
    have hv : 0 ≤ v.toInt ∧ v.toInt ≤ 1 := of_decide_eq_true h
    exact .fits hv
  | _ => cases h

lemma le_byte (h : t.isByteTypes = true) : Le cache t (prim .byte) := by
  cases t with
  | prim p => cases p <;> first | exact .prim rfl | cases h
  | const v precise =>
    have hv : -128 ≤ v.toInt ∧ v.toInt ≤ 127 := of_decide_eq_true h
    exact .fits hv
  | _ => cases h

lemma le_short (h : t.isShortTypes = true) : Le cache t (prim .short) := by
  cases t with
  | prim p => cases p <;> first | exact .prim rfl | cases h
  | const v precise =>
    have hv : -32768 ≤ v.toInt ∧ v.toInt ≤ 32767 := of_decide_eq_true h
    exact .fits hv
  | _ => cases h

lemma le_char (h : t.isCharTypes = true) : Le cache t (prim .char) := by
  cases t with
  | prim p => cases p <;> first | exact .prim rfl | cases h
  | const v precise =>
    refine .fits ?_
    simp only [isCharTypes, isBooleanTypes, isConstantBoolean, isConstantChar, or_eq_true,
      decide_eq_true_eq] at h
    show 0 ≤ v.toInt ∧ v.toInt ≤ 65535
    omega
  | _ => cases h

lemma le_integer (h : t.isIntegralTypes = true) : Le cache t (prim .integer) := by
  cases t with
  | prim p => cases p <;> first | exact .prim rfl | cases h
  | const v precise => exact .fits trivial
  | _ => cases h

variable (cache) in
/-- The merge of integral types is above both. -/
lemma mergeIntegral_spec (ha : a.isIntegralTypes = true) (hb : b.isIntegralTypes = true) :
    ∃ p, mergeIntegral a b = prim p ∧ Le cache a (prim p) ∧ Le cache b (prim p) := by
  simp only [mergeIntegral, Bool.and_eq_true]
  split_ifs with h1 h2 h3 h4
  · exact ⟨_, rfl, le_boolean h1.1, le_boolean h1.2⟩
  · exact ⟨_, rfl, le_byte h2.1, le_byte h2.2⟩
  · exact ⟨_, rfl, le_short h3.1, le_short h3.2⟩
  · exact ⟨_, rfl, le_char h4.1, le_char h4.2⟩
  · exact ⟨_, rfl, le_integer ha, le_integer hb⟩

/-- A type that is chosen is above the constant. -/
lemma selectNonConstant_spec
    (h : ((a.isFloatTypes && b.isFloatTypes) || (a.isLongTypes && b.isLongTypes) ||
      (a.isLongHighTypes && b.isLongHighTypes) || (a.isDoubleTypes && b.isDoubleTypes) ||
        (a.isDoubleHighTypes && b.isDoubleHighTypes)) = true)
    (hint : ¬(a.isIntegralTypes && b.isIntegralTypes) = true)
    (hlo : ∀ v p w q, a = constLo v p → b = constLo w q → False)
    (hhi : ∀ v p w q, a = constHi v p → b = constHi w q → False) :
    (selectNonConstant a b).IsValid cache ∧ Le cache a (selectNonConstant a b) ∧
      Le cache b (selectNonConstant a b) := by
  cases a with
  | prim p =>
    cases b with
    | prim q => cases p <;> cases q <;> first | exact ⟨trivial, .refl _, .refl _⟩ | cases h
    | const v precise => cases p <;> first | exact ⟨trivial, .refl _, .fits trivial⟩ | cases h
    | constLo v precise => cases p <;> first
        | exact ⟨trivial, .refl _, .fitsLo (.inl rfl)⟩
        | exact ⟨trivial, .refl _, .fitsLo (.inr rfl)⟩
        | cases h
    | constHi v precise => cases p <;> first
        | exact ⟨trivial, .refl _, .fitsHi (.inl rfl)⟩
        | exact ⟨trivial, .refl _, .fitsHi (.inr rfl)⟩
        | cases h
    | _ => cases p <;> cases h
  | const v precise =>
    cases b with
    | prim q => cases q <;> first | exact ⟨trivial, .fits trivial, .refl _⟩ | cases h
    | const w precise' => exact absurd rfl hint
    | _ => cases h
  | constLo v precise =>
    cases b with
    | prim q => cases q <;> first
        | exact ⟨trivial, .fitsLo (.inl rfl), .refl _⟩
        | exact ⟨trivial, .fitsLo (.inr rfl), .refl _⟩
        | cases h
    | constLo w precise' => exact (hlo _ _ _ _ rfl rfl).elim
    | _ => cases h
  | constHi v precise =>
    cases b with
    | prim q => cases q <;> first
        | exact ⟨trivial, .fitsHi (.inl rfl), .refl _⟩
        | exact ⟨trivial, .fitsHi (.inr rfl), .refl _⟩
        | cases h
    | constHi w precise' => exact (hhi _ _ _ _ rfl rfl).elim
    | _ => cases h
  | _ => cases b <;> cases h

/-! ## References -/

section

omit [DecidableEq N]

/-- What `IsReferenceTypes()` and not `IsUninitializedTypes()` says. -/
lemma isRef_or_of_isReferenceTypes (h : t.isReferenceTypes = true)
    (hu : t.isUninitializedTypes = false) : t = zero ∨ t = null ∨ IsRef t := by
  cases t with
  | ref c precise => exact .inr (.inr (.ref c precise))
  | unresolved id => exact .inr (.inr (.unresolved id))
  | merged resolved types => exact .inr (.inr (.merged resolved types))
  | null => exact .inr (.inl rfl)
  | uninitialized id => cases hu
  | const v precise =>
    have hz : precise = true ∧ v = 0 := by simpa [isReferenceTypes, isNonZeroReferenceTypes,
      isZeroOrNull, isZero] using h
    rw [hz.1, hz.2]
    exact .inl rfl
  | _ => cases h

lemma IsRef.isZeroOrNull (h : IsRef t) : t.isZeroOrNull = false := by
  cases h <;> rfl

lemma IsRef.isConstantTypes (h : IsRef t) : t.isConstantTypes = false := by
  cases h <;> rfl

lemma IsRef.isZero (h : IsRef t) : t.isZero = false := by
  cases h <;> rfl

end

/-- The merge of references of which one is zero. -/
lemma selectNonConstant2_spec (ha : a.IsValid cache) (hb : b.IsValid cache)
    (hra : a = zero ∨ a = null ∨ IsRef a) (hrb : b = zero ∨ b = null ∨ IsRef b)
    (h : (a.isZeroOrNull || b.isZeroOrNull) = true) :
    (selectNonConstant2 a b).IsValid cache ∧ Le cache a (selectNonConstant2 a b) ∧
      Le cache b (selectNonConstant2 a b) := by
  rcases hra with rfl | rfl | hra
  · rcases hrb with rfl | rfl | hrb
    · exact ⟨ha, .refl _, .refl _⟩
    · exact ⟨hb, .zero_null, .refl _⟩
    · have heq : selectNonConstant2 zero b = b := by
        simp [selectNonConstant2, zero, RegType.isConstantTypes, hrb.isZero]
      rw [heq]
      exact ⟨hb, .zero_ref hrb, .refl _⟩
  · rcases hrb with rfl | rfl | hrb
    · exact ⟨ha, .refl _, .zero_null⟩
    · exact ⟨ha, .refl _, .refl _⟩
    · have heq : selectNonConstant2 null b = b := by
        simp [selectNonConstant2, RegType.isConstantTypes, hrb.isZero]
      rw [heq]
      exact ⟨hb, .null_ref hrb, .refl _⟩
  · have heq : selectNonConstant2 a b = a := by simp [selectNonConstant2, hra.isConstantTypes]
    rw [heq]
    rcases hrb with rfl | rfl | hrb
    · exact ⟨ha, .refl _, .zero_ref hra⟩
    · exact ⟨ha, .refl _, .null_ref hra⟩
    · rw [hra.isZeroOrNull, hrb.isZeroOrNull] at h
      cases h

variable (foundPrecise) in
/-- The merge of references is above both. -/
lemma mergeReference_spec (ha : a.IsValid cache) (hb : b.IsValid cache) (hne : a ≠ b)
    (hra : a = zero ∨ a = null ∨ IsRef a) (hrb : b = zero ∨ b = null ∨ IsRef b) :
    ∃ r, mergeReference cache foundPrecise (fromUnresolvedMerge cache foundPrecise) a b = some r ∧
      r.IsValid cache ∧ Le cache a r ∧ Le cache b r := by
  unfold mergeReference
  split_ifs with hzero hobj hunres
  · exact ⟨_, rfl, selectNonConstant2_spec ha hb hra hrb hzero⟩
  all_goals
    have hra : IsRef a := by
      rcases hra with rfl | rfl | hra
      · exact absurd rfl hzero
      · exact absurd rfl hzero
      · exact hra
    have hrb : IsRef b := by
      rcases hrb with rfl | rfl | hrb
      · exact absurd (Bool.or_true _) hzero
      · exact absurd (Bool.or_true _) hzero
      · exact hrb
  · exact ⟨_, rfl, rfl, .object hra, .object hrb⟩
  all_goals
    rw [or_eq_true, not_or, not_eq_true, not_eq_true] at hobj
  · exact fromUnresolvedMerge_spec foundPrecise ⟨hra, ha, hobj.1⟩ ⟨hrb, hb, hobj.2⟩ hunres
  · cases hra with
    | ref c precise =>
      cases hrb with
      | ref d precise' =>
        have hne : (c, precise) ≠ (d, precise') := by
          rintro heq
          cases heq
          exact hne rfl
        obtain ⟨j, hj, hprim, hcj, hdj⟩ := mergeRef_spec cache foundPrecise ha hb hne
        exact ⟨_, hj, hprim, .ref hcj, .ref hdj⟩
      | unresolved id => exact absurd rfl hunres
      | merged resolved types => exact absurd rfl hunres
    | unresolved id => exact absurd rfl hunres
    | merged resolved types => exact absurd rfl hunres

/-! ## All types -/

variable (foundPrecise) in
/-- The merge of two types is found, and is above both. -/
lemma safeMerge_spec (ha : a.IsValid cache) (hb : b.IsValid cache) :
    ∃ r, safeMerge cache foundPrecise a b = some r ∧ r.IsValid cache ∧ Le cache a r ∧ Le cache b r := by
  unfold safeMerge
  split_ifs with heq
  · exact ⟨a, rfl, ha, .refl a, heq ▸ .refl a⟩
  unfold merge
  split_ifs with hundefined hconf
  · exact ⟨_, rfl, trivial, .undefined a, .undefined b⟩
  · rw [not_or] at hundefined
    exact ⟨_, rfl, trivial, .conflict hundefined.1, .conflict hundefined.2⟩
  rw [not_or] at hundefined
  have hconflict : ∃ r, some conflict = some r ∧ r.IsValid cache ∧ Le cache a r ∧ Le cache b r :=
    ⟨_, rfl, trivial, .conflict hundefined.1, .conflict hundefined.2⟩
  split
  · next v precise w precise' =>
    obtain ⟨x, hx, hv, hw⟩ := mergeConst_spec (N := N) v w precise precise'
    rw [hx]
    exact ⟨_, rfl, trivial, .const hv, .const hw⟩
  · refine ⟨_, rfl, trivial, .constLo ?_, .constLo ?_⟩
    · rw [← BitVec.or_assoc, BitVec.or_self]
    · rw [BitVec.or_comm, BitVec.or_assoc, BitVec.or_self]
  · refine ⟨_, rfl, trivial, .constHi ?_, .constHi ?_⟩
    · rw [← BitVec.or_assoc, BitVec.or_self]
    · rw [BitVec.or_comm, BitVec.or_assoc, BitVec.or_self]
  · next hconst hlo hhi =>
    split_ifs with hint hkind href huninit
    · rw [Bool.and_eq_true] at hint
      obtain ⟨p, hp, hap, hbp⟩ := mergeIntegral_spec cache hint.1 hint.2
      rw [hp]
      exact ⟨_, rfl, trivial, hap, hbp⟩
    · exact ⟨_, rfl, selectNonConstant_spec hkind hint hlo hhi⟩
    · exact hconflict
    · rw [Bool.and_eq_true] at href
      rw [or_eq_true, not_or, not_eq_true, not_eq_true] at huninit
      exact mergeReference_spec foundPrecise ha hb heq
        (isRef_or_of_isReferenceTypes href.1 huninit.1) (isRef_or_of_isReferenceTypes href.2 huninit.2)
    · exact hconflict

/-! ## Absorption -/

/-- Constants that are not absorbed: the imprecise one came out of a merge of constants with different
    signs and then of smaller ones, and is merged to `ShortConstant` or `IntConstant` again. -/
def IsUnabsorbed (r t : RegType N) : Prop :=
  ∃ (w v : BitVec 32) (precise : Bool), r = const w false ∧ t = const v precise ∧
    w.toInt < -128 ∧ w.toInt ≠ -32768 ∧ 0 ≤ v.toInt

variable {v : BitVec 32}

omit [DecidableEq N] in
lemma mergeConst_of_le {w : BitVec 32} (h : ConstLe v.toInt precise w.toInt) :
    (mergeConst w false v precise : RegType N) = const w false ∨
      (w.toInt < -128 ∧ w.toInt ≠ -32768 ∧ 0 ≤ v.toInt) := by
  rcases h with ⟨hv, hvw⟩ | ⟨hv, hwv⟩ | ⟨hv, hw⟩ | ⟨hv, hw, hbyte, hshort, -⟩
  · exact .inl (by rw [mergeConst, if_pos ⟨by omega, hv⟩, if_pos hvw])
  · exact .inl (by rw [mergeConst, if_neg (by omega), if_pos ⟨by omega, hv⟩, if_pos hwv])
  · obtain rfl : w = 0x7fffffff := BitVec.eq_of_toInt_eq (hw.trans toInt_intMax.symm)
    refine .inl ?_
    rw [mergeConst, if_neg (by omega), if_neg (by rw [toInt_intMax, intMax]; omega)]
    rfl
  · by_cases hw1 : w.toInt = -128
    · obtain rfl : w = -128 := BitVec.eq_of_toInt_eq hw1
      have hvbyte : (const v precise : RegType N).isConstantByte = true :=
        decide_eq_true ⟨by omega, hbyte (by omega)⟩
      exact .inl (by rw [mergeConst, if_neg (by omega), if_neg (by omega), if_pos (by rfl), if_pos hvbyte]; rfl)
    · by_cases hw2 : w.toInt = -32768
      · obtain rfl : w = -32768 := BitVec.eq_of_toInt_eq hw2
        have hvshort : (const v precise : RegType N).isConstantShort = true :=
          decide_eq_true ⟨by omega, hshort (by omega)⟩
        exact .inl (by
          rw [mergeConst, if_neg (by omega), if_neg (by omega), if_neg (by exact Bool.false_ne_true),
            if_pos (by rfl), if_pos hvshort]
          rfl)
      · exact .inr ⟨by omega, hw2, hv⟩

variable {r t : RegType N}

/-- References are merged as such. -/
lemma merge_of_isRef (hr : IsRef r) (ht : t = zero ∨ t = null ∨ IsRef t) : merge cache foundPrecise r t =
      mergeReference cache foundPrecise (fromUnresolvedMerge cache foundPrecise) r t := by
  rcases ht with rfl | rfl | ht
  · cases hr <;> rfl
  · cases hr <;> rfl
  · cases hr <;> cases ht <;> rfl

lemma mergeReference_of_object (ht : IsRef t) :
    mergeReference cache foundPrecise f (javaLangObject cache) t = some (javaLangObject cache) := by
  have hobj : (javaLangObject cache).isJavaLangObject cache = true := isJavaLangObject_ref.mpr rfl
  have hzero : (javaLangObject cache).isZeroOrNull = false := rfl
  unfold mergeReference
  rw [hzero, ht.isZeroOrNull, hobj]
  rfl

/-- A merged type absorbs the proper references that are below. -/
lemma mergeReference_merged (hr : IsMerged cache z types) (ht : IsProper cache t)
    (hres : ResolvedLe cache.hierarchy t.resolvedPart z) (htypes : t.unresolvedPart ⊆ types) :
    mergeReference cache foundPrecise (fromUnresolvedMerge cache foundPrecise) (merged z types) t =
      some (merged z types) := by
  unfold mergeReference
  rw [ht.isRef.isZeroOrNull, ht.not_isJavaLangObject]
  exact fromUnresolvedMerge_of_le hr ht hres htypes

/-- An imprecise reference absorbs those of classes that can be assigned to it. -/
lemma mergeReference_ref_of_le (hle : Class.isAssignableFrom cache.hierarchy c d = true) :
    mergeReference cache foundPrecise f (ref c false) (ref d precise) = some (ref c false) := by
  by_cases hc : (c, false) = (.named cache.hierarchy.object, false)
  · obtain rfl := (Prod.mk.inj hc).1
    exact mergeReference_of_object (.ref d precise)
  · have hd : (d, precise) ≠ (.named cache.hierarchy.object, false) := by
      rintro heq
      exact hc (refLe_object (heq ▸ .inr ⟨rfl, hle⟩))
    rw [mergeReference_ref_ref hc hd, mergeRef_of_le hle]

variable {p : PrimitiveRegType}

lemma merge_prim_of_fits (hfits : p.Fits v.toInt) :
    merge cache foundPrecise (prim p) (const v precise) = some (prim p) := by
  cases p with
  | integer => rfl
  | float => rfl
  | longLo | longHi | doubleLo | doubleHi => cases hfits
  | boolean =>
    have hconst : (const v precise : RegType N).isBooleanTypes = true := decide_eq_true hfits
    show some _ = _
    rw [mergeIntegral, hconst]
    rfl
  | byte =>
    have hconst : (const v precise : RegType N).isByteTypes = true := decide_eq_true hfits
    show some _ = _
    rw [mergeIntegral, hconst]
    rfl
  | short =>
    have hconst : (const v precise : RegType N).isShortTypes = true := decide_eq_true hfits
    show some _ = _
    rw [mergeIntegral, hconst]
    rfl
  | char =>
    have hconst : (const v precise : RegType N).isCharTypes = true :=
      (or_eq_true _ _).mpr (.inr (decide_eq_true hfits))
    show some _ = _
    rw [mergeIntegral, hconst]
    rfl

variable (foundPrecise) in
/-- A type absorbs the types below. -/
lemma safeMerge_of_le (hr : r.IsValid cache) (ht : t.IsValid cache) (h : Le cache t r) :
    safeMerge cache foundPrecise r t = some r ∨ IsUnabsorbed r t := by
  by_cases heq : r = t
  · exact .inl (if_pos heq)
  rw [safeMerge, if_neg heq]
  cases h with
  | refl => exact absurd rfl heq
  | undefined => exact .inl (by simp [merge])
  | conflict hne => exact .inl (by simp [merge, hne])
  | const hle =>
    next v w precise =>
    rcases mergeConst_of_le (N := N) hle with hmerge | ⟨h1, h2, h3⟩
    · exact .inl (by simp [merge, hmerge])
    · exact .inr ⟨w, v, precise, rfl, rfl, h1, h2, h3⟩
  | constLo hle | constHi hle => exact .inl (by simp [merge, BitVec.or_comm, hle])
  | @prim p q hle => cases p <;> cases q <;> first | exact .inl rfl | cases hle
  | fits hfits => exact .inl (merge_prim_of_fits hfits)
  | fitsLo hp | fitsHi hp => rcases hp with rfl | rfl <;> exact .inl rfl
  | zero_null => exact .inl rfl
  | zero_ref href | null_ref href =>
    rw [merge_of_isRef href (by simp [zero])]
    unfold mergeReference selectNonConstant2
    rw [href.isZeroOrNull, href.isConstantTypes]
    exact .inl rfl
  | ref hle =>
    rcases hle with heq' | ⟨hprecise, hle⟩
    · obtain ⟨rfl, rfl⟩ := Prod.mk.inj heq'
      exact absurd rfl heq
    · obtain rfl := hprecise
      rw [merge_of_isRef (.ref _ _) (.inr (.inr (.ref _ _))), mergeReference_ref_of_le hle]
      exact .inl rfl
  | object href =>
    have hobj : IsRef (javaLangObject cache) := .ref _ _
    rw [merge_of_isRef hobj (.inr (.inr href)), mergeReference_of_object href]
    exact .inl rfl
  | mem hid =>
    rw [merge_of_isRef (.merged _ _) (.inr (.inr (.unresolved _))), mergeReference_merged hr
      ⟨.unresolved _, trivial, rfl⟩ (fun x hx => by cases hx) (singleton_subset_iff.mpr hid)]
    exact .inl rfl
  | ref_merged hne hle =>
    have hobj := Bool.eq_false_iff.mpr fun h => hne (isJavaLangObject_ref.mp h)
    rw [merge_of_isRef (.merged _ _) (.inr (.inr (.ref _ _))), mergeReference_merged hr
      ⟨.ref _ _, ht, hobj⟩ hle (empty_subset _)]
    exact .inl rfl
  | merged hres htypes =>
    rw [merge_of_isRef (.merged _ _) (.inr (.inr (.merged _ _))), mergeReference_merged hr
      ⟨.merged _ _, ht, rfl⟩ hres htypes]
    exact .inl rfl

end RegType
end Art
