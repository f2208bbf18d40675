import Art.Lib.Loop
import Art.Profile.MergeData

/-!
# Merging profiles

`ProfileCompilationInfo::MergeWith` adds the dex files and the extra descriptors of the other profile,
which are found by index from then on, and then merges the data of the dex files. What a profile says
becomes the join of what both said; so merging is commutative, associative and idempotent on contents,
whatever the numberings.
-/

namespace Art
namespace ProfileCompilationInfo

open List DexFileData Option ProfileCompilationInfo

/-! ## Dex files by key -/

variable {p q other : ProfileCompilationInfo} {o : DexFileData} {i : ℕ} {otherExtra : List String}
  {k : String} {d : DexFileData}

lemma mem_of_findDexData (h : p.findDexData k = some d) : d ∈ p.info ∧ d.profileKey = k :=
  ⟨mem_of_find?_eq_some h, by simpa using find?_some h⟩

lemma findDexData_of_mem (hkeys : (p.info.map (·.profileKey)).Nodup) (h : d ∈ p.info) :
    p.findDexData d.profileKey = some d := by
  unfold findDexData
  generalize p.info = l at hkeys h
  induction l with
  | nil => cases h
  | cons e l ih =>
    rw [map_cons, nodup_cons] at hkeys
    rcases mem_cons.1 h with rfl | hmem
    · rw [find?_cons_of_pos (by simp)]
    · rw [find?_cons_of_neg, ih hkeys.2 hmem]
      simp only [decide_eq_true_eq]
      intro heq
      exact hkeys.1 (heq ▸ mem_map_of_mem hmem)

lemma findDexData_eq_none : p.findDexData k = none ↔ ∀ d ∈ p.info, d.profileKey ≠ k := by
  simp [findDexData]

/-- A dex file is found at an index. -/
def Found (p : ProfileCompilationInfo) (o : DexFileData) (i : ℕ) : Prop :=
  ∃ d, p.info[i]? = some d ∧ d.profileKey = o.profileKey ∧ d.header = o.header

/-! ## Adding dex files -/

/-- Dex files of another profile were added, without data. -/
structure Adds (other : List DexFileData) (p q : ProfileCompilationInfo) : Prop where
  forBootImage : q.forBootImage = p.forBootImage
  extraDescriptors : q.extraDescriptors = p.extraDescriptors
  info : p.info <+: q.info
  new : ∀ d ∈ q.info, d ∈ p.info ∨ ∃ o ∈ other, d =
    .new o.profileKey o.checksum o.numTypeIds o.numMethodIds p.forBootImage

lemma Adds.refl (other : List DexFileData) (p : ProfileCompilationInfo) : Adds other p p :=
  ⟨rfl, rfl, prefix_rfl, fun _ hd => .inl hd⟩

variable {r : ProfileCompilationInfo}

lemma Adds.trans {other : List DexFileData} (h : Adds other p q) (h' : Adds other q r) :
    Adds other p r where
  forBootImage := h'.forBootImage.trans h.forBootImage
  extraDescriptors := h'.extraDescriptors.trans h.extraDescriptors
  info := h.info.trans h'.info
  new d hd := (h'.new d hd).elim (h.new d) fun hnew => .inr (h.forBootImage ▸ hnew)

lemma Adds.found {other : List DexFileData} (h : Adds other p q) (hfound : p.Found o i) : q.Found o i := by
  obtain ⟨d, hd, hkey⟩ := hfound
  obtain ⟨l, hl⟩ := h.info
  have hi := (List.getElem?_eq_some_iff.1 hd).1
  exact ⟨d, by rw [← hl, List.getElem?_append_left hi, hd], hkey⟩

lemma isValid_new (forBootImage : Bool) (extra : List String) (hnum : o.numTypeIds < 2 ^ 32) :
    (new o.profileKey o.checksum o.numTypeIds
      o.numMethodIds forBootImage).IsValid forBootImage extra where
  numTypeIds_lt := hnum
  length_bitmapStorage := length_replicate
  classSet _ ht := absurd ht not_mem_nil
  methodMap := AssocMap.forall_empty _

/-- A new dex file says nothing. -/
lemma content_new (forBootImage : Bool) (extra : List String) (o : DexFileData) :
    (new o.profileKey o.checksum o.numTypeIds o.numMethodIds forBootImage).content
      forBootImage extra = ⊥ := by
  refine Prod.ext ?_ (Prod.ext ?_ rfl)
  · refine Set.eq_empty_iff_forall_notMem.2 fun x hx => ?_
    have hload : _ = true := hx.2.2
    rw [loadFlag, new, getD_eq_getElem?_getD] at hload
    simp at hload
  · refine Set.eq_empty_iff_forall_notMem.2 ?_
    rintro n ⟨t, ht, -⟩
    cases ht

lemma getOrAddDexFileData_spec {other : List DexFileData} (ho : o ∈ other)
    (hnum : o.numTypeIds < 2 ^ 32) (hp : p.IsValid)
    (h : p.getOrAddDexFileData o.profileKey o.checksum o.numTypeIds o.numMethodIds = some (q, i)) :
    q.IsValid ∧ Adds other p q ∧ q.Found o i := by
  obtain ⟨⟨q', i'⟩, hstep, h⟩ := Option.bind_eq_some_iff.1 h
  obtain ⟨d, hd, h⟩ := Option.bind_eq_some_iff.1 h
  split_ifs at h with hchecksum hcounts
  obtain ⟨rfl, rfl⟩ : q' = q ∧ i' = i := by simpa using h
  push Not at hchecksum hcounts
  have hheader : d.header = o.header := by
    rw [DexFileData.header, hchecksum, ← hcounts.1, ← hcounts.2, DexFileData.header]
  unfold findOrAddDexFileData at hstep
  split at hstep
  · next j hj =>
    obtain ⟨rfl, rfl⟩ : p = q' ∧ j = i' := by simpa using hstep
    obtain ⟨hlt, hkey, -⟩ := findIdx?_eq_some_iff_getElem.1 hj
    rw [getElem?_eq_getElem hlt] at hd
    cases hd
    refine ⟨hp, Adds.refl _ _, _, getElem?_eq_getElem hlt, of_decide_eq_true hkey, hheader⟩
  · next hj =>
    split_ifs at hstep with hmax
    cases hstep
    rw [getElem?_concat_length] at hd
    cases hd
    rw [findIdx?_eq_none_iff] at hj
    refine ⟨⟨?_, hp.extraDescriptors, hp.length_extraDescriptors, ?_⟩, ⟨rfl, rfl,
      prefix_append _ _, ?_⟩, _, getElem?_concat_length, rfl, hheader⟩
    · rw [map_append, nodup_append']
      refine ⟨hp.keys, nodup_singleton _, ?_⟩
      rintro k hk hnew
      obtain ⟨d, hd, rfl⟩ := mem_map.1 hk
      have hne := hj d hd
      rw [map_singleton, mem_singleton] at hnew
      exact of_decide_eq_false hne hnew
    · intro d hd
      rcases mem_append.1 hd with hd | hd
      · exact hp.info d hd
      · obtain rfl := mem_singleton.1 hd
        exact isValid_new _ _ hnum
    · intro d hd
      rcases mem_append.1 hd with hd | hd
      · exact .inl hd
      · exact .inr ⟨o, ho, mem_singleton.1 hd⟩

/-! ## Adding extra descriptors -/

/-- Extra descriptors were added. -/
structure AddsExtra (p q : ProfileCompilationInfo) : Prop where
  forBootImage : q.forBootImage = p.forBootImage
  info : q.info = p.info
  extraDescriptors : ∃ l, q.extraDescriptors = p.extraDescriptors ++ l

lemma AddsExtra.refl (p : ProfileCompilationInfo) : AddsExtra p p := ⟨rfl, rfl, [], (append_nil _).symm⟩

lemma AddsExtra.trans (h : AddsExtra p q) (h' : AddsExtra q r) : AddsExtra p r := by
  obtain ⟨l, hl⟩ := h.extraDescriptors
  obtain ⟨l', hl'⟩ := h'.extraDescriptors
  refine ⟨h'.forBootImage.trans h.forBootImage, h'.info.trans h.info, l ++ l', ?_⟩
  rw [hl', hl, append_assoc]

variable {s : String}

lemma AddsExtra.getElem? (h : AddsExtra p q) (hi : p.extraDescriptors[i]? = some s) :
    q.extraDescriptors[i]? = some s := by
  obtain ⟨l, hl⟩ := h.extraDescriptors
  rw [hl, List.getElem?_append_left (List.getElem?_eq_some_iff.1 hi).1, hi]

lemma getOrAddExtraDescriptor_spec (hp : p.IsValid) (h : p.getOrAddExtraDescriptor s = some (q, i)) :
    q.IsValid ∧ AddsExtra p q ∧ q.extraDescriptors[i]? = some s := by
  unfold getOrAddExtraDescriptor at h
  split at h
  · next j hj =>
    obtain ⟨rfl, rfl⟩ : p = q ∧ j = i := by simpa using h
    obtain ⟨hlt, hkey, -⟩ := findIdx?_eq_some_iff_getElem.1 hj
    exact ⟨hp, AddsExtra.refl _, List.getElem?_eq_some_iff.2 ⟨hlt, of_decide_eq_true hkey⟩⟩
  · next hj =>
    split_ifs at h with hmax
    cases h
    rw [findIdx?_eq_none_iff] at hj
    have hle := hp.length_extraDescriptors
    refine ⟨⟨hp.keys, ?_, ?_, fun d hd => (hp.info d hd).append [s]⟩, ⟨rfl, rfl, [s], rfl⟩,
      getElem?_concat_length⟩
    · refine nodup_append'.2 ⟨hp.extraDescriptors, nodup_singleton _, ?_⟩
      intro s' hs' hnew
      exact of_decide_eq_false (hj s' hs') (mem_singleton.1 hnew)
    · rw [length_append, length_singleton]
      omega

/-! ## Merging the data -/

variable {d' : DexFileData}

/-- Replacing the data of a dex file changes what is found for its key. -/
lemma findDexData_set (hkeys : (p.info.map (·.profileKey)).Nodup) (hd : p.info[i]? = some d)
    (hkey : d'.profileKey = d.profileKey) (k : String) :
    ({ p with info := p.info.set i d' } : ProfileCompilationInfo).findDexData k =
      if k = d.profileKey then some d' else p.findDexData k := by
  unfold findDexData
  generalize p.info = l at hkeys hd
  induction l generalizing i with
  | nil => cases hd
  | cons e l ih =>
    rw [map_cons, nodup_cons] at hkeys
    cases i with
    | zero =>
      obtain rfl := some.inj hd
      rw [set_cons_zero, find?_cons, find?_cons, hkey]
      by_cases hk : k = e.profileKey
      · simp [hk]
      · rw [if_neg hk, decide_eq_false (Ne.symm hk)]
    | succ i =>
      rw [set_cons_succ, find?_cons, ih hkeys.2 hd, find?_cons]
      by_cases hk : k = d.profileKey
      · -- the key of a later dex file is not the first one
        have hne : e.profileKey ≠ k := by
          intro h
          refine hkeys.1 (h ▸ hk ▸ mem_map_of_mem ?_)
          exact mem_of_getElem? (by simpa using hd)
        rw [if_pos hk, if_pos hk, decide_eq_false hne]
      · rw [if_neg hk, if_neg hk]

/-- The data of a list of dex files were merged. -/
structure Joins (otherExtra : List String) (l : List DexFileData) (p q : ProfileCompilationInfo) :
    Prop where
  isValid : q.IsValid
  forBootImage : q.forBootImage = p.forBootImage
  extraDescriptors : q.extraDescriptors = p.extraDescriptors
  header : ∀ k, q.header k = p.header k
  content : ∀ k, q.content k = p.content k ⊔
    AssocMap.lift (DexFileData.content p.forBootImage otherExtra) (l.find? (·.profileKey = k))

variable (hp : p.IsValid) (hd : p.info[i]? = some d)

include hp hd in
/-- Merging the data of one dex file. -/
lemma joins_set (hkey : d.profileKey = o.profileKey)
    (hvalid : d'.IsValid p.forBootImage p.extraDescriptors) (hkey' : d'.profileKey = d.profileKey)
    (hheader : d'.header = d.header) (hcontent : d'.content p.forBootImage p.extraDescriptors =
      d.content p.forBootImage p.extraDescriptors ⊔ o.content p.forBootImage otherExtra) :
    Joins otherExtra [o] p { p with info := p.info.set i d' } := by
  have hmem : d ∈ p.info := mem_of_getElem? hd
  have hfind := findDexData_of_mem hp.keys hmem
  have hset := findDexData_set hp.keys hd hkey'
  have hi := List.getElem?_eq_some_iff.1 hd
  refine ⟨⟨?_, hp.extraDescriptors, hp.length_extraDescriptors, ?_⟩, rfl, rfl, ?_, ?_⟩
  · have hmap : (p.info.set i d').map (·.profileKey) = p.info.map (·.profileKey) := by
      have hlt : i < (p.info.map (·.profileKey)).length := by simpa using hi.1
      have hget : d'.profileKey = (p.info.map (·.profileKey))[i] := by rw [getElem_map, hi.2, hkey']
      rw [map_set, hget, set_getElem_self]
    exact hmap ▸ hp.keys
  · intro e he
    rcases mem_or_eq_of_mem_set he with he | rfl
    · exact hp.info e he
    · exact hvalid
  · intro k
    rw [header, hset]
    split_ifs with hk
    · rw [header, hk, hfind, Option.map_some, Option.map_some, hheader]
    · rfl
  · intro k
    rw [content, hset, content]
    by_cases hk : k = d.profileKey
    · have hk' : o.profileKey = k := hkey.symm.trans hk.symm
      rw [if_pos hk, find?_cons_of_pos (by simpa using hk'), hk, hfind]
      exact congrArg WithBot.some hcontent
    · have hk' : o.profileKey ≠ k := fun h => hk (hkey.trans h).symm
      rw [if_neg hk, find?_cons_of_neg (by simpa using hk'), find?_nil]
      exact (sup_bot_eq _).symm

include hd in
lemma found_set {j : ℕ} (hkey : d'.profileKey = d.profileKey) (hheader : d'.header = d.header)
    (h : p.Found o j) : ({ p with info := p.info.set i d' } : ProfileCompilationInfo).Found o j := by
  obtain ⟨e, he, hekey, heheader⟩ := h
  by_cases hij : i = j
  · subst hij
    obtain rfl := Option.some.inj (hd.symm.trans he)
    refine ⟨d', ?_, hkey.trans hekey, hheader.trans heheader⟩
    exact List.getElem?_set_self (List.getElem?_eq_some_iff.1 hd).1
  · exact ⟨e, (getElem?_set_ne hij).trans he, hekey, heheader⟩

variable {remap : List ℕ} (hlen : otherExtra.length ≤ kMaxExtraDescriptors)
  (hremap : Remaps remap otherExtra p.extraDescriptors)

include hp hlen hremap in
/-- One round of the loop over the dex files of the other profile. -/
lemma joins_mergeDexFileData (hd : p.info[i]? = some d) (hfound : p.Found o i)
    (ho : o.IsValid p.forBootImage otherExtra) (h : mergeDexFileData remap true d o = some d') :
    Joins otherExtra [o] p { p with info := p.info.set i d' } ∧
      ∀ o' j, p.Found o' j → ({ p with info := p.info.set i d' } : ProfileCompilationInfo).Found o' j := by
  obtain ⟨e, he, hkey, hheader⟩ := hfound
  obtain rfl := some.inj (hd.symm.trans he)
  obtain ⟨hvalid, hkey', hheader', hcontent⟩ := mergeDexFileData_spec hp.extraDescriptors hlen hremap
    (hp.info d (mem_of_getElem? hd)) ho hheader h
  exact ⟨joins_set hp hd hkey hvalid hkey' hheader' hcontent, fun o' j => found_set hd hkey' hheader'⟩

variable {l : List DexFileData}

lemma Joins.cons (hnew : ∀ e ∈ l, e.profileKey ≠ o.profileKey) (h : Joins otherExtra [o] p q)
    (h' : Joins otherExtra l q r) : Joins otherExtra (o :: l) p r where
  isValid := h'.isValid
  forBootImage := h'.forBootImage.trans h.forBootImage
  extraDescriptors := h'.extraDescriptors.trans h.extraDescriptors
  header k := (h'.header k).trans (h.header k)
  content k := by
    rw [h'.content, h.content, h.forBootImage, sup_assoc]
    congr 1
    by_cases hk : o.profileKey = k
    · have hnone : l.find? (·.profileKey = k) = none := by simpa [hk] using hnew
      rw [find?_cons_of_pos (by simpa using hk), find?_cons_of_pos (by simpa using hk), hnone]
      exact sup_bot_eq _
    · rw [find?_cons_of_neg (by simpa using hk), find?_cons_of_neg (by simpa using hk), find?_nil]
      exact bot_sup_eq _

variable {indexes : List ℕ}

include hp hlen hremap in
/-- The loop over the dex files of the other profile joins the contents. -/
lemma joins_foldlM (hfound : List.Forall₂ p.Found l indexes)
    (hkeys : (l.map (·.profileKey)).Nodup) (hl : ∀ o ∈ l, o.IsValid p.forBootImage otherExtra)
    (h : (l.zip indexes).foldlM (fun p (otherDexData, profileIndex) => do
      let dexData ← p.info[profileIndex]?
      let dexData ← mergeDexFileData remap true dexData otherDexData
      return { p with info  := p.info.set profileIndex dexData }) p = some q) : Joins otherExtra l p q := by
  induction l generalizing p indexes with
  | nil =>
    cases h
    exact ⟨hp, rfl, rfl, fun _ => rfl, fun _ => (sup_bot_eq _).symm⟩
  | cons o l ih =>
    obtain ⟨i, indexes, hi, htail, rfl⟩ := forall₂_cons_left_iff.1 hfound
    rw [map_cons, nodup_cons] at hkeys
    obtain ⟨next, hnext, h⟩ := bind_eq_some_iff.1 h
    obtain ⟨d, hd, hnext⟩ := bind_eq_some_iff.1 hnext
    obtain ⟨d', hd', hnext⟩ := bind_eq_some_iff.1 hnext
    obtain ⟨hjoins, hkeep⟩ := joins_mergeDexFileData hp hlen hremap hd hi (hl o mem_cons_self) hd'
    cases hnext
    refine Joins.cons ?_ hjoins ?_
    · intro e he heq
      exact hkeys.1 (heq ▸ mem_map_of_mem he)
    · exact ih hjoins.isValid hremap (htail.imp fun _ _ hf => hkeep _ _ hf) hkeys.2
        (fun e he => hl e (mem_cons_of_mem o he)) h

/-! ## Merging profiles -/

/-- After the dex files of the other profile were added, those of both are found. -/
lemma Adds.findDexData (h : Adds other.info p q) (hq : q.IsValid) (hother : other.IsValid)
    (hfound : ∀ o ∈ other.info, ∃ i, q.Found o i) (k : String) :
    (∃ d, p.findDexData k = some d ∧ q.findDexData k = some d ∧
      ∀ o, other.findDexData k = some o → d.header = o.header) ∨
    (p.findDexData k = none ∧ q.findDexData k = none ∧ other.findDexData k = none) ∨
    (p.findDexData k = none ∧ ∃ o, other.findDexData k = some o ∧ q.findDexData k =
      some (.new o.profileKey o.checksum o.numTypeIds o.numMethodIds p.forBootImage)) := by
  -- what is found in the other profile has a header there
  have hheader : ∀ d o, q.findDexData k = some d → other.findDexData k = some o → d.header = o.header := by
    intro d o hd ho
    obtain ⟨hmem, rfl⟩ := mem_of_findDexData ho
    obtain ⟨i, e, he, hkey, heheader⟩ := hfound o hmem
    have hfind := findDexData_of_mem hq.keys (mem_of_getElem? he)
    rw [hkey, hd] at hfind
    rw [some.inj hfind, heheader]
  cases hp : p.findDexData k with
  | some d =>
    obtain ⟨hmem, rfl⟩ := mem_of_findDexData hp
    have hfind := findDexData_of_mem hq.keys (h.info.subset hmem)
    exact .inl ⟨d, rfl, hfind, fun o => hheader d o hfind⟩
  | none =>
    refine .inr ?_
    cases hqk : q.findDexData k with
    | none =>
      refine .inl ⟨rfl, rfl, findDexData_eq_none.2 fun o ho heq => ?_⟩
      obtain ⟨i, e, he, hkey, -⟩ := hfound o ho
      exact findDexData_eq_none.1 hqk e (mem_of_getElem? he) (hkey.trans heq)
    | some d =>
      obtain ⟨hmem, hkey⟩ := mem_of_findDexData hqk
      rcases h.new d hmem with hold | ⟨o, ho, rfl⟩
      · exact absurd hkey (findDexData_eq_none.1 hp d hold)
      · exact .inr ⟨rfl, o, hkey ▸ findDexData_of_mem hother.keys ho, rfl⟩

/-- A profile says what two others say: its headers are those of both, which agree, and its content
    is the join of theirs. -/
structure IsJoin (p other q : ProfileCompilationInfo) : Prop where
  forBootImage : q.forBootImage = p.forBootImage
  agree : ∀ k h h', p.header k = some h → other.header k = some h' → h = h'
  header : ∀ k, q.header k = (p.header k).or (other.header k)
  content : q.content = p.content ⊔ other.content

lemma AddsExtra.content (h : AddsExtra p q) (hp : p.IsValid) (k : String) : q.content k = p.content k := by
  obtain ⟨l, hl⟩ := h.extraDescriptors
  have hfind : q.findDexData k = p.findDexData k := by
    rw [findDexData, h.info, findDexData]
  rw [ProfileCompilationInfo.content, hfind, h.forBootImage, hl, ProfileCompilationInfo.content]
  cases hd : p.findDexData k with
  | none => rfl
  | some d => exact congrArg _ ((hp.info d (mem_of_findDexData hd).1).content_append l)

lemma AddsExtra.header (h : AddsExtra p q) (k : String) : q.header k = p.header k := by
  rw [ProfileCompilationInfo.header, ProfileCompilationInfo.findDexData, h.info]
  rfl

/-- The three parts of a merge. -/
lemma isJoin_of_parts {p₁ p₂ : ProfileCompilationInfo}
    (hboot : p.forBootImage = other.forBootImage) (hother : other.IsValid) (hp1 : p₁.IsValid)
    (hadds : Adds other.info p p₁) (hfound : ∀ o ∈ other.info, ∃ i, p₁.Found o i)
    (hextra : AddsExtra p₁ p₂) (hjoins : Joins other.extraDescriptors other.info p₂ q) :
    IsJoin p other q := by
  have hfind := hadds.findDexData hp1 hother hfound
  have hboot2 : p₂.forBootImage = p.forBootImage := hextra.forBootImage.trans hadds.forBootImage
  refine ⟨hjoins.forBootImage.trans hboot2, ?_, ?_, ?_⟩
  · intro k h h' hp ho
    obtain ⟨o, hofind, rfl⟩ := map_eq_some_iff.1 ho
    obtain ⟨d, hd, rfl⟩ := map_eq_some_iff.1 hp
    rcases hfind k with ⟨e, he, -, hagree⟩ | ⟨hnone, -, -⟩ | ⟨hnone, -⟩
    · obtain rfl := some.inj (hd.symm.trans he)
      exact hagree o hofind
    · exact absurd (hnone.symm.trans hd) (some_ne_none _).symm
    · exact absurd (hnone.symm.trans hd) (some_ne_none _).symm
  · intro k
    rw [hjoins.header, hextra.header]
    unfold header
    rcases hfind k with ⟨e, he, hq, -⟩ | ⟨hnone, hq, ho⟩ | ⟨hnone, o, ho, hq⟩
    · rw [he, hq]
      rfl
    · rw [hnone, hq, ho]
      rfl
    · rw [hnone, hq, ho]
      rfl
  · funext k
    have hjoin : q.content k = p₁.content k ⊔ other.content k := by
      rw [hjoins.content, hextra.content hp1, hboot2, hboot]
      rfl
    rw [hjoin, Pi.sup_apply]
    unfold content
    rw [hadds.forBootImage, hadds.extraDescriptors]
    rcases hfind k with ⟨e, he, hq, -⟩ | ⟨hnone, hq, ho⟩ | ⟨hnone, o, ho, hq⟩
    · rw [he, hq]
    · rw [hnone, hq]
    · -- a new dex file says nothing that the other profile does not say
      rw [hnone, hq, ho]
      refine (congrArg (· ⊔ _) (congrArg _ (content_new _ _ o))).trans ?_
      refine Eq.trans ?_ (bot_sup_eq _).symm
      exact congrArg _ (bot_sup_eq _)

/-! ## The loops of a merge -/

variable (s : ProfileCompilationInfo × List ℕ)

/-- A round of the loop that adds the dex files of another profile. -/
def addDexFile (o : DexFileData) : Option (ProfileCompilationInfo × List ℕ) := do
  let (p, profileIndex) ← s.1.getOrAddDexFileData o.profileKey o.checksum o.numTypeIds o.numMethodIds
  return (p, s.2 ++ [profileIndex])

/-- A round of the loop that adds the extra descriptors of another profile. -/
def addDescriptor (descriptor : String) : Option (ProfileCompilationInfo × List ℕ) := do
  let (p, index) ← s.1.getOrAddExtraDescriptor descriptor
  return (p, s.2 ++ [index])

/-- The dex files that were added are found, and the profile stays valid. -/
lemma foldlM_addDexFile_spec {other : List DexFileData} (hl : l ⊆ other)
    (hnum : ∀ o ∈ other, o.numTypeIds < 2 ^ 32) (hp : p.IsValid)
    (h : l.foldlM addDexFile (p, []) = some (q, indexes)) :
    q.IsValid ∧ Adds other p q ∧ List.Forall₂ q.Found l indexes := by
  obtain ⟨hq, hadds, indexes', hindexes, hfound⟩ := Loop.foldlM_collect (P := IsValid)
    (R := Adds other) (Q := Found) (Adds.refl _) (fun _ _ _ => Adds.trans)
    (fun _ _ _ _ hR => hR.found)
    (fun o ho s s' i hs hstep => getOrAddDexFileData_spec (hl ho) (hnum o (hl ho)) hs hstep) hp h
  exact ⟨hq, hadds, hindexes ▸ hfound⟩

/-- The extra descriptors that were added are remapped. -/
lemma foldlM_addDescriptor_spec {l : List String} (hp : p.IsValid)
    (h : l.foldlM addDescriptor (p, []) = some (q, remap)) :
    q.IsValid ∧ AddsExtra p q ∧ Remaps remap l q.extraDescriptors := by
  obtain ⟨hq, hextra, remap', hremap', hall⟩ := Loop.foldlM_collect (P := IsValid) (R := AddsExtra)
    (Q := fun p s i => p.extraDescriptors[i]? = some s) AddsExtra.refl (fun _ _ _ => AddsExtra.trans)
    (fun _ _ _ _ hR => hR.getElem?)
    (fun s _ t t' i ht hstep => getOrAddExtraDescriptor_spec ht hstep) hp h
  subst hremap'
  refine ⟨hq, hextra, hall.length_eq.symm, fun i s hi => ?_⟩
  obtain ⟨hlt, rfl⟩ := List.getElem?_eq_some_iff.1 hi
  have hlt' : i < remap.length := hall.length_eq ▸ hlt
  exact ⟨remap[i], getElem?_eq_getElem hlt', hall.get hlt hlt'⟩

lemma AddsExtra.found (h : AddsExtra p q) (hfound : p.Found o i) : q.Found o i := by
  obtain ⟨d, hd, hkey⟩ := hfound
  exact ⟨d, by rw [h.info, hd], hkey⟩

/-- Merging succeeds only with the join. -/
lemma mergeWith_spec (hp : p.IsValid) (hother : other.IsValid) (h : p.mergeWith other = some q) :
    q.IsValid ∧ IsJoin p other q := by
  unfold mergeWith at h
  split_ifs at h with hboot hchecksum
  push Not at hboot
  obtain ⟨⟨p1, indexes⟩, h1, h⟩ := bind_eq_some_iff.1 h
  obtain ⟨⟨p2, remap⟩, h2, h⟩ := bind_eq_some_iff.1 h
  obtain ⟨hp1, hadds, hfound⟩ := foldlM_addDexFile_spec (List.Subset.refl _)
    (fun o ho => (hother.info o ho).numTypeIds_lt) hp h1
  obtain ⟨hp2, hextra, hremap⟩ := foldlM_addDescriptor_spec hp1 h2
  have hjoins := joins_foldlM hp2 hother.length_extraDescriptors hremap
    (hfound.imp fun _ _ => hextra.found) hother.keys
    (fun o ho => by
      rw [hextra.forBootImage, hadds.forBootImage, hboot]
      exact hother.info o ho) h
  refine ⟨hjoins.isValid, isJoin_of_parts hboot hother hp1 hadds ?_ hextra hjoins⟩
  intro o ho
  obtain ⟨i, hi, rfl⟩ := getElem_of_mem ho
  exact ⟨_, hfound.get hi (hfound.length_eq ▸ hi)⟩

/-- What a profile says. -/
def denotation (p : ProfileCompilationInfo) :
    Bool × (String → Option (ℕ × ℕ × ℕ)) × (String → WithBot DexContent) :=
  (p.forBootImage, p.header, p.content)

lemma IsJoin.denotation_eq {p' other' q' : ProfileCompilationInfo} (h : IsJoin p other q)
    (h' : IsJoin p' other' q') (hboot : p.forBootImage = p'.forBootImage)
    (hheader : ∀ k, (p.header k).or (other.header k) = (p'.header k).or (other'.header k))
    (hcontent : p.content ⊔ other.content = p'.content ⊔ other'.content) : q.denotation = q'.denotation := by
  refine Prod.ext ?_ (Prod.ext ?_ ?_)
  · exact h.forBootImage.trans (hboot.trans h'.forBootImage.symm)
  · funext k
    exact (h.header k).trans ((hheader k).trans (h'.header k).symm)
  · exact h.content.trans (hcontent.trans h'.content.symm)

lemma IsJoin.header_or_comm (h : IsJoin p other q) (k : String) :
    (p.header k).or (other.header k) = (other.header k).or (p.header k) := by
  have hagree := h.agree k
  cases hp : p.header k with
  | none => rw [none_or, or_none]
  | some x =>
    cases ho : other.header k with
    | none => rfl
    | some y => rw [hagree x y hp ho]

/-- A successful merge of profiles is the join of what they say. So merging is commutative,
    associative and idempotent, as far as it succeeds, for profiles with different numberings of dex
    files and extra descriptors. -/
theorem mergeWith_isJoin :
    (∀ p other q : ProfileCompilationInfo, p.IsValid → other.IsValid → p.mergeWith other = some q →
      q.IsValid ∧ IsJoin p other q) ∧
    (∀ a b ab ba : ProfileCompilationInfo, a.IsValid → b.IsValid → a.mergeWith b = some ab →
      b.mergeWith a = some ba → ab.denotation = ba.denotation) ∧
    (∀ a b c ab abc bc abc' : ProfileCompilationInfo, a.IsValid → b.IsValid → c.IsValid →
      a.mergeWith b = some ab → ab.mergeWith c = some abc → b.mergeWith c = some bc →
      a.mergeWith bc = some abc' → abc.denotation = abc'.denotation) ∧
    ∀ a aa : ProfileCompilationInfo, a.IsValid → a.mergeWith a = some aa → aa.denotation = a.denotation := by
  refine ⟨fun p other q hp ho h => mergeWith_spec hp ho h, ?_, ?_, ?_⟩
  · intro a b ab ba ha hb h h'
    have hj := (mergeWith_spec ha hb h).2
    have hj' := (mergeWith_spec hb ha h').2
    refine hj.denotation_eq hj' ?_ hj.header_or_comm (sup_comm _ _)
    by_contra hne
    rw [mergeWith, if_pos hne] at h
    cases h
  · intro a b c ab abc bc abc' ha hb hc h₁ h₂ h3 h4
    obtain ⟨hab, hj1⟩ := mergeWith_spec ha hb h₁
    obtain ⟨hbc, hj3⟩ := mergeWith_spec hb hc h3
    have hj2 := (mergeWith_spec hab hc h₂).2
    have hj4 := (mergeWith_spec ha hbc h4).2
    refine hj2.denotation_eq hj4 hj1.forBootImage (fun k => ?_) ?_
    · rw [hj1.header, hj3.header, Option.or_assoc]
    · rw [hj1.content, hj3.content, sup_assoc]
  · intro a aa ha h
    have hj := (mergeWith_spec ha ha h).2
    refine Prod.ext hj.forBootImage (Prod.ext ?_ ?_)
    · funext k
      exact (hj.header k).trans Option.or_self
    · exact hj.content.trans (sup_idem _)

/-- Descriptors and dex files with different indexes: type `1` of the dex file `a` is `X` in one profile
    and `Y` in the other. -/
theorem mergeWith_isJoin_renumbered : ∃ p other q : ProfileCompilationInfo,
    p.IsValid ∧ other.IsValid ∧ p.mergeWith other = some q ∧ IsJoin p other q := by
  let p : ProfileCompilationInfo := ⟨false, [⟨"a", 0, .empty, [0, 1], 1, 1, [0]⟩], ["X"]⟩
  let cache : InlineCacheMap := ⟨[(3, { classes := [1] })], by decide⟩
  let other : ProfileCompilationInfo := ⟨false, [⟨"b", 1, .empty, [], 1, 0, []⟩,
    ⟨"a", 0, ⟨[(0, cache)], by decide⟩, [1], 1, 1, [1]⟩], ["Y", "X"]⟩
  have hsome : (p.mergeWith other).isSome = true := by decide
  have htype : ∀ extra : List String, extra ≠ [] → ∀ t ≤ 1, IsTypeIndex 1 extra t := by
    intro extra hne t ht
    have := length_pos_of_ne_nil hne
    exact ⟨by omega, by omega⟩
  have hp : p.IsValid := by
    refine ⟨by decide, by decide, by decide, fun d hd => ?_⟩
    obtain rfl := mem_singleton.1 hd
    refine ⟨by decide, by decide, fun t ht => htype _ (by decide) t ?_, AssocMap.forall_empty _⟩
    have : ∀ t ∈ [0, 1], t ≤ 1 := by decide
    exact this t ht
  have hcache : cache.Forall fun c => ∀ t ∈ c.classes, IsTypeIndex 1 other.extraDescriptors t := by
    refine AssocMap.forall_of_entries fun e he t ht => ?_
    obtain rfl := mem_singleton.1 he
    exact htype _ (by decide) t (mem_singleton.1 ht).le
  have hother : other.IsValid := by
    refine ⟨by decide, by decide, by decide, fun d hd => ?_⟩
    rcases mem_pair.1 hd with rfl | rfl
    · exact ⟨by decide, by decide, nofun, AssocMap.forall_empty _⟩
    · refine ⟨by decide, by decide, fun t ht => htype _ (by decide) t (mem_singleton.1 ht).le, ?_⟩
      refine AssocMap.forall_of_entries fun e he => ?_
      obtain rfl := mem_singleton.1 he
      exact hcache
  exact ⟨p, other, _, hp, hother, (some_get hsome).symm,
    (mergeWith_isJoin.1 p other _ hp hother (some_get hsome).symm).2⟩

end ProfileCompilationInfo
end Art
