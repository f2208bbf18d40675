import Art.Lib.Probing

/-!
# The hash set

`HashSet` of `libartbase/base/hash_set.h`: open addressing with linear probing and
deletion by shifting elements back. The loops that probe are modelled with fuel; an
operation takes as much of it as there are buckets, and `none` is a loop that does not
end.
-/

namespace Art

open Cyclic Probing Function Multiset Option

def kMinBuckets : ℕ := 1000

/-- `HashFn` and `Pred`: equality of elements is an equivalence, and equal elements have equal hashes. -/
structure HashFns (α : Type) where
  hashfn : α → ℕ
  pred : α → α → Bool
  refl : ∀ x, pred x x = true
  symm : ∀ {x y}, pred x y = true → pred y x = true
  trans : ∀ {x y z}, pred x y = true → pred y z = true → pred x z = true
  hash_eq : ∀ {x y}, pred x y = true → hashfn x = hashfn y

/-- The two elements are not equal. -/
def HashFns.Distinct {α : Type} (F : HashFns α) (x y : α) : Prop := F.pred x y = false

instance {α : Type} (F : HashFns α) : Std.Symm F.Distinct where
  symm _ _ h := Bool.eq_false_iff.2 fun h' => by simp [HashFns.Distinct, F.symm h'] at h

/-- Elements that are compared and hashed by a key. -/
def HashFns.comap {α β : Type} (F : HashFns β) (key : α → β) : HashFns α where
  hashfn x := F.hashfn (key x)
  pred x y := F.pred (key x) (key y)
  refl _ := F.refl _
  symm h := F.symm h
  trans h h' := F.trans h h'
  hash_eq h := F.hash_eq h

/-- The truncated quotients and products of sizes with `min_load_factor_` and `max_load_factor_`,
    of which the maximum is positive and below one: the table expands before it is full. -/
structure LoadFactors where
  /-- `n / min_load_factor_`. -/
  divMin : ℕ → ℕ
  /-- `n / max_load_factor_`. -/
  divMax : ℕ → ℕ
  /-- `n * max_load_factor_`. -/
  mulMax : ℕ → ℕ
  mulMax_zero : mulMax 0 = 0
  mulMax_lt : ∀ n, 0 < n → mulMax n < n
  mulMax_unbounded : ∀ n m, ∃ k, n < mulMax (m + k)

/-- The fields of `HashSet`; an empty slot is `none`. -/
structure HashSet (α : Type) where
  numElements : ℕ
  numBuckets : ℕ
  elementsUntilExpand : ℕ
  data : ℕ → Option α

namespace HashSet

variable {α : Type} (F : HashFns α) (L : LoadFactors)

/-- An empty set with a buffer of `bufferSize` slots; the default constructor has none. -/
def create (bufferSize : ℕ) : HashSet α := ⟨0, bufferSize, L.mulMax bufferSize, fun _ => none⟩

variable (h : HashSet α)

def indexForHash (hash : ℕ) : ℕ := if h.numBuckets = 0 then 0 else hash % h.numBuckets

variable (index : ℕ)

def nextIndex : ℕ := Cyclic.next h.numBuckets index

def isFreeSlot : Bool := (h.data index).isNone

/-- The test that ends the loop of `FindIndexImpl`. -/
def findStop (canFind : Bool) (element : α) (index : ℕ) : Bool :=
  match h.data index with
  | none => true
  | some slot => canFind && F.pred slot element

/-- `FindIndexImpl<kCanFind>(element, hash)`: the slot where the loop ends, which holds an equal
    element or is empty. -/
def findIndexImpl (canFind : Bool) (element : α) (fuel : ℕ) : Option ℕ :=
  probe h.numBuckets (h.findStop F canFind element) fuel (h.indexForHash (F.hashfn element))

/-- `FindIndex(element, hash)`: the slot of an equal element, or `NumBuckets()`. -/
def findIndex (element : α) (fuel : ℕ) : Option ℕ :=
  if h.numBuckets = 0 then some 0
  else (h.findIndexImpl F true element fuel).map fun index =>
    if h.isFreeSlot index then h.numBuckets else index

def firstAvailableSlot : Option ℕ := probe h.numBuckets h.isFreeSlot h.numBuckets index

/-- The reinsertion of one old slot in `Resize`. -/
def reinsert : Option α → Option (HashSet α)
  | none => some h
  | some element => (h.firstAvailableSlot (h.indexForHash (F.hashfn element))).map fun index =>
      { h with data := update h.data index (some element) }

def resize (newSize : ℕ) : Option (HashSet α) :=
  let newSize := if newSize < kMinBuckets then kMinBuckets else newSize
  let fresh : HashSet α := { h with numBuckets := newSize, data := fun _ => none }
  ((List.range h.numBuckets).foldlM (fun (h' : HashSet α) i => h'.reinsert F (h.data i))
    fresh).map fun h' =>
    { h' with elementsUntilExpand := L.mulMax h'.numBuckets }

def expand : Option (HashSet α) := h.resize F L (L.divMin h.numElements)

/-- The first lines of `InsertWithHash` and `PutWithHash`. -/
def expandIfNeeded (h : HashSet α) : Option (HashSet α) :=
  if h.elementsUntilExpand ≤ h.numElements then h.expand F L else some h

/-- `InsertWithHash(element, hash)`: the set, the slot of the element, and whether it is new. -/
def insertWithHash (h : HashSet α) (element : α) : Option (HashSet α × ℕ × Bool) := do
  let h ← h.expandIfNeeded F L
  let index ← h.findIndexImpl F true element h.numBuckets
  if h.isFreeSlot index then
    some ({ h with data := update h.data index (some element), numElements := h.numElements + 1 },
      index, true)
  else some (h, index, false)

/-- `PutWithHash(element, hash)`, for an element known not to be in the set. -/
def putWithHash (h : HashSet α) (element : α) : Option (HashSet α) := do
  let h ← h.expandIfNeeded F L
  let index ← h.findIndexImpl F false element h.numBuckets
  some { h with data := update h.data index (some element), numElements := h.numElements + 1 }

/-- The loop of `erase`: the slots after it, and whether the first empty index was filled.

    An element that is moved stays behind in its slot, which is the next one to be overwritten
    or emptied. -/
def eraseLoop (h : HashSet α) : ℕ → (ℕ → Option α) → ℕ → ℕ → Bool → Option ((ℕ → Option α) × Bool)
  | 0, _, _, _, _ => none
  | fuel + 1, data, emptyIndex, index, filled =>
    let nextIndex := h.nextIndex index
    match data nextIndex with
    | none => some (update data emptyIndex none, filled)
    | some nextElement =>
      let nextIdealIndex := h.indexForHash (F.hashfn nextElement)
      let unwrappedNextIndex :=
        if nextIndex < emptyIndex then nextIndex + h.numBuckets else nextIndex
      let unwrappedNextIdealIndex :=
        if nextIdealIndex < emptyIndex then nextIdealIndex + h.numBuckets else nextIdealIndex
      if unwrappedNextIdealIndex ≤ emptyIndex ∨ unwrappedNextIndex < unwrappedNextIdealIndex then
        eraseLoop h fuel (update data emptyIndex (some nextElement)) nextIndex nextIndex true
      else eraseLoop h fuel data emptyIndex nextIndex filled

def nextNonEmptySlot : ℕ :=
  ((List.range' (index + 1) (h.numBuckets - (index + 1))).find? fun i => !h.isFreeSlot i).getD
    h.numBuckets

/-- `erase(it)`, for an iterator at the slot `index`: the set, and the iterator it returns. -/
def eraseAt : Option (HashSet α × ℕ) :=
  (h.eraseLoop F h.numBuckets h.data index index false).map fun (data, filled) =>
    let h' := { h with data, numElements := h.numElements - 1 }
    (h', if filled then index else h'.nextNonEmptySlot index)

def begin : ℕ := if h.numBuckets ≠ 0 ∧ h.isFreeSlot 0 = true then h.nextNonEmptySlot 0 else 0

/-- `while (it != end()) { if (pred(*it)) it = erase(it); else ++it; }`. -/
def eraseIfLoop (pred : α → Bool) : ℕ → HashSet α → ℕ → Option (HashSet α)
  | 0, _, _ => none
  | fuel + 1, h, it =>
    if it = h.numBuckets then some h
    else do
      let x ← h.data it
      if pred x then
        let (h', it') ← h.eraseAt F it
        eraseIfLoop pred fuel h' it'
      else eraseIfLoop pred fuel h (h.nextNonEmptySlot it)

/-- The erasure of the elements that satisfy a predicate, while iterating. -/
def eraseIf (pred : α → Bool) (fuel : ℕ) (h : HashSet α) : Option (HashSet α) :=
  eraseIfLoop F pred fuel h h.begin

/-- `reserve(num_elements)`: the loop looks for the first number of buckets that is large enough. -/
def reserve (numElements : ℕ) : Option (HashSet α) :=
  let numBuckets := L.divMax numElements +
    Nat.find (L.mulMax_unbounded (numElements + 1) (L.divMax numElements))
  if h.numBuckets < numBuckets then h.resize F L numBuckets else some h

def shrinkToMaximumLoad : Option (HashSet α) := h.resize F L (L.divMax h.numElements)

/-- `Verify()`: the number of elements that would not be reinserted in their slots. -/
def verify : ℕ := ((List.range h.numBuckets).filter fun i => match h.data i with
    | none => false
    | some x => { h with data := update h.data i none }.firstAvailableSlot
        (h.indexForHash (F.hashfn x)) ≠ some i).length

/-! ## The invariant -/

/-- The elements of the set. -/
def elems (h : HashSet α) : Multiset α := Probing.elems h.numBuckets h.data

/-- The ideal slot of an element. -/
def ideal (x : α) : ℕ := h.indexForHash (F.hashfn x)

/-- The invariant of the set: the slots are probed, the elements are counted, no two of them are
    equal, and there is an empty slot. -/
structure Inv (h : HashSet α) : Prop where
  probed : Probed h.numBuckets (h.ideal F) h.data
  count : h.numElements = h.elems.card
  distinct : h.elems.Pairwise F.Distinct
  room : h.numElements < h.numBuckets ∨ h.numBuckets = 0
  expands : h.elementsUntilExpand < h.numBuckets ∨ h.numBuckets = 0 ∧ h.elementsUntilExpand = 0

variable {F L} {h h' : HashSet α} {x y : α}

lemma ideal_lt (hb : 0 < h.numBuckets) (x : α) : h.ideal F x < h.numBuckets := by
  rw [ideal, indexForHash, if_neg hb.ne']
  exact Nat.mod_lt _ hb

lemma mem_elems : x ∈ h.elems ↔ ∃ i < h.numBuckets, h.data i = some x := Probing.mem_elems

lemma inv_create (bufferSize : ℕ) : (create L bufferSize : HashSet α).Inv F := by
  have he : (create L bufferSize : HashSet α).elems = 0 := elems_eq_zero fun _ _ => rfl
  refine ⟨fun j _ x hx => by simp [create] at hx, by rw [he]; rfl, ?_, ?_, ?_⟩
  · rw [he]
    exact pairwise_zero _
  · exact (Nat.eq_zero_or_pos bufferSize).symm
  · rcases Nat.eq_zero_or_pos bufferSize with rfl | hb
    · exact .inr ⟨rfl, L.mulMax_zero⟩
    · exact .inl (L.mulMax_lt _ hb)

/-- A table in which the elements do not fill all the buckets has an empty slot. -/
lemma exists_free (hc : h.elems.card < h.numBuckets) :
    ∃ i < h.numBuckets, h.data i = none := exists_empty hc

variable {i : ℕ}

lemma findStop_of_none {c : Bool} (hi : h.data i = none) : h.findStop F c x i = true := by
  simp [findStop, hi]

/-- The search ends: in a slot with an equal element, or in an empty slot, and then no element of
    the set is equal. -/
lemma Inv.findIndexImpl (hI : h.Inv F) (hb : 0 < h.numBuckets) (x : α) :
    ∃ j < h.numBuckets, h.findIndexImpl F true x h.numBuckets = some j ∧
      ((∃ y, h.data j = some y ∧ F.pred y x = true) ∨
        h.data j = none ∧ Path h.numBuckets (h.ideal F) h.data x j ∧ ∀ y ∈ h.elems, F.pred y x = false) := by
  obtain ⟨z, hz, hzd⟩ := exists_free (hI.count ▸ hI.room.resolve_right hb.ne')
  have hix := ideal_lt (F := F) hb x
  obtain ⟨j, hj, hp, hstop, hpath⟩ :=
    exists_probe_eq_some hix hz (findStop_of_none (F := F) (c := true) (x := x) hzd)
  -- the slots before the end hold elements that are not equal
  have hpath' : ∀ k < dist h.numBuckets (h.ideal F x) j, ∃ y,
      h.data (shift h.numBuckets (h.ideal F x) k) = some y ∧ F.pred y x = false := fun k hk => by
    have := hpath k hk
    unfold findStop at this
    split at this
    next => cases this
    next y hy => exact ⟨y, hy, by simpa using this⟩
  refine ⟨j, hj, hp, ?_⟩
  match hd : h.data j with
  | some y => exact .inl ⟨y, rfl, by simpa [findStop, hd] using hstop⟩
  | none =>
    refine .inr ⟨rfl, fun k hk => ?_, fun y hy => ?_⟩
    · obtain ⟨y, hy, -⟩ := hpath' k hk
      simp [hy]
    · -- an equal element would have been probed from the same slot, so before the empty one
      by_contra hne
      have hpred : F.pred y x = true := by simpa using hne
      obtain ⟨i, hi, hyi⟩ := mem_elems.1 hy
      have hid : h.ideal F y = h.ideal F x := by rw [ideal, ideal, F.hash_eq hpred]
      have hpy := hI.probed i hi y hyi
      rw [Probing.Path, hid] at hpy
      rcases lt_or_ge _ (dist _ _ j) with hlt | hge
      · obtain ⟨y', hy', hne'⟩ := hpath' _ hlt
        rw [shift_dist hix hi, hyi] at hy'
        cases hy'
        exact absurd hpred (by simp [hne'])
      · rcases eq_or_lt_of_le hge with heq | hlt
        · rw [← shift_dist hix hj, heq, shift_dist hix hi, hyi] at hd
          cases hd
        · have := hpy _ hlt
          rw [shift_dist hix hj, hd] at this
          cases this

/-- `find` returns the slot of an equal element, or the end if there is none. -/
lemma Inv.findIndex (hI : h.Inv F) (x : α) : ∃ j, h.findIndex F x h.numBuckets = some j ∧
      ((∃ y, j < h.numBuckets ∧ h.data j = some y ∧ F.pred y x = true) ∨
        j = h.numBuckets ∧ ∀ y ∈ h.elems, F.pred y x = false) := by
  by_cases hb : h.numBuckets = 0
  · refine ⟨0, by rw [HashSet.findIndex, if_pos hb], .inr ⟨hb.symm, fun y hy => ?_⟩⟩
    obtain ⟨i, hi, -⟩ := mem_elems.1 hy
    omega
  · obtain ⟨j, hj, hf, hcase⟩ := hI.findIndexImpl (Nat.pos_of_ne_zero hb) x
    rw [HashSet.findIndex, if_neg hb, hf]
    rcases hcase with ⟨y, hy, hp⟩ | ⟨hd, -, hne⟩
    · exact ⟨j, by simp [isFreeSlot, hy], .inl ⟨y, hj, hy, hp⟩⟩
    · exact ⟨_, by simp [isFreeSlot, hd], .inr ⟨rfl, hne⟩⟩

/-- Placing a new element in the first empty slot that is probed for it. -/
lemma Inv.place (hI : h.Inv F) {j : ℕ} (hj : j < h.numBuckets) (hd : h.data j = none)
    (hp : Path h.numBuckets (h.ideal F) h.data x j) (hne : ∀ y ∈ h.elems, F.pred y x = false)
    (hroom : h.numElements + 1 < h.numBuckets) :
    let h' := { h with data := update h.data j (some x), numElements := h.numElements + 1 }
    h'.Inv F ∧ h'.elems = x ::ₘ h.elems := by
  intro h'
  have he : h'.elems = x ::ₘ h.elems := elems_place hj hd x
  refine ⟨⟨hI.probed.place hp, ?_, ?_, .inl hroom, hI.expands⟩, he⟩
  · rw [he, card_cons]
    exact congrArg (· + 1) hI.count
  · rw [he]
    exact pairwise_cons.2 ⟨fun y hy => symm_of (F.Distinct) (hne y hy), hI.distinct⟩

/-- Every element of a probed table would be reinserted in its slot. -/
lemma Inv.verify (hI : h.Inv F) : h.verify F = 0 := by
  rw [HashSet.verify, List.length_eq_zero_iff, List.filter_eq_nil_iff]
  intro i hi
  have hi : i < h.numBuckets := List.mem_range.1 hi
  match hd : h.data i with
  | none => simp
  | some x =>
    have hb : 0 < h.numBuckets := by omega
    have hix := ideal_lt (F := F) hb x
    have hprobe : probe h.numBuckets (fun j => (update h.data i none j).isNone) h.numBuckets
        (h.ideal F x) = some i := by
      refine probe_eq_some hix hi (by simp) fun k hk => ?_
      have hki : shift h.numBuckets (h.ideal F x) k ≠ i := fun e => by
        have := dist_shift hix (hk.trans (dist_lt hix hi))
        rw [e] at this
        omega
      have := hI.probed i hi x hd k hk
      rw [update_of_ne hki]
      simpa using this
    simp only [ne_eq, decide_not, Bool.not_eq_true', decide_eq_false_iff_not, not_not]
    exact hprobe

variable {β : Type}

lemma pairwise_comap (G : HashFns β) (κ : α → β) (s : Multiset α) :
    s.Pairwise (G.comap κ).Distinct ↔ (s.map κ).Pairwise G.Distinct := by
  induction s using Quotient.inductionOn with
  | h l =>
    refine pairwise_coe_iff_pairwise.trans ?_
    show _ ↔ Multiset.Pairwise _ ((l.map κ) : Multiset β)
    rw [pairwise_coe_iff_pairwise, List.pairwise_map]
    rfl

/-- The invariant looks at the elements through the keys they are compared by. -/
lemma Inv.of_keys {γ : Type} {G : HashFns γ} {κ : α → γ} {κ' : β → γ} {g : HashSet β}
    (hI : h.Inv (G.comap κ)) (hn : g.numElements = h.numElements) (hb : g.numBuckets = h.numBuckets)
    (hu : g.elementsUntilExpand = h.elementsUntilExpand)
    (hd : ∀ i < h.numBuckets, (g.data i).map κ' = (h.data i).map κ) : g.Inv (G.comap κ') := by
  have hkeys : g.elems.map κ' = h.elems.map κ := by
    rw [HashSet.elems, HashSet.elems, Probing.elems, Probing.elems, map_filterMap, map_filterMap, hb]
    exact filterMap_congr fun i hi => hd i (mem_range.1 hi)
  have hsome : ∀ i < h.numBuckets, (g.data i).isSome = (h.data i).isSome := fun i hi => by
    have := congrArg isSome (hd i hi)
    simpa using this
  refine ⟨fun j hj x hx => ?_, ?_, ?_, ?_, ?_⟩
  · rw [hb] at hj
    have hkey := hd j hj
    rw [hx] at hkey
    obtain ⟨y, hy, hyx⟩ := map_eq_some_iff.1 hkey.symm
    have hid : g.ideal (G.comap κ') x = h.ideal (G.comap κ) y := by
      show g.indexForHash (G.hashfn (κ' x)) = h.indexForHash (G.hashfn (κ y))
      rw [hyx, indexForHash, indexForHash, hb]
    have hlt := ideal_lt (F := G.comap κ) (by omega : 0 < h.numBuckets) y
    intro k hk
    rw [hid, hb] at hk ⊢
    rw [hsome _ (shift_lt hlt (hk.trans (dist_lt hlt hj)))]
    exact hI.probed j hj y hy k hk
  · rw [hn, hI.count, ← card_map κ, ← hkeys, card_map]
  · rw [pairwise_comap, hkeys, ← pairwise_comap]
    exact hI.distinct
  · rw [hn, hb]
    exact hI.room
  · rw [hu, hb]
    exact hI.expands

/-! ## Resizing -/

lemma reinsert_spec (hb : h.elems.card < h.numBuckets)
    (hp : Probed h.numBuckets (h.ideal F) h.data) (x : α) :
    ∃ h', h.reinsert F (some x) = some h' ∧ h'.numBuckets = h.numBuckets ∧
      h'.numElements = h.numElements ∧ Probed h'.numBuckets (h'.ideal F) h'.data ∧
      h'.elems = x ::ₘ h.elems := by
  obtain ⟨z, hz, hzd⟩ := exists_free hb
  obtain ⟨j, hj, hprobe, hstop, hpath⟩ := exists_probe_eq_some
    (ideal_lt (F := F) (by omega) x) hz
    (show h.isFreeSlot z = true by simp [isFreeSlot, hzd])
  have hd : h.data j = none := by simpa [isFreeSlot] using hstop
  refine ⟨{ h with data := update h.data j (some x) }, ?_, rfl, rfl, ?_, elems_place hj hd x⟩
  · exact (congrArg (Option.map _) hprobe).trans rfl
  · exact hp.place fun k hk => by simpa [isFreeSlot, isSome_iff_ne_none] using hpath k hk

lemma foldlM_reinsert (data : ℕ → Option α) (l : List ℕ)
    (hc : h.elems.card + (l.filterMap data).length ≤ h.numBuckets)
    (hp : Probed h.numBuckets (h.ideal F) h.data) :
    ∃ h', l.foldlM (fun (h' : HashSet α) i => h'.reinsert F (data i)) h = some h' ∧
      h'.numBuckets = h.numBuckets ∧ h'.numElements = h.numElements ∧
      Probed h'.numBuckets (h'.ideal F) h'.data ∧ h'.elems = h.elems + l.filterMap data := by
  induction l generalizing h with
  | nil => exact ⟨h, rfl, rfl, rfl, hp, by simp⟩
  | cons i l ih =>
    match hd : data i with
    | none =>
      obtain ⟨h', hf, hs⟩ := ih (h := h) (by simpa [hd] using hc) hp
      exact ⟨h', by simpa [hd, reinsert] using hf, by simpa [hd] using hs⟩
    | some x =>
      have hlen : ((i :: l).filterMap data).length = (l.filterMap data).length + 1 := by simp [hd]
      obtain ⟨g, hg, hgb, hgn, hgp, hge⟩ := reinsert_spec (F := F) (by omega) hp x
      obtain ⟨h', hf, hb', hn', hp', he'⟩ := ih (h := g) (by rw [hge, hgb, card_cons]; omega) hgp
      refine ⟨h', ?_, hb'.trans hgb, hn'.trans hgn, hp', ?_⟩
      · rw [List.foldlM_cons, hd, hg]
        exact hf
      · rw [he', hge, List.filterMap_cons_some hd, ← cons_coe, add_cons, cons_add]

/-- `Resize` keeps the elements, if they fit the new number of buckets. -/
lemma resize_spec (n : ℕ) (hc : h.elems.card ≤ max kMinBuckets n) :
    ∃ h', h.resize F L n = some h' ∧ h'.numBuckets = max kMinBuckets n ∧
      h'.numElements = h.numElements ∧ h'.elementsUntilExpand = L.mulMax (max kMinBuckets n) ∧
      Probed h'.numBuckets (h'.ideal F) h'.data ∧ h'.elems = h.elems := by
  have hsize : (if n < kMinBuckets then kMinBuckets else n) = max kMinBuckets n := by
    split <;> omega
  set fresh : HashSet α := { h with numBuckets := max kMinBuckets n, data := fun _ => none } with hfresh
  have hz : fresh.elems = 0 := elems_eq_zero fun _ _ => rfl
  have hel : (((List.range h.numBuckets).filterMap h.data : List α) : Multiset α) = h.elems := rfl
  obtain ⟨g, hg, hgb, hgn, hgp, hge⟩ := foldlM_reinsert (F := F) (h := fresh) h.data _ (by
      rw [hz, card_zero, zero_add, ← coe_card, hel]
      exact hc) (fun j _ x hx => by simp [hfresh] at hx)
  refine ⟨{ g with elementsUntilExpand := L.mulMax _ }, ?_, hgb, hgn, congrArg L.mulMax hgb, hgp, ?_⟩
  · simp only [HashSet.resize, hsize]
    rw [← hfresh, hg]
    rfl
  · rw [hz, hel, zero_add] at hge
    exact hge

variable {n : ℕ}

lemma Inv.resize (hI : h.Inv F) (hn : h.numElements < max kMinBuckets n) :
    ∃ h', h.resize F L n = some h' ∧ h'.Inv F ∧ h'.elems = h.elems ∧
      h'.numElements = h.numElements ∧ h'.numBuckets = max kMinBuckets n ∧
      h'.elementsUntilExpand = L.mulMax (max kMinBuckets n) := by
  obtain ⟨h', hr, hb, he, hu, hp, hel⟩ := resize_spec (F := F) (L := L) n (hI.count ▸ hn.le)
  have hpos : 0 < max kMinBuckets n := by omega
  refine ⟨h', hr, ⟨hp, ?_, hel ▸ hI.distinct, .inl (by omega), .inl ?_⟩, hel, he, hb, hu⟩
  · rw [he, hel]
    exact hI.count
  · rw [hu, hb]
    exact L.mulMax_lt _ hpos

/-! ## Erasing -/

variable {b e : ℕ} {data : ℕ → Option α}

/-- Moving an element into the hole and the hole to its slot. -/
lemma elems_move (he : e < b) (hn : n < b) (hne : n ≠ e) (hy : data n = some y) :
    Probing.elems b (update (update data e (some y)) n none) = Probing.elems b (update data e none) := by
  have h1 : update (update data e (some y)) n none =
      update (update (update data n none) e none) e (some y) := by
    rw [update_idem, update_comm hne.symm]
  rw [h1, elems_place he (update_self ..), elems_clear (i := n) hn
    (show update data e none n = some y by rw [update_of_ne hne, hy]), update_comm hne.symm]

/-- The slots after `erase` has closed a hole: the elements come from their slots or from slots that
    are farther ahead of the hole, and from the `m`th slot on nothing changes. -/
structure Shifted (b e m : ℕ) (data data' : ℕ → Option α) : Prop where
  source : ∀ j < b, ∀ y, data' j = some y → ∃ j' < b, data j' = some y ∧
    (j' = j ∨ dist b e j < dist b e j' ∧ dist b e j' < m)
  frame : ∀ j < b, m ≤ dist b e j → data' j = data j

variable {m : ℕ}

lemma Shifted.clear (hm : 0 < m) : Shifted b e m data (update data e none) := by
  refine ⟨fun j hj y hy => ⟨j, hj, ?_, .inl rfl⟩, fun j hj hle => update_of_ne ?_ _ _⟩
  · rwa [update_of_ne] at hy
    rintro rfl
    simp at hy
  · rintro rfl
    rw [dist_self] at hle
    omega

/-- An element fills the hole, and the hole that it leaves is closed. -/
lemma Shifted.move {k : ℕ} {data' : ℕ → Option α} (he : e < b) (hk : 0 < k) (hkm : k < m)
    (hm : m < b) (hd : data (shift b e k) = some y)
    (h : Shifted b (shift b e k) (m - k) (update data e (some y)) data') :
    Shifted b e m data data' ∧ data' e = some y := by
  have hn : shift b e k < b := shift_lt he (by omega)
  have hback : m - k ≤ dist b (shift b e k) e := by
    by_contra hlt
    have := dist_of_shift he he (k := k) (by omega)
    rw [dist_self] at this
    omega
  refine ⟨⟨fun j hj z hz => ?_, fun j hj hle => ?_⟩, (h.frame e he hback).trans (update_self ..)⟩
  · obtain ⟨j', hj', hz', hfrom⟩ := h.source j hj z hz
    by_cases heq : j' = e
    · -- the slot of the hole is the source of nothing else
      subst heq
      rw [update_self] at hz'
      obtain rfl := hfrom.resolve_right fun hlt => by omega
      exact ⟨_, hn, hd.trans hz', .inr (by rw [dist_self, dist_shift he (by omega)]; omega)⟩
    · rw [update_of_ne heq] at hz'
      refine ⟨j', hj', hz', hfrom.imp_right fun hlt => ?_⟩
      rw [dist_of_shift he hj (k := k) (by omega), dist_of_shift he hj' (k := k) (by omega)]
      omega
  · have hne : j ≠ e := by
      rintro rfl
      rw [dist_self] at hle
      omega
    rw [h.frame j hj, update_of_ne hne]
    by_contra hlt
    have := dist_of_shift he hj (k := k) (by omega)
    omega

variable {fuel : ℕ}

/-- The loop of `erase` with the hole `e` and `d` slots seen after it, before an empty slot `m`
    slots after the hole. -/
lemma eraseLoop_spec (hb : 0 < h.numBuckets) {d : ℕ} (filled : Bool) (he : e < h.numBuckets)
    (hp : ProbedBut h.numBuckets (h.ideal F) data e)
    (hseen : ∀ k, 0 < k → k ≤ d → ∀ y, data (shift h.numBuckets e k) = some y →
      dist h.numBuckets (h.ideal F y) (shift h.numBuckets e k) < k) (hdm : d < m)
    (hm : m < h.numBuckets) (hfree : data (shift h.numBuckets e m) = none) (hfuel : m - d ≤ fuel) :
    ∃ data' filled', h.eraseLoop F fuel data e (shift h.numBuckets e d) filled =
        some (data', filled') ∧ Probed h.numBuckets (h.ideal F) data' ∧
      Probing.elems h.numBuckets data' = Probing.elems h.numBuckets (update data e none) ∧
      Shifted h.numBuckets e m data data' ∧
      (filled' = filled ∧ data' e = none ∨ filled' = true ∧ data' e ≠ none) := by
  induction fuel generalizing e d m data filled with
  | zero => omega
  | succ fuel ih =>
    have hnext : h.nextIndex (shift h.numBuckets e d) = shift h.numBuckets e (d + 1) :=
      next_shift he (by omega)
    have hlt : shift h.numBuckets e (d + 1) < h.numBuckets := shift_lt he (by omega)
    simp only [eraseLoop, hnext, show ∀ y, h.indexForHash (F.hashfn y) = h.ideal F y from
      fun _ => rfl]
    match hd : data _ with
    | none => exact ⟨_, _, rfl, hp.close (ideal_lt hb) he hseen hd, rfl, .clear (by omega),
        .inl ⟨rfl, update_self ..⟩⟩
    | some y =>
      have hdm' : d + 1 < m := by
        rcases Nat.eq_or_lt_of_le hdm with heq | hlt
        · rw [show d + 1 = m from heq, hfree] at hd
          cases hd
        · exact hlt
      have hne : shift h.numBuckets e (d + 1) ≠ e := fun e' => by
        have := dist_shift he (show d + 1 < h.numBuckets by omega)
        rw [e', dist_self] at this
        omega
      have hcov := dist_le_dist_iff (ideal_lt (F := F) hb y) he hlt
      rw [dist_shift he (by omega)] at hcov
      simp only
      rcases Nat.lt_or_ge (dist h.numBuckets (h.ideal F y) (shift h.numBuckets e (d + 1))) (d + 1)
        with hc | hc
      · rw [if_neg fun hle => absurd (hcov.1 hle) (by omega)]
        refine ih (d := d + 1) (m := m) filled he hp (fun k h0 h1 y' hy' => ?_) hdm' hm hfree (by omega)
        rcases Nat.eq_or_lt_of_le h1 with rfl | h1
        · rw [hd] at hy'
          cases hy'
          exact hc
        · exact hseen k h0 (by omega) y' hy'
      · rw [if_pos (hcov.2 hc)]
        -- the element was probed from before the hole: it fills the hole
        have hmove := hp.move (ideal_lt hb) he hlt hne hd (by rw [dist_shift he (by omega)]; exact hc)
        have hm' : shift h.numBuckets (shift h.numBuckets e (d + 1)) (m - (d + 1)) =
            shift h.numBuckets e m := by
          rw [shift_add he (by omega), Nat.add_sub_cancel' hdm'.le]
        have hfree' : update data e (some y) (shift h.numBuckets e m) = none := by
          rw [update_of_ne, hfree]
          intro e'
          have := dist_shift he hm
          rw [e', dist_self] at this
          omega
        obtain ⟨data', filled', hr, hp', hel, hs, hf⟩ := ih (d := 0) (m := m - (d + 1)) true hlt hmove
          (fun k h0 h1 => by omega) (by omega) (by omega) (hm'.symm ▸ hfree') (by omega)
        rw [shift_zero hlt] at hr
        have hs' := hs.move he (by omega) hdm' hm hd
        refine ⟨data', filled', hr, hp', hel.trans (elems_move he hlt hne hd), hs'.1, .inr ⟨?_, ?_⟩⟩
        · exact hf.elim (·.1) (·.1)
        · rw [hs'.2]
          exact some_ne_none y

/-- `erase` takes exactly the element of the iterator out, and what it puts in the slots before the
    iterator comes from these slots. -/
lemma eraseAt_spec (hp : Probed h.numBuckets (h.ideal F) h.data)
    (hc : h.elems.card < h.numBuckets) (hi : i < h.numBuckets) (hd : h.data i = some x) :
    ∃ data' filled, let h' := { h with data := data', numElements := h.numElements - 1 }
      h.eraseAt F i = some (h', if filled then i else h'.nextNonEmptySlot i) ∧
      Probed h.numBuckets (h.ideal F) data' ∧ h.elems = x ::ₘ h'.elems ∧
      (∀ j < i, ∀ y, data' j = some y → ∃ j' < i, h.data j' = some y) ∧
      (filled = false ∧ data' i = none ∨ filled = true ∧ data' i ≠ none) := by
  have hb : 0 < h.numBuckets := by omega
  obtain ⟨z, hz, hzd⟩ := exists_free hc
  have hpos : 0 < dist h.numBuckets i z := by
    refine Nat.pos_of_ne_zero fun h0 => ?_
    rw [← shift_dist hi hz, h0, shift_zero hi, hd] at hzd
    cases hzd
  obtain ⟨data', filled, hr, hp, hel, hs, hf⟩ := eraseLoop_spec (F := F) hb (d := 0)
    false hi (hp.hole (by simp [hd])) (fun k h0 h1 => by omega) hpos (dist_lt hi hz)
    (by rw [shift_dist hi hz, hzd])
    (show _ ≤ h.numBuckets by have := dist_lt hi hz; omega)
  rw [shift_zero hi] at hr
  refine ⟨data', filled, by rw [eraseAt, hr]; rfl, hp, ?_, fun j hj y hy => ?_, hf⟩
  · rw [elems, elems, hel]
    exact elems_clear hi hd
  · obtain ⟨j', hj', hy', hfrom⟩ := hs.source j (by omega) y hy
    refine ⟨j', ?_, hy'⟩
    unfold Cyclic.dist at hfrom
    split at hfrom <;> split at hfrom <;> omega

lemma Inv.eraseAt (hI : h.Inv F) (hi : i < h.numBuckets) (hd : h.data i = some x) :
    ∃ h' it, h.eraseAt F i = some (h', it) ∧ h'.Inv F ∧ h.elems = x ::ₘ h'.elems := by
  obtain ⟨data', filled, hr, hp, hcons, -⟩ :=
    eraseAt_spec hI.probed (hI.count ▸ hI.room.resolve_right (by omega)) hi hd
  have hcount := hI.count
  have hdist := hI.distinct
  rw [hcons] at hdist
  rw [hcons, card_cons] at hcount
  refine ⟨_, _, hr, ⟨hp, ?_, (pairwise_cons.1 hdist).2, ?_, ?_⟩, hcons⟩
  · exact (congrArg (· - 1) hcount).trans rfl
  · exact hI.room.imp_left (Nat.sub_le ..).trans_lt
  · exact hI.expands

/-! ## Runs -/

/-- An operation on the set; an iterator is the index of its slot. -/
inductive Op (α : Type)
  | insert (element : α)
  | put (element : α)
  | erase (index : ℕ)
  | find (element : α)
  | reserve (numElements : ℕ)
  | resize (newSize : ℕ)
  | shrinkToMaximumLoad

variable (F L) in
/-- The set after an operation, if its loops end. -/
def step (h : HashSet α) : Op α → Option (HashSet α)
  | .insert element => (h.insertWithHash F L element).map (·.1)
  | .put element => h.putWithHash F L element
  | .erase index => (h.eraseAt F index).map (·.1)
  | .find element => (h.findIndex F element h.numBuckets).map fun _ => h
  | .reserve numElements => h.reserve F L numElements
  | .resize newSize => h.resize F L newSize
  | .shrinkToMaximumLoad => h.shrinkToMaximumLoad F L

variable (F) in
/-- What the callers promise: `Put` gets an element that is not in the set, `erase` an iterator to
    an element, and `Resize` room for the elements. -/
def Op.Valid (h : HashSet α) : Op α → Prop
  | .put element => ∀ y ∈ h.elems, F.pred y element = false
  | .erase index => index < h.numBuckets ∧ (h.data index).isSome = true
  | .resize newSize => h.numElements ≤ max kMinBuckets newSize
  | _ => True

variable (L) in
/-- The operation leaves an empty slot: `Expand` makes room for more than the element to be
    inserted, `Resize` and `ShrinkToMaximumLoad` for more than the elements. -/
def Op.Room (h : HashSet α) : Op α → Prop
  | .insert _ | .put _ => h.elementsUntilExpand ≤ h.numElements →
      h.numElements + 1 < max kMinBuckets (L.divMin h.numElements)
  | .resize newSize => h.numElements < max kMinBuckets newSize
  | .shrinkToMaximumLoad => h.numElements < max kMinBuckets (L.divMax h.numElements)
  | _ => True

variable (F) in
/-- What the operation does to a finite set: the iterator of `erase` names an element. -/
def Op.spec (h : HashSet α) (S : Multiset α) : Op α → Multiset α
  | .insert element => if S.countP (F.pred · element) = 0 then element ::ₘ S else S
  | .put element => element ::ₘ S
  | .erase index => match h.data index with
    | none => S
    | some x => S.filter fun y => F.pred y x = false
  | _ => S

variable (F L) in
/-- The states of all runs of valid operations that meet the condition `P`, each with the finite
    set that the same operations produce. -/
inductive Reachable (P : HashSet α → Op α → Prop) (bufferSize : ℕ) :
    HashSet α → Multiset α → Prop
  | create : Reachable P bufferSize (create L bufferSize) 0
  | step {h h' S} (op) : Reachable P bufferSize h S → op.Valid F h → P h op →
      h.step F L op = some h' → Reachable P bufferSize h' (op.spec F h S)

lemma Inv.expandIfNeeded (hI : h.Inv F) (hroom : (Op.insert x).Room L h) :
    ∃ h', h.expandIfNeeded F L = some h' ∧ h'.Inv F ∧ h'.elems = h.elems ∧
      h'.numElements = h.numElements ∧ h'.numElements + 1 < h'.numBuckets ∧
      (h.numElements < h.elementsUntilExpand → h' = h) := by
  by_cases hle : h.elementsUntilExpand ≤ h.numElements
  · have hroom := hroom hle
    obtain ⟨h', hr, hI', hel, hn, hb, -⟩ := hI.resize (L := L) (n := L.divMin h.numElements) (by omega)
    refine ⟨h', ?_, hI', hel, hn, by omega, fun h => absurd h (by omega)⟩
    rw [HashSet.expandIfNeeded, if_pos hle, HashSet.expand, hr]
  · refine ⟨h, by rw [HashSet.expandIfNeeded, if_neg hle], hI, rfl, rfl, ?_, fun _ => rfl⟩
    rcases hI.expands with he | ⟨-, he⟩ <;> omega

/-- `InsertWithHash` in a table that need not expand: the slot of an equal element, or an empty
    slot that is filled. -/
lemma Inv.insertWithHash_of_lt (hI : h.Inv F) (hlt : h.numElements < h.elementsUntilExpand)
    (x : α) : ∃ j < h.numBuckets, (∃ y, h.data j = some y ∧ F.pred y x = true ∧
        h.insertWithHash F L x = some (h, j, false)) ∨
      (h.data j = none ∧ (∀ y ∈ h.elems, F.pred y x = false) ∧
        let h' := { h with data := update h.data j (some x), numElements := h.numElements + 1 }
        h'.Inv F ∧ h.insertWithHash F L x = some (h', j, true)) := by
  have hexp : h.expandIfNeeded F L = some h := if_neg (not_le.2 hlt)
  have hb : h.elementsUntilExpand < h.numBuckets := hI.expands.resolve_right fun h0 => by omega
  obtain ⟨j, hj, hf, hcase⟩ := hI.findIndexImpl (by omega) x
  refine ⟨j, hj, ?_⟩
  rcases hcase with ⟨y, hy, hp⟩ | ⟨hd, hpath, hne⟩
  · refine .inl ⟨y, hy, hp, ?_⟩
    simp [HashSet.insertWithHash, hexp, hf, isFreeSlot, hy]
  · refine .inr ⟨hd, hne, (hI.place hj hd hpath hne (by omega)).1, ?_⟩
    simp [HashSet.insertWithHash, hexp, hf, isFreeSlot, hd]

/-- `InsertWithHash` adds the element if no equal one is there. -/
lemma Inv.insertWithHash (hI : h.Inv F) (hroom : (Op.insert x).Room L h) :
    ∃ h' i new, h.insertWithHash F L x = some (h', i, new) ∧ h'.Inv F ∧
      h'.elems = (Op.insert x).spec F h h.elems ∧
      (h.numElements < h.elementsUntilExpand → h'.numBuckets = h.numBuckets ∧
        h'.elementsUntilExpand = h.elementsUntilExpand) := by
  obtain ⟨g, hg, hIg, hel, hn, hb, hsame⟩ := hI.expandIfNeeded hroom
  obtain ⟨j, hj, hf, hcase⟩ := hIg.findIndexImpl (by omega) x
  rcases hcase with ⟨y, hy, hp⟩ | ⟨hd, hpath, hne⟩
  · refine ⟨g, j, false, ?_, hIg, ?_, fun h => ?_⟩
    · simp [HashSet.insertWithHash, hg, hf, isFreeSlot, hy]
    · rw [Op.spec, if_neg, hel]
      exact fun h0 => countP_eq_zero.1 h0 y (hel ▸ mem_elems.2 ⟨j, hj, hy⟩) hp
    · rw [hsame h]
      exact ⟨rfl, rfl⟩
  · obtain ⟨hI', he'⟩ := hIg.place hj hd hpath hne (by omega)
    refine ⟨_, j, true, ?_, hI', ?_, fun h => ?_⟩
    · simp [HashSet.insertWithHash, hg, hf, isFreeSlot, hd]
    · rw [he', Op.spec, if_pos, hel]
      exact countP_eq_zero.2 fun y hy => by simp [hne y (hel.symm ▸ hy)]
    · rw [hsame h]
      exact ⟨rfl, rfl⟩

/-- `PutWithHash` adds the element. -/
lemma Inv.putWithHash (hI : h.Inv F) (hv : (Op.put x).Valid F h) (hroom : (Op.put x).Room L h) :
    ∃ h', h.putWithHash F L x = some h' ∧ h'.Inv F ∧ h'.elems = x ::ₘ h.elems := by
  obtain ⟨g, hg, hIg, hel, -, hb, -⟩ := hI.expandIfNeeded (x := x) hroom
  obtain ⟨z, hz, hzd⟩ := exists_free (hIg.count ▸ hIg.room.resolve_right (by omega))
  obtain ⟨j, hj, hf, hstop, hpath⟩ := exists_probe_eq_some
    (ideal_lt (F := F) (by omega) x) hz
    (findStop_of_none (F := F) (c := false) (x := x) hzd)
  have hstop_iff : ∀ i, g.findStop F false x i = (g.data i).isNone := fun i => by
    unfold findStop
    cases g.data i <;> rfl
  rw [hstop_iff, isNone_iff_eq_none] at hstop
  obtain ⟨hI', he'⟩ := hIg.place hj hstop
    (fun k hk => by simpa [hstop_iff, isSome_iff_ne_none] using hpath k hk)
    (fun y hy => hv y (hel ▸ hy)) hb
  refine ⟨_, ?_, hI', by rw [he', hel]⟩
  rw [HashSet.putWithHash, hg]
  exact (congrArg (Option.bind · _) hf).trans rfl

/-- A valid operation with room ends, keeps the invariant, and does what it does to a finite set. -/
lemma Inv.step (hI : h.Inv F) (op : Op α) (hv : op.Valid F h) (hroom : op.Room L h) :
    ∃ h', h.step F L op = some h' ∧ h'.Inv F ∧ h'.elems = op.spec F h h.elems := by
  cases op with
  | insert x =>
    obtain ⟨h', i, new, hr, hI', hel, -⟩ := hI.insertWithHash hroom
    exact ⟨h', by rw [HashSet.step, hr]; rfl, hI', hel⟩
  | put x => exact hI.putWithHash hv hroom
  | erase i =>
    obtain ⟨x, hx⟩ := isSome_iff_exists.1 hv.2
    obtain ⟨h', it, hr, hI', hel⟩ := hI.eraseAt hv.1 hx
    refine ⟨h', by rw [HashSet.step, hr]; rfl, hI', ?_⟩
    have hdist := hI.distinct
    rw [hel] at hdist
    have hrest : ∀ y ∈ h'.elems, F.pred y x = false := fun y hy =>
      symm_of F.Distinct ((pairwise_cons.1 hdist).1 y hy)
    simp only [Op.spec, hx]
    rw [hel, filter_cons_of_neg _ (by simp [F.refl]), filter_eq_self.2 hrest]
  | find x =>
    obtain ⟨j, hj, -⟩ := hI.findIndex x
    exact ⟨h, by rw [HashSet.step, hj]; rfl, hI, rfl⟩
  | reserve n =>
    simp only [HashSet.step, HashSet.reserve]
    split
    next hlt =>
      have hle : h.numElements ≤ h.numBuckets := hI.count ▸ card_elems_le ..
      obtain ⟨h', hr, hI', hel, -⟩ := hI.resize (L := L) (hle.trans_lt (lt_max_of_lt_right hlt))
      exact ⟨h', hr, hI', hel⟩
    next => exact ⟨h, rfl, hI, rfl⟩
  | resize n | shrinkToMaximumLoad =>
    obtain ⟨h', hr, hI', hel, -⟩ := hI.resize (L := L) hroom
    exact ⟨h', hr, hI', hel⟩

lemma Reachable.inv {S : Multiset α} (hr : Reachable F L (fun h op => op.Room L h) n h S) :
    h.Inv F ∧ h.elems = S := by
  induction hr with
  | create => exact ⟨inv_create n, elems_eq_zero fun _ _ => rfl⟩
  | @step h h' S op _ hv hroom hs ih =>
    obtain ⟨g, hg, hI, hel⟩ := ih.1.step op hv hroom
    obtain rfl := some.inj (hg.symm.trans hs)
    exact ⟨hI, ih.2 ▸ hel⟩

/-- In every run whose operations leave an empty slot, the set refines a finite set: the slots are
    probed without gaps and `Verify()` finds no error, the elements are counted, they are those of
    the finite set and no two of them are equal, `find` returns the slot of an equal element
    exactly when the finite set has one, and every further such operation ends. -/
theorem run_refines (F : HashFns α) (L : LoadFactors) (bufferSize : ℕ) {h : HashSet α}
    {S : Multiset α} (hr : Reachable F L (fun h op => op.Room L h) bufferSize h S) :
    Probed h.numBuckets (h.ideal F) h.data ∧ h.verify F = 0 ∧
    h.numElements = ((List.range h.numBuckets).filter fun i => !h.isFreeSlot i).length ∧
    h.elems = S ∧ S.Pairwise F.Distinct ∧ (∀ x, ∃ j, h.findIndex F x h.numBuckets = some j ∧
      ((∃ y ∈ S, F.pred y x = true) ↔ ∃ y, j < h.numBuckets ∧ h.data j = some y ∧ F.pred y x = true) ∧
      ((∀ y ∈ S, F.pred y x = false) → j = h.numBuckets)) ∧
    ∀ op, op.Valid F h → op.Room L h → ∃ h', h.step F L op = some h' := by
  obtain ⟨hI, rfl⟩ := hr.inv
  refine ⟨hI.probed, hI.verify, ?_, rfl, hI.distinct, fun x => ?_, fun op hv hroom => ?_⟩
  · rw [hI.count, HashSet.elems, card_elems]
    simp [isFreeSlot, not_isNone]
  · obtain ⟨j, hj, hcase⟩ := hI.findIndex x
    refine ⟨j, hj, ?_⟩
    rcases hcase with ⟨y, hlt, hy, hp⟩ | ⟨rfl, hne⟩
    · have hmem := mem_elems.2 ⟨j, hlt, hy⟩
      exact ⟨iff_of_true ⟨y, hmem, hp⟩ ⟨y, hlt, hy, hp⟩, fun hne => by simp [hne y hmem] at hp⟩
    · refine ⟨iff_of_false ?_ fun ⟨y, hlt, _⟩ => lt_irrefl _ hlt, fun _ => rfl⟩
      rintro ⟨y, hy, hp⟩
      simp [hne y hy] at hp
  · obtain ⟨h', hs, -⟩ := hI.step op hv hroom
    exact ⟨h', hs⟩

/-! ## Reserving -/

/-- After `reserve` the number of elements can grow to what was reserved without expanding. -/
lemma Inv.reserve (hI : h.Inv F) (hmono : Monotone L.mulMax)
    (hu : h.elementsUntilExpand = L.mulMax h.numBuckets) (n : ℕ) :
    ∃ h', h.reserve F L n = some h' ∧ h'.Inv F ∧ h'.elems = h.elems ∧
      h'.elementsUntilExpand = L.mulMax h'.numBuckets ∧
      h.elementsUntilExpand ≤ h'.elementsUntilExpand ∧ n + 1 < h'.elementsUntilExpand := by
  have hfind := Nat.find_spec (L.mulMax_unbounded (n + 1) (L.divMax n))
  simp only [HashSet.reserve]
  split
  next hlt =>
    have hle : h.numElements ≤ h.numBuckets := hI.count ▸ card_elems_le ..
    obtain ⟨h', hr, hI', hel, hn, hb, hu'⟩ := hI.resize (L := L) (hle.trans_lt (lt_max_of_lt_right hlt))
    refine ⟨h', hr, hI', hel, by rw [hu', hb], ?_, ?_⟩
    · rw [hu, hu']
      exact hmono (hlt.le.trans (le_max_right ..))
    · rw [hu']
      exact hfind.trans_le (hmono (le_max_right ..))
  next hge =>
    refine ⟨h, rfl, hI, rfl, hu, le_rfl, ?_⟩
    rw [hu]
    exact hfind.trans_le (hmono (not_lt.1 hge))

/-! ## Erasing while iterating -/

lemma nextNonEmptySlot_spec (hi : i < h.numBuckets) :
    i < h.nextNonEmptySlot i ∧ h.nextNonEmptySlot i ≤ h.numBuckets ∧
      (∀ j, i < j → j < h.nextNonEmptySlot i → h.data j = none) ∧
      (h.nextNonEmptySlot i < h.numBuckets → h.data (h.nextNonEmptySlot i) ≠ none) := by
  unfold nextNonEmptySlot
  cases hfind : (List.range' (i + 1) _).find? fun i => !h.isFreeSlot i with
  | none =>
    rw [List.find?_range'_eq_none] at hfind
    refine ⟨hi, le_rfl, fun j hij hj => ?_, fun hlt => absurd hlt (lt_irrefl _)⟩
    simpa [isFreeSlot] using hfind j (by omega) (by simp only [getD_none] at hj; omega)
  | some n =>
    obtain ⟨hn, hmem, hfree⟩ := List.find?_range'_eq_some.1 hfind
    rw [List.mem_range'_1] at hmem
    refine ⟨hmem.1, ?_, fun j hij hj => ?_, fun _ => ?_⟩
    · simp only [getD_some]
      omega
    · simpa [isFreeSlot] using hfree j (by omega) hj
    · exact isSome_iff_ne_none.1 (by simpa [isFreeSlot] using hn)

/-- The iterator is at an element or at the end, and the elements before it are to stay. -/
structure AtSlot (pred : α → Bool) (h : HashSet α) (it : ℕ) : Prop where
  le : it ≤ h.numBuckets
  slot : it < h.numBuckets → h.data it ≠ none
  kept : ∀ j < it, ∀ y, h.data j = some y → pred y = false

variable {pred : α → Bool}

lemma AtSlot.next (hi : i < h.numBuckets) (hkept : ∀ j < i, ∀ y, h.data j = some y → pred y = false)
    (hhere : ∀ y, h.data i = some y → pred y = false) : AtSlot pred h (h.nextNonEmptySlot i) := by
  obtain ⟨-, hle, hfree, hslot⟩ := nextNonEmptySlot_spec hi
  refine ⟨hle, hslot, fun j hj y hy => ?_⟩
  rcases lt_trichotomy i j with hij | rfl | hij
  · cases (hfree j hij hj).symm.trans hy
  · exact hhere y hy
  · exact hkept j hij y hy

lemma atSlot_begin : AtSlot pred h h.begin := by
  unfold begin
  split_ifs with hfree
  · refine .next (Nat.pos_of_ne_zero hfree.1) (fun j hj => by omega) fun y hy => ?_
    simp [isFreeSlot, hy] at hfree
  · refine ⟨Nat.zero_le _, fun hlt hd => hfree ⟨hlt.ne', ?_⟩, fun j hj => by omega⟩
    rw [isFreeSlot, hd]
    rfl

variable {it : ℕ}

/-- The loop ends, by induction on the iterations: each takes an element out or moves the iterator. -/
lemma eraseIfLoop_spec (hp : Probed h.numBuckets (h.ideal F) h.data)
    (hroom : h.elems.card < h.numBuckets ∨ ∀ x ∈ h.elems, pred x = false) (hat : AtSlot pred h it)
    (hfuel : h.elems.card + (h.numBuckets - it) < fuel) :
    ∃ h', eraseIfLoop F pred fuel h it = some h' ∧ Probed h'.numBuckets (h'.ideal F) h'.data ∧
      h'.elems = h.elems.filter (pred · = false) := by
  induction fuel generalizing h it with
  | zero => omega
  | succ fuel ih =>
    rw [eraseIfLoop]
    split_ifs with hend
    · subst hend
      refine ⟨h, rfl, hp, (filter_eq_self.2 fun x hx => ?_).symm⟩
      obtain ⟨j, hj, hx⟩ := mem_elems.1 hx
      exact hat.kept j hj x hx
    have hit : it < h.numBuckets := lt_of_le_of_ne hat.le hend
    obtain ⟨x, hx⟩ := ne_none_iff_exists'.1 (hat.slot hit)
    have hmem : x ∈ h.elems := mem_elems.2 ⟨it, hit, hx⟩
    simp only [hx, bind_eq_bind, bind_some]
    cases hpred : pred x with
    | false =>
      refine ih hp hroom (.next hit hat.kept fun y hy => ?_) ?_
      · exact some.inj (hx.symm.trans hy) ▸ hpred
      · have := nextNonEmptySlot_spec hit
        omega
    | true =>
      have hc := hroom.resolve_right fun hall => by simp [hall x hmem] at hpred
      obtain ⟨data', filled, hr, hp', hcons, hsource, hf⟩ := eraseAt_spec hp hc hit hx
      have hkept : ∀ j < it, ∀ y, data' j = some y → pred y = false := fun j hj y hy => by
        obtain ⟨j', hj', hy'⟩ := hsource j hj y hy
        exact hat.kept j' hj' y hy'
      rw [hcons, card_cons] at hc hfuel
      rw [hcons, filter_cons_of_neg _ (by simp [hpred]), if_pos rfl, hr]
      rcases hf with ⟨rfl, hnone⟩ | ⟨rfl, hfilled⟩
      · refine ih hp' (.inl (Nat.lt_of_succ_lt hc)) (.next hit hkept fun y hy => ?_) ?_
        · cases hnone.symm.trans hy
        · have := nextNonEmptySlot_spec (i := it)
            (h := ⟨h.numElements - 1, h.numBuckets, h.elementsUntilExpand, data'⟩) hit
          simp only [Bool.false_eq_true, if_false] at this ⊢
          omega
      · refine ih hp' (.inl (Nat.lt_of_succ_lt hc)) ⟨hat.le, fun _ => hfilled, hkept⟩ ?_
        simp only [if_true]
        omega

/-- Without an empty slot the loop of `erase` never ends. -/
lemma eraseLoop_full {index : ℕ} (hfull : ∀ j < h.numBuckets, (data j).isSome = true)
    (hindex : index < h.numBuckets) (fuel e : ℕ) (filled : Bool) :
    h.eraseLoop F fuel data e index filled = none := by
  induction fuel generalizing data index e filled with
  | zero => rfl
  | succ fuel ih =>
    have hnext : h.nextIndex index < h.numBuckets := next_lt hindex
    obtain ⟨y, hy⟩ := isSome_iff_exists.1 (hfull _ hnext)
    have hmoved : ∀ j < h.numBuckets, (update data e (some y) j).isSome = true := fun j hj => by
      by_cases hje : j = e
      · rw [hje, update_self]
        rfl
      · rw [update_of_ne hje]
        exact hfull j hj
    simp only [eraseLoop, hy, ih hmoved hnext, ih hfull hnext, ite_self]

/-- Without an empty slot the loop does not get past an element that is to be erased. -/
lemma eraseIfLoop_full (hc : h.elems.card = h.numBuckets) (hx : x ∈ h.elems)
    (hpred : pred x = true) (hat : AtSlot pred h it) (fuel : ℕ) : eraseIfLoop F pred fuel h it = none := by
  induction fuel generalizing it with
  | zero => rfl
  | succ fuel ih =>
    have hend : it ≠ h.numBuckets := by
      rintro rfl
      obtain ⟨j, hj, hx⟩ := mem_elems.1 hx
      simp [hat.kept j hj x hx] at hpred
    have hit := lt_of_le_of_ne hat.le hend
    obtain ⟨z, hz⟩ := ne_none_iff_exists'.1 (hat.slot hit)
    simp only [eraseIfLoop, hend, hz, bind_eq_bind, bind_some]
    cases hpz : pred z with
    | false => exact ih (.next hit hat.kept fun y hy => some.inj (hz.symm.trans hy) ▸ hpz)
    | true => simp [eraseAt, eraseLoop_full (isSome_of_card_eq hc) hit]

/-- Erasing while iterating ends and leaves the elements that do not satisfy the predicate, exactly if
    there is an empty slot or nothing to erase. Then no `erase` puts an element in a slot before the
    iterator that was not in such a slot, and otherwise none ends. -/
theorem eraseIf_iff (hp : Probed h.numBuckets (h.ideal F) h.data) (pred : α → Bool) :
    ((∃ fuel h', eraseIf F pred fuel h = some h' ∧ Probed h'.numBuckets (h'.ideal F) h'.data ∧
        h'.elems = h.elems.filter (pred · = false)) ↔
      h.elems.card < h.numBuckets ∨ ∀ x ∈ h.elems, pred x = false) ∧
    ∀ i < h.numBuckets, ∀ x, h.data i = some x →
      (h.elems.card < h.numBuckets → ∃ h' it, h.eraseAt F i = some (h', it) ∧
        Probed h'.numBuckets (h'.ideal F) h'.data ∧
        ∀ j < i, ∀ y, h'.data j = some y → ∃ j' < i, h.data j' = some y) ∧
      (h.elems.card = h.numBuckets → ∀ fuel, h.eraseLoop F fuel h.data i i false = none) := by
  refine ⟨⟨?_, fun hroom => ?_⟩, fun i hi x hx => ⟨fun hc => ?_, fun hc fuel => ?_⟩⟩
  · rintro ⟨fuel, h', hr, -⟩
    by_contra hne
    push Not at hne
    obtain ⟨hc, x, hx, hpred⟩ := hne
    rw [eraseIf, eraseIfLoop_full (le_antisymm (card_elems_le ..) hc) hx
      (Bool.ne_false_iff.1 hpred) atSlot_begin] at hr
    cases hr
  · obtain ⟨h', hr⟩ := eraseIfLoop_spec hp hroom atSlot_begin (Nat.lt_succ_self _)
    exact ⟨_, h', hr⟩
  · obtain ⟨data', filled, hr, hp', -, hsource, -⟩ := eraseAt_spec hp hc hi hx
    exact ⟨_, _, hr, hp', hsource⟩
  · exact eraseLoop_full (isSome_of_card_eq hc) hi ..

/-! ## A table that fills -/

/-- Numbers that are their own hash. -/
def numbers : HashFns ℕ where
  hashfn n := n
  pred m n := m == n
  refl := by simp
  symm := by simp +contextual
  trans := by simp +contextual
  hash_eq := by simp

/-- A minimum load of one half, and a maximum load of 0.9999. -/
def tightLoad : LoadFactors where
  divMin n := 2 * n
  divMax n := n * 10000 / 9999
  mulMax n := n * 9999 / 10000
  mulMax_zero := rfl
  mulMax_lt n hn := by omega
  mulMax_unbounded n m := ⟨2 * n + 2, by omega⟩

lemma reachable_collision : ∃ h : HashSet ℕ,
    Reachable numbers tightLoad (fun h op => op.Room tightLoad h) 4 h (5 ::ₘ 1 ::ₘ 0) := by
  have h1 : Reachable numbers tightLoad (fun h op => op.Room tightLoad h) 4 _ _ :=
    .step (.insert 1) .create trivial (fun h => absurd h (by decide)) rfl
  exact ⟨_, h1.step (.insert 5) trivial (fun h => absurd h (by decide)) rfl⟩

/-- Two numbers with the same ideal slot, of which the second is found after the first. -/
theorem run_refines_collision : ∃ h : HashSet ℕ,
    Reachable numbers tightLoad (fun h op => op.Room tightLoad h) 4 h (5 ::ₘ 1 ::ₘ 0) ∧
      h.verify numbers = 0 := by
  obtain ⟨h, hr⟩ := reachable_collision
  exact ⟨h, hr, (run_refines numbers tightLoad 4 hr).2.1⟩

/-- Inserting the numbers below `n` in a table of 2000 buckets. -/
lemma reachable_range (P : HashSet ℕ → Op ℕ → Prop) (hP : ∀ h op, P h op) (hn : n ≤ 1999) :
    ∃ h : HashSet ℕ, Reachable numbers tightLoad P 2000 h (Multiset.range n) ∧ h.Inv numbers ∧
      h.elementsUntilExpand = 1999 ∧ h.elems = Multiset.range n := by
  induction n with
  | zero => exact ⟨_, .create, inv_create 2000, rfl, elems_eq_zero fun _ _ => rfl⟩
  | succ n ih =>
    obtain ⟨h, hr, hI, hu, hel⟩ := ih (by omega)
    have hlt : h.numElements < h.elementsUntilExpand := by
      rw [hI.count, hel, card_range, hu]
      omega
    obtain ⟨h', i, new, hs, hI', hel', hsame⟩ :=
      hI.insertWithHash (x := n) (L := tightLoad) fun hle => absurd hle (by omega)
    have hspec : (Op.insert n).spec numbers h (Multiset.range n) = Multiset.range (n + 1) := by
      rw [Op.spec, if_pos, range_succ]
      refine countP_eq_zero.2 fun m hm => ?_
      have := mem_range.1 hm
      simp only [numbers, beq_iff_eq]
      omega
    have hr' := hr.step (.insert n) trivial (hP _ _) (by rw [HashSet.step, hs]; rfl)
    rw [hspec] at hr'
    exact ⟨h', hr', hI', (hsame hlt).2.trans hu, by rw [hel', hel, hspec]⟩

/-- With a maximum load of 0.9999, shrinking a table of 1000 elements leaves no empty slot. -/
lemma exists_full : ∃ h : HashSet ℕ,
    Reachable numbers tightLoad (fun _ _ => True) 2000 h (Multiset.range 1000) ∧
      h.elementsUntilExpand < h.numBuckets ∧ Probed h.numBuckets (h.ideal numbers) h.data ∧
      h.elems = Multiset.range 1000 ∧ h.elems.card = h.numBuckets := by
  obtain ⟨h, hr, hI, -, hel⟩ :=
    reachable_range (fun _ _ => True) (fun _ _ => trivial) (n := 1000) (by omega)
  have hn : h.numElements = 1000 := by rw [hI.count, hel, card_range]
  have hdiv : max kMinBuckets (tightLoad.divMax h.numElements) = 1000 := by
    rw [hn]
    simp [tightLoad, kMinBuckets]
  obtain ⟨h', hs, hb', -, hu', hp', hel'⟩ := resize_spec (F := numbers) (L := tightLoad) (h := h)
    _ (by rw [hdiv, ← hI.count, hn])
  rw [hdiv] at hb' hu'
  refine ⟨h', hr.step .shrinkToMaximumLoad trivial trivial hs, ?_, hp', hel'.trans hel, ?_⟩
  · rw [hb', hu']
    exact tightLoad.mulMax_lt 1000 (by omega)
  · rw [hel', hel, card_range, hb']

/-- The search for an element that is not in the full table never ends. -/
theorem shrinkToMaximumLoad_fills : ∃ h : HashSet ℕ,
    Reachable numbers tightLoad (fun _ _ => True) 2000 h (Multiset.range 1000) ∧
      h.elementsUntilExpand < h.numBuckets ∧ ∀ fuel, h.findIndex numbers 1000 fuel = none := by
  obtain ⟨h, hr, hu, -, hel, hcard⟩ := exists_full
  refine ⟨h, hr, hu, fun fuel => ?_⟩
  have hnone : h.findIndexImpl numbers true 1000 fuel = none := by
    refine probe_eq_none (ideal_lt (F := numbers) (by omega) 1000) (fun j hj => ?_) fuel
    obtain ⟨y, hy⟩ := isSome_iff_exists.1 (isSome_of_card_eq hcard j hj)
    have hmem : y ∈ h.elems := mem_elems.2 ⟨j, hj, hy⟩
    rw [hel, mem_range] at hmem
    simp only [findStop, hy, numbers, Bool.true_and, beq_eq_false_iff_ne]
    omega
  rw [HashSet.findIndex, if_neg (by omega), hnone]
  rfl

/-- Erasing an element of the full table never ends. -/
theorem eraseIf_full : ∃ h : HashSet ℕ,
    Reachable numbers tightLoad (fun _ _ => True) 2000 h (Multiset.range 1000) ∧
      Probed h.numBuckets (h.ideal numbers) h.data ∧
      (∀ fuel, h.eraseLoop numbers fuel h.data 0 0 false = none) ∧
      ∀ fuel, eraseIf numbers (fun _ => true) fuel h = none := by
  obtain ⟨h, hr, -, hp, hel, hcard⟩ := exists_full
  have hb : h.numBuckets = 1000 := by rw [← hcard, hel, card_range]
  refine ⟨h, hr, hp, fun fuel => ?_, fun fuel => ?_⟩
  · exact eraseLoop_full (isSome_of_card_eq hcard) (by omega) ..
  · exact eraseIfLoop_full hcard (hel ▸ mem_range.2 (show 0 < 1000 by decide)) rfl
      atSlot_begin fuel

/-- Of two numbers with the same ideal slot the first one is erased. -/
theorem eraseIf_collision : ∃ h : HashSet ℕ,
    Reachable numbers tightLoad (fun h op => op.Room tightLoad h) 4 h (5 ::ₘ 1 ::ₘ 0) ∧
      ∃ fuel h', eraseIf numbers (· == 1) fuel h = some h' ∧ h'.elems = 5 ::ₘ 0 := by
  obtain ⟨h, hr⟩ := reachable_collision
  obtain ⟨hI, hel⟩ := hr.inv
  have hcard : h.elems.card = 2 := congrArg _ hel
  have hle : h.elems.card ≤ h.numBuckets := card_elems_le ..
  have hroom : h.elems.card < h.numBuckets := hI.count ▸ hI.room.resolve_right (by omega)
  obtain ⟨fuel, h', he, -, hel'⟩ := (eraseIf_iff hI.probed (· == 1)).1.2 (.inl hroom)
  exact ⟨h, hr, fuel, h', he, by rw [hel', hel]; rfl⟩

end HashSet

end Art
