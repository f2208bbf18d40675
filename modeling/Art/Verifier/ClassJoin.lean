import Art.Verifier.Class

/-!
# The join of two classes

`ClassJoin` of `runtime/verifier/reg_type.cc`, with `ArrayClassJoin` and `InterfaceClassJoin`. The join is
found for all classes that are not primitive, and both classes can be assigned to it. It is the least such
class but for interfaces.
-/

namespace Art

open List Relation.ReflTransGen
namespace Class

open Option (map_eq_some_iff some)

variable {N : Type} [DecidableEq N] (h : Hierarchy N)

/-! ## The loops -/

/-- The superclass `k` levels up. -/
def superClassUp : ℕ → Class N → Option (Class N)
  | 0, s => some s
  | k + 1, s => (s.getSuperClass h).bind (superClassUp k)

/-- Going up from both classes until they are equal, with a bound of the levels. -/
def commonParent : ℕ → Class N → Class N → Option (Class N)
  | 0, s, t => if s = t then some s else none
  | k + 1, s, t =>
    if s = t then some s
    else (s.getSuperClass h).bind fun s => (t.getSuperClass h).bind fun t => commonParent k s t

/-- The class, if it is an interface, and the interfaces of its table, backwards. -/
def interfaces (c : Class N) : List (Class N) :=
  (c :: (c.getIfTable h).reverse.map named).filter (isInterface h)

def interfaceClassJoin (s t : Class N) : Option (Class N) :=
  match (s.interfaces h).find? fun sCl => (t.interfaces h).contains sCl with
  | some sCl => some sCl
  | none => if s.isInterface h then s.getSuperClass h else t.getSuperClass h

/-- The last case of `ClassJoin(s, t)`: classes that are no interfaces. -/
def parentClassJoin (s t : Class N) : Option (Class N) :=
  if s.depth h > t.depth h then
    (superClassUp h (s.depth h - t.depth h) s).bind fun s => commonParent h (t.depth h) s t
  else
    (superClassUp h (t.depth h - s.depth h) t).bind fun t => commonParent h (s.depth h) s t

/-- `ClassJoin(s, t)`, without failures of `FindArrayClass`. The test `s == t` is the first one of
    `IsAssignableFrom`. -/
def classJoin : Class N → Class N → Option (Class N)
  | array s, array t =>
    if isAssignableFrom h (array s) (array t) then some (array s)
    else if isAssignableFrom h (array t) (array s) then some (array t)
    -- `ArrayClassJoin`
    else if s.isPrimitive || t.isPrimitive then getSuperClass h (array s)
    else (classJoin s t).map array
  | s, t =>
    if isAssignableFrom h s t then some s
    else if isAssignableFrom h t s then some t
    else if s.isInterface h || t.isInterface h then interfaceClassJoin h s t
    else parentClassJoin h s t

/-! ## The join is an upper bound -/

variable {h}

/-- `j` is a superclass of `s`, or `s`. -/
def IsParent (h : Hierarchy N) (j s : Class N) : Prop :=
  Relation.ReflTransGen (fun a b => a.getSuperClass h = some b) s j

section

omit [DecidableEq N]

lemma depth_getSuperClass {s s' : Class N} (hs : s.getSuperClass h = some s') :
    s.depth h = s'.depth h + 1 := by
  cases s with
  | primitive p => cases hs
  | array s =>
    cases hs
    rw [depth, depth, h.depth_object]
  | named n =>
    obtain ⟨m, hm, rfl⟩ := map_eq_some_iff.1 hs
    exact h.depth_superclass hm

/-- Superclasses have smaller depths. -/
lemma IsParent.depth_le {u s : Class N} (hu : IsParent h u s) :
    u.depth h ≤ s.depth h ∧ (u.depth h = s.depth h → u = s) := by
  induction hu using head_induction_on with
  | refl => exact ⟨Nat.le_refl _, fun _ => rfl⟩
  | head hs _ ih =>
    have hdepth := depth_getSuperClass hs
    exact ⟨by omega, fun heq => by omega⟩

/-- The superclasses of a class are a chain. -/
lemma IsParent.of_depth_le {u j s : Class N} (hu : IsParent h u s) (hj : IsParent h j s)
    (hle : u.depth h ≤ j.depth h) : IsParent h u j := by
  have hunique : Relator.RightUnique fun a b : Class N => a.getSuperClass h = some b :=
    fun _ _ _ hb hc => some.inj (hb.symm.trans hc)
  rcases hj.total_of_right_unique hunique hu with huj | hju
  · exact huj
  · have hdepth := IsParent.depth_le hju
    rw [hdepth.2 (Nat.le_antisymm hdepth.1 hle)]
    exact .refl

lemma exists_getSuperClass {s : Class N} (hs : s.isPrimitive = false) (hdepth : s.depth h ≠ 0) :
    ∃ s', s.getSuperClass h = some s' ∧ s'.isPrimitive = false ∧ s.depth h = s'.depth h + 1 := by
  cases s with
  | primitive p => cases hs
  | array s => exact ⟨named h.object, rfl, rfl, depth_getSuperClass rfl⟩
  | named n =>
    have hn : n ≠ h.object := by
      rintro rfl
      exact hdepth h.depth_object
    obtain ⟨m, hm⟩ := exists_superclass hn
    exact ⟨named m, by rw [getSuperClass, hm]; rfl, rfl, h.depth_superclass hm⟩

lemma superClassUp_spec {k : ℕ} {s : Class N} (hs : s.isPrimitive = false) (hk : k ≤ s.depth h) :
    ∃ s', superClassUp h k s = some s' ∧ s'.isPrimitive = false ∧ s.depth h = s'.depth h + k ∧
      IsParent h s' s := by
  induction k generalizing s with
  | zero => exact ⟨s, rfl, hs, rfl, .refl⟩
  | succ k ih =>
    obtain ⟨u, hu, huprim, hdepth⟩ := exists_getSuperClass hs (by omega : s.depth h ≠ 0)
    obtain ⟨s', hs', hprim, hdepth', hparent⟩ := ih huprim (by omega)
    refine ⟨s', ?_, hprim, by omega, .head hu hparent⟩
    rw [superClassUp, hu]
    exact hs'

lemma eq_object_of_depth_eq_zero {s : Class N} (hs : s.isPrimitive = false) (hdepth : s.depth h = 0) :
    s = named h.object := by
  cases s with
  | primitive p => cases hs
  | array s => cases hdepth
  | named n => rw [eq_object_of_depth hdepth]

end

variable {s t : Class N}

/-- The lowest class that is a superclass of both. -/
structure IsLowestParent (h : Hierarchy N) (s t j : Class N) : Prop where
  left : IsParent h j s
  right : IsParent h j t
  lowest : ∀ u, IsParent h u s → IsParent h u t → IsParent h u j

variable (hs : s.isPrimitive = false) (ht : t.isPrimitive = false)

include hs ht in
lemma commonParent_spec {k : ℕ} (hsk : s.depth h = k) (htk : t.depth h = k) :
    ∃ j, commonParent h k s t = some j ∧ j.isPrimitive = false ∧ IsLowestParent h s t j := by
  induction k generalizing s t with
  | zero =>
    obtain rfl := eq_object_of_depth_eq_zero hs hsk
    obtain rfl := eq_object_of_depth_eq_zero ht htk
    exact ⟨_, if_pos rfl, hs, .refl, .refl, fun u hu _ => hu⟩
  | succ k ih =>
    rw [commonParent]
    split_ifs with heq
    · subst heq
      exact ⟨s, rfl, hs, .refl, .refl, fun u hu _ => hu⟩
    · obtain ⟨s', hs', hsprim, hsdepth⟩ := exists_getSuperClass hs (by omega : s.depth h ≠ 0)
      obtain ⟨t', ht', htprim, htdepth⟩ := exists_getSuperClass ht (by omega : t.depth h ≠ 0)
      obtain ⟨j, hj, hprim, hjs, hjt, hlowest⟩ := ih hsprim htprim (by omega) (by omega)
      refine ⟨j, ?_, hprim, .head hs' hjs, .head ht' hjt, fun u hus hut => ?_⟩
      · rw [hs', ht']
        exact hj
      · have hle : u.depth h ≤ k := by
          by_contra hlt
          have hsu := hus.depth_le
          exact heq ((hsu.2 (by omega)).symm.trans (hut.depth_le.2 (by omega)))
        exact hlowest u (hus.of_depth_le (.single hs') (by omega)) (hut.of_depth_le (.single ht') (by omega))

include hs ht in
lemma parentClassJoin_spec :
    ∃ j, parentClassJoin h s t = some j ∧ j.isPrimitive = false ∧ IsLowestParent h s t j := by
  unfold parentClassJoin
  split_ifs with hdepth
  · obtain ⟨s', hs', hprim, hsdepth, hparent⟩ := superClassUp_spec (h := h) hs (Nat.sub_le _ (t.depth h))
    have heq : s'.depth h = t.depth h := by omega
    obtain ⟨j, hj, hjprim, hjs, hjt, hlowest⟩ := commonParent_spec hprim ht heq rfl
    refine ⟨j, by rw [hs']; exact hj, hjprim, hparent.trans hjs, hjt, fun u hus hut => ?_⟩
    exact hlowest u (hus.of_depth_le hparent (heq ▸ hut.depth_le.1)) hut
  · obtain ⟨t', ht', hprim, htdepth, hparent⟩ := superClassUp_spec (h := h) ht (Nat.sub_le _ (s.depth h))
    have heq : t'.depth h = s.depth h := by omega
    obtain ⟨j, hj, hjprim, hjs, hjt, hlowest⟩ := commonParent_spec hs hprim rfl heq
    refine ⟨j, by rw [ht']; exact hj, hjprim, hjs, hparent.trans hjt, fun u hus hut => ?_⟩
    exact hlowest u hus (hut.of_depth_le hparent (heq ▸ hus.depth_le.1))

section

omit [DecidableEq N]

lemma IsAncestor.isParent {m n : N} (hanc : IsAncestor h m n) : IsParent h (named m) (named n) :=
  hanc.lift named fun _ _ hab => congrArg (Option.map named) hab

lemma IsParent.named {j : Class N} {n : N} (hj : IsParent h j (named n)) :
    ∃ m, j = .named m ∧ IsAncestor h m n := by
  induction hj with
  | refl => exact ⟨n, rfl, .refl⟩
  | tail _ hstep ih =>
    obtain ⟨m, rfl, hanc⟩ := ih
    obtain ⟨k, hk, rfl⟩ := map_eq_some_iff.1 hstep
    exact ⟨k, rfl, hanc.tail hk⟩

lemma IsParent.not_isInterface {j s : Class N} (hj : IsParent h j s) (hs : s.isInterface h = false) :
    j.isInterface h = false := by
  rcases cases_tail hj with rfl | ⟨k, -, hk⟩
  · exact hs
  · cases k with
    | primitive p => cases hk
    | array k =>
      cases hk
      exact not_isInterface_object
    | named n =>
      obtain ⟨m, hm, rfl⟩ := map_eq_some_iff.1 hk
      exact h.not_isInterface_superclass hm

end

/-- A class can be assigned to its superclasses. -/
lemma IsParent.isAssignableFrom {j s : Class N} (hj : IsParent h j s) (hs : s.isPrimitive = false)
    (hi : s.isInterface h = false) : isAssignableFrom h j s = true := by
  cases s with
  | primitive p => cases hs
  | array s =>
    rcases cases_head hj with rfl | ⟨u, hu, hj⟩
    · exact isAssignableFrom_self _
    · cases hu
      obtain ⟨m, rfl, hanc⟩ := IsParent.named hj
      obtain rfl := hanc.eq_object
      exact isAssignableFrom_object rfl
  | named n =>
    obtain ⟨m, rfl, hanc⟩ := hj.named
    by_cases hobj : m = h.object
    · subst hobj
      exact isAssignableFrom_object rfl
    · exact (isAssignableFrom_class (hj.not_isInterface hi) hobj).2 ⟨n, rfl, hi, hanc⟩

lemma isAssignableFrom_of_mem_interfaces {c i : Class N} (hi : i ∈ c.interfaces h) :
    isAssignableFrom h i c = true ∧ i.isPrimitive = false := by
  obtain ⟨hmem, hint⟩ := mem_filter.1 hi
  cases i with
  | primitive p => cases hint
  | array i => cases hint
  | named n =>
    refine ⟨(isAssignableFrom_interface hint).2 ?_, rfl⟩
    rcases mem_cons.1 hmem with heq | hmem
    · exact .inl heq.symm
    · obtain ⟨m, hm, heq⟩ := mem_map.1 hmem
      cases heq
      exact .inr (mem_reverse.1 hm)

omit [DecidableEq N] in
lemma getSuperClass_of_isInterface {c : Class N} (hc : c.isInterface h = true) :
    c.getSuperClass h = some (named h.object) := by
  cases c with
  | primitive p => cases hc
  | array c => cases hc
  | named n => rw [getSuperClass, h.superclass_interface hc, Option.map_some]

include hs ht in
lemma interfaceClassJoin_spec (hi : (s.isInterface h || t.isInterface h) = true) :
    ∃ j, interfaceClassJoin h s t = some j ∧ j.isPrimitive = false ∧
      isAssignableFrom h j s = true ∧ isAssignableFrom h j t = true := by
  unfold interfaceClassJoin
  split
  · next i hfind =>
    have hsi := isAssignableFrom_of_mem_interfaces (mem_of_find?_eq_some hfind)
    have hti := isAssignableFrom_of_mem_interfaces (contains_iff_mem.1 (find?_some hfind))
    exact ⟨i, rfl, hsi.2, hsi.1, hti.1⟩
  · refine ⟨named h.object, ?_, rfl, isAssignableFrom_object hs, isAssignableFrom_object ht⟩
    split_ifs with hsi
    · exact getSuperClass_of_isInterface hsi
    · exact getSuperClass_of_isInterface (by simpa [hsi] using hi)

/-- The result of a join of two classes. -/
def IsUpperBound (h : Hierarchy N) (s t j : Class N) : Prop :=
  j.isPrimitive = false ∧ isAssignableFrom h j s = true ∧ isAssignableFrom h j t = true

include hs ht in
/-- The join of classes that are no arrays both. -/
lemma exists_join_of_not_array : ∃ j, (if isAssignableFrom h s t then some s
      else if isAssignableFrom h t s then some t
      else if s.isInterface h || t.isInterface h then interfaceClassJoin h s t
      else parentClassJoin h s t) = some j ∧ IsUpperBound h s t j := by
  split_ifs with hst hts hi
  · exact ⟨s, rfl, hs, isAssignableFrom_self s, hst⟩
  · exact ⟨t, rfl, ht, hts, isAssignableFrom_self t⟩
  · exact interfaceClassJoin_spec hs ht hi
  · obtain ⟨j, hj, hprim, hjs, hjt⟩ := parentClassJoin_spec (h := h) hs ht
    rw [Bool.or_eq_true, not_or, Bool.not_eq_true, Bool.not_eq_true] at hi
    exact ⟨j, hj, hprim, hjs.isAssignableFrom hs hi.1, hjt.isAssignableFrom ht hi.2⟩

include hs ht in
/-- The join of two classes is found, and both can be assigned to it. -/
lemma classJoin_spec : ∃ j, classJoin h s t = some j ∧ IsUpperBound h s t j := by
  induction s generalizing t with
  | primitive p => cases hs
  | named n =>
    rw [classJoin]
    · exact exists_join_of_not_array hs ht
    · rintro _ _ heq
      cases heq
  | array s ih =>
    cases t with
    | primitive p => cases ht
    | named m =>
      rw [classJoin]
      · exact exists_join_of_not_array hs ht
      · rintro _ _ _ heq
        cases heq
    | array t =>
      rw [classJoin]
      split_ifs with hst hts hprim
      · exact ⟨_, rfl, rfl, isAssignableFrom_self _, hst⟩
      · exact ⟨_, rfl, rfl, hts, isAssignableFrom_self _⟩
      · exact ⟨_, rfl, rfl, isAssignableFrom_object rfl, isAssignableFrom_object rfl⟩
      · rw [Bool.or_eq_true, not_or, Bool.not_eq_true, Bool.not_eq_true] at hprim
        obtain ⟨j, hj, -, hjs, hjt⟩ := ih hprim.1 hprim.2
        refine ⟨array j, by rw [hj]; rfl, rfl, ?_, ?_⟩
        · exact isAssignableFrom_array.2 ⟨s, rfl, hjs⟩
        · exact isAssignableFrom_array.2 ⟨t, rfl, hjt⟩

/-- A class to which another one can be assigned is their join. -/
lemma classJoin_of_isAssignableFrom (hst : isAssignableFrom h s t = true) : classJoin h s t = some s := by
  unfold classJoin
  split <;> rw [if_pos hst]

/-! ## The join is least -/

/-- The innermost component is an interface. -/
def hasInterface (h : Hierarchy N) : Class N → Bool
  | array component => component.hasInterface h
  | c => c.isInterface h

include hs ht in
/-- The join can be assigned to all classes to which both can be assigned by superclasses and as arrays of
    such classes. -/
lemma isAssignableFrom_classJoin {u j : Class N} (hj : classJoin h s t = some j)
    (hu : u.hasInterface h = false) (hus : isAssignableFrom h u s = true)
    (hut : isAssignableFrom h u t = true) : isAssignableFrom h u j = true := by
  induction u generalizing s t j with
  | primitive p =>
    obtain rfl := of_decide_eq_true hus
    cases hs
  | named n =>
    by_cases hobj : n = h.object
    · obtain ⟨j', hj', hprim, -⟩ := classJoin_spec (h := h) hs ht
      obtain rfl := some.inj (hj'.symm.trans hj)
      exact hobj ▸ isAssignableFrom_object hprim
    obtain ⟨a, rfl, ha, hna⟩ := (isAssignableFrom_class hu hobj).1 hus
    obtain ⟨b, rfl, hb, hnb⟩ := (isAssignableFrom_class hu hobj).1 hut
    rw [classJoin] at hj
    · split_ifs at hj with hst hts hi
      · exact some.inj hj ▸ hus
      · exact some.inj hj ▸ hut
      · rw [isInterface, isInterface, ha, hb] at hi
        cases hi
      · obtain ⟨k, hk, hprim, hka, -, hlowest⟩ := parentClassJoin_spec (h := h) hs ht
        obtain rfl := some.inj (hk.symm.trans hj)
        exact (hlowest _ hna.isParent hnb.isParent).isAssignableFrom hprim (hka.not_isInterface ha)
    · rintro _ _ heq
      cases heq
  | array u ih =>
    obtain ⟨s, rfl, hus'⟩ := isAssignableFrom_array.1 hus
    obtain ⟨t, rfl, hut'⟩ := isAssignableFrom_array.1 hut
    rw [classJoin] at hj
    split_ifs at hj with hst hts hp
    · exact some.inj hj ▸ hus
    · exact some.inj hj ▸ hut
    · -- only a primitive class can be assigned from one, and only from itself
      exfalso
      cases u with
      | primitive p =>
        obtain rfl := of_decide_eq_true hus'
        obtain rfl := of_decide_eq_true hut'
        exact hst (isAssignableFrom_self _)
      | _ =>
        rw [isPrimitive_of_isAssignableFrom hus' rfl, isPrimitive_of_isAssignableFrom hut' rfl] at hp
        cases hp
    · rw [Bool.or_eq_true, not_or, Bool.not_eq_true, Bool.not_eq_true] at hp
      obtain ⟨k, hk, rfl⟩ := map_eq_some_iff.1 hj
      exact isAssignableFrom_array.2 ⟨k, rfl, ih hp.1 hp.2 hk hu hus' hut'⟩

end Class
end Art
