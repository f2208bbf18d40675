import Mathlib.Data.List.Basic
import Mathlib.Logic.Relation

/-!
# Classes of the verifier

The class hierarchy of `runtime/mirror/class-inl.h` as far as the verifier asks about it, and the join of
two classes from `runtime/verifier/reg_type.cc`.

* `classJoin_spec`: the join of two classes is found, and both can be assigned to it.
-/

namespace Art

open Relation.ReflTransGen (cases_head cases_tail)

/-- `Primitive::Type`, without `void` and the mark of references. -/
inductive PrimitiveType
  | boolean | byte | char | short | int | long | float | double
  deriving DecidableEq

/-- `mirror::Class`: `N` are the classes that are not arrays. -/
inductive Class (N : Type)
  | primitive (p : PrimitiveType)
  | named (n : N)
  | array (component : Class N)
  deriving DecidableEq

/-- The class hierarchy. -/
structure Hierarchy (N : Type) where
  object : N
  superclass : N → Option N
  isInterface : N → Bool
  isFinal : N → Bool
  /-- All interfaces that a class implements, and the superinterfaces of an interface. -/
  ifTable : N → List N
  /-- The interfaces that arrays implement. -/
  arrayIfTable : List N
  depth : N → ℕ
  superclass_eq_none {n : N} : superclass n = none ↔ n = object
  depth_superclass {n m : N} : superclass n = some m → depth n = depth m + 1
  depth_object : depth object = 0
  superclass_interface {n : N} : isInterface n = true → superclass n = some object
  not_isInterface_superclass {n m : N} : superclass n = some m → isInterface m = false
  not_isFinal_superclass {n m : N} : superclass n = some m → isFinal m = false
  not_isFinal_interface {n : N} : isInterface n = true → isFinal n = false
  not_isFinal_object : isFinal object = false
  ifTable_object : ifTable object = []
  isInterface_of_mem {n i : N} : i ∈ ifTable n → isInterface i = true
  ifTable_superclass {n m i : N} : superclass n = some m → i ∈ ifTable m → i ∈ ifTable n
  ifTable_trans {n i j : N} : i ∈ ifTable n → j ∈ ifTable i → j ∈ ifTable n
  isInterface_of_mem_array {i : N} : i ∈ arrayIfTable → isInterface i = true
  arrayIfTable_trans {i j : N} : i ∈ arrayIfTable → j ∈ ifTable i → j ∈ arrayIfTable

namespace Class

variable {N : Type} (h : Hierarchy N)

def isPrimitive : Class N → Bool
  | primitive _ => true
  | _ => false

def isArrayClass : Class N → Bool
  | array _ => true
  | _ => false

def isInterface : Class N → Bool
  | named n => h.isInterface n
  | _ => false

def getSuperClass : Class N → Option (Class N)
  | primitive _ => none
  | named n => (h.superclass n).map named
  | array _ => some (named h.object)

/-- `Depth()`: the number of superclasses. -/
def depth : Class N → ℕ
  | primitive _ => 0
  | named n => h.depth n
  | array _ => 1

/-- The interfaces of `GetIfTable()`. -/
def getIfTable : Class N → List N
  | primitive _ => []
  | named n => h.ifTable n
  | array _ => h.arrayIfTable

def cannotBeAssignedFromOtherTypes : Class N → Bool
  | primitive _ => true
  | named n => h.isFinal n
  | array component => component.isPrimitive || component.cannotBeAssignedFromOtherTypes

/-! ## Superclasses -/

section

variable {h} {n m : N}

lemma superclass_ne_object (hsuper : h.superclass n = some m) : n ≠ h.object := by
  intro hn
  rw [h.superclass_eq_none.2 hn] at hsuper
  cases hsuper

lemma not_isInterface_object : h.isInterface h.object = false :=
  Bool.eq_false_iff.2 fun hi => superclass_ne_object (h.superclass_interface hi) rfl

lemma exists_superclass (hn : n ≠ h.object) : ∃ m, h.superclass n = some m :=
  Option.ne_none_iff_exists'.1 fun hnone => hn (h.superclass_eq_none.1 hnone)

lemma eq_object_of_depth (hdepth : h.depth n = 0) : n = h.object := by
  by_contra hn
  obtain ⟨m, hm⟩ := exists_superclass hn
  have := h.depth_superclass hm
  omega

/-- `m` is a superclass of `n`, or `n`. -/
def IsAncestor (h : Hierarchy N) (m n : N) : Prop :=
  Relation.ReflTransGen (fun a b => h.superclass a = some b) n m

lemma IsAncestor.mem_ifTable {i : N} (hanc : IsAncestor h m n) (hi : i ∈ h.ifTable m) :
    i ∈ h.ifTable n := by
  induction hanc using Relation.ReflTransGen.head_induction_on with
  | refl => exact hi
  | head hsuper _ ih => exact h.ifTable_superclass hsuper ih

lemma IsAncestor.eq_or_superclass (hanc : IsAncestor h m n) : m = n ∨ ∃ k, h.superclass k = some m := by
  rcases cases_tail hanc with heq | ⟨k, -, hk⟩
  · exact .inl heq
  · exact .inr ⟨k, hk⟩

lemma IsAncestor.eq_object (hanc : IsAncestor h m h.object) : m = h.object := by
  rcases cases_head hanc with heq | ⟨k, hk, -⟩
  · exact heq.symm
  · exact absurd rfl (superclass_ne_object hk)

end

/-! ## Subclasses and assignability -/

variable [DecidableEq N]

def isObjectClass : Class N → Bool
  | named n => n = h.object
  | _ => false

/-- The loop of `IsSubClass(klass)`, with the number of superclasses that remain. -/
def isSubClassLoop (klass : N) : ℕ → N → Bool
  | 0, current => current = klass
  | k + 1, current =>
    if current = klass then true
    else match h.superclass current with
      | some next => isSubClassLoop klass k next
      | none => false

def isSubClass (n klass : N) : Bool := isSubClassLoop h klass (h.depth n) n

/-- `IsAssignableFrom(src)` for a class that is no array. -/
def isNamedAssignableFrom (n : N) (src : Class N) : Bool :=
  if named n = src then true
  else if n = h.object then !src.isPrimitive
  else if h.isInterface n then decide (n ∈ src.getIfTable h)
  else match src with
    | named m => !h.isInterface m && isSubClass h m n
    | _ => false

def isAssignableFrom : Class N → Class N → Bool
  | primitive p, src => decide (primitive p = src)
  | named n, src => isNamedAssignableFrom h n src
  | array component, src =>
    match src with
    | array component' => isAssignableFrom component component'
    | _ => false

/-! ## Assignability -/

section

variable {h}

lemma isAssignableFrom_named (n : N) (src : Class N) :
    isAssignableFrom h (named n) src = isNamedAssignableFrom h n src := rfl

variable {n : N}

lemma isSubClass_iff {klass : N} : isSubClass h n klass = true ↔ IsAncestor h klass n := by
  unfold isSubClass
  generalize hk : h.depth n = k
  induction k generalizing n with
  | zero =>
    rw [isSubClassLoop, decide_eq_true_eq]
    constructor
    · rintro rfl
      exact .refl
    · intro hanc
      rcases cases_head hanc with heq | ⟨m, hm, -⟩
      · exact heq
      · exact absurd (eq_object_of_depth hk) (superclass_ne_object hm)
  | succ k ih =>
    rw [isSubClassLoop]
    split_ifs with heq
    · exact ⟨fun _ => heq ▸ .refl, fun _ => rfl⟩
    · obtain ⟨m, hm⟩ : ∃ m, h.superclass n = some m := exists_superclass fun hobj => by
          rw [hobj, h.depth_object] at hk
          omega
      have hdepth := h.depth_superclass hm
      rw [hm]
      refine (ih (by omega)).trans ⟨.head hm, fun hanc => ?_⟩
      rcases cases_head hanc with hn | ⟨m', hm', hanc⟩
      · exact absurd hn heq
      · exact Option.some.inj (hm.symm.trans hm') ▸ hanc

@[simp] lemma isAssignableFrom_self (c : Class N) : isAssignableFrom h c c = true := by
  induction c with
  | primitive p => exact decide_eq_true rfl
  | named n => rw [isAssignableFrom_named, isNamedAssignableFrom.eq_def, if_pos rfl]
  | array c ih => exact ih

variable {c : Class N}

lemma isAssignableFrom_object (hc : c.isPrimitive = false) :
    isAssignableFrom h (named h.object) c = true := by
  rw [isAssignableFrom_named, isNamedAssignableFrom.eq_def, if_pos rfl, hc, Bool.not_false, ite_self]

variable {d : Class N}

lemma isPrimitive_of_isAssignableFrom (hcd : isAssignableFrom h c d = true)
    (hc : c.isPrimitive = false) : d.isPrimitive = false := by
  cases d with
  | named n => rfl
  | array d => rfl
  | primitive p =>
    cases c with
    | primitive q => cases hc
    | array c => cases hcd
    | named n =>
      rw [isAssignableFrom_named, isNamedAssignableFrom.eq_def] at hcd
      simp [isPrimitive, getIfTable] at hcd

/-- What can be assigned to an interface. -/
lemma isAssignableFrom_interface (hn : h.isInterface n = true) :
    isAssignableFrom h (named n) c = true ↔ c = named n ∨ n ∈ c.getIfTable h := by
  have hobj : n ≠ h.object := superclass_ne_object (h.superclass_interface hn)
  by_cases heq : c = named n
  · subst heq
    exact ⟨fun _ => .inl rfl, fun _ => isAssignableFrom_self _⟩
  · rw [isAssignableFrom_named, isNamedAssignableFrom.eq_def, if_neg (Ne.symm heq), if_neg hobj,
      if_pos hn, decide_eq_true_eq]
    exact ⟨.inr, fun hor => hor.resolve_left heq⟩

/-- What can be assigned to a class. -/
lemma isAssignableFrom_class (hn : h.isInterface n = false) (hobj : n ≠ h.object) :
    isAssignableFrom h (named n) c = true ↔
      ∃ m, c = named m ∧ h.isInterface m = false ∧ IsAncestor h n m := by
  by_cases heq : c = named n
  · subst heq
    exact ⟨fun _ => ⟨n, rfl, hn, .refl⟩, fun _ => isAssignableFrom_self _⟩
  · rw [isAssignableFrom_named, isNamedAssignableFrom.eq_def, if_neg (Ne.symm heq), if_neg hobj, hn]
    cases c with
    | primitive p => simp
    | array c => simp
    | named m => simp [isSubClass_iff]

lemma isAssignableFrom_array : isAssignableFrom h (array c) d = true ↔
    ∃ d', d = array d' ∧ isAssignableFrom h c d' = true := by
  refine ⟨fun hcd => ?_, fun ⟨d', hd, hcd⟩ => hd ▸ hcd⟩
  cases d with
  | array d => exact ⟨d, rfl, hcd⟩
  | primitive p => cases hcd
  | named n => cases hcd

variable {b : Class N}

/-- Interfaces are inherited along assignability. -/
lemma mem_getIfTable_of_isAssignableFrom {i : N} (hbc : isAssignableFrom h b c = true)
    (hi : i ∈ b.getIfTable h) : i ∈ c.getIfTable h := by
  cases b with
  | primitive p => cases hi
  | array b =>
    obtain ⟨d, rfl, -⟩ := isAssignableFrom_array.1 hbc
    exact hi
  | named n =>
    cases hn : h.isInterface n with
    | true =>
      rcases (isAssignableFrom_interface hn).1 hbc with rfl | hmem
      · exact hi
      · cases c with
        | primitive p => cases hmem
        | named m => exact h.ifTable_trans hmem hi
        | array c => exact h.arrayIfTable_trans hmem hi
    | false =>
      have hobj : n ≠ h.object := by
        rintro rfl
        rw [getIfTable, h.ifTable_object] at hi
        cases hi
      obtain ⟨m, rfl, -, hanc⟩ := (isAssignableFrom_class hn hobj).1 hbc
      exact hanc.mem_ifTable hi

/-- Assignability is transitive. -/
lemma isAssignableFrom_trans {a : Class N} (hab : isAssignableFrom h a b = true)
    (hbc : isAssignableFrom h b c = true) : isAssignableFrom h a c = true := by
  induction a generalizing b c with
  | primitive p =>
    obtain rfl := of_decide_eq_true hab
    exact hbc
  | array a ih =>
    obtain ⟨b', rfl, hab'⟩ := isAssignableFrom_array.1 hab
    obtain ⟨c', rfl, hbc'⟩ := isAssignableFrom_array.1 hbc
    exact isAssignableFrom_array.2 ⟨c', rfl, ih hab' hbc'⟩
  | named n =>
    by_cases hobj : n = h.object
    · subst hobj
      exact isAssignableFrom_object (isPrimitive_of_isAssignableFrom hbc
        (isPrimitive_of_isAssignableFrom hab rfl))
    cases hn : h.isInterface n with
    | true =>
      rcases (isAssignableFrom_interface hn).1 hab with rfl | hmem
      · exact hbc
      · exact (isAssignableFrom_interface hn).2 (.inr (mem_getIfTable_of_isAssignableFrom hbc hmem))
    | false =>
      obtain ⟨m, rfl, hm, hanc⟩ := (isAssignableFrom_class hn hobj).1 hab
      -- a class below another one is not `Object`
      have hmobj : m ≠ h.object := by
        rintro rfl
        exact hobj hanc.eq_object
      obtain ⟨k, rfl, hk, hanc'⟩ := (isAssignableFrom_class hm hmobj).1 hbc
      exact (isAssignableFrom_class hn hobj).2 ⟨k, rfl, hk, hanc'.trans hanc⟩

/-- A class that cannot be assigned from other types. -/
lemma eq_of_cannotBeAssignedFromOtherTypes (hc : c.cannotBeAssignedFromOtherTypes h = true)
    (hcd : isAssignableFrom h c d = true) : d = c := by
  induction c generalizing d with
  | primitive p => exact (of_decide_eq_true hcd).symm
  | array c ih =>
    obtain ⟨d', rfl, hcd'⟩ := isAssignableFrom_array.1 hcd
    cases c with
    | primitive p => rw [of_decide_eq_true hcd']
    | named n
    | array c => rw [ih (by simpa [cannotBeAssignedFromOtherTypes, isPrimitive] using hc) hcd']
  | named n =>
    have hfinal : h.isFinal n = true := hc
    have hn : h.isInterface n = false := by
      by_contra hi
      rw [h.not_isFinal_interface (by simpa using hi)] at hfinal
      cases hfinal
    have hobj : n ≠ h.object := by
      rintro rfl
      rw [h.not_isFinal_object] at hfinal
      cases hfinal
    obtain ⟨m, rfl, -, hanc⟩ := (isAssignableFrom_class hn hobj).1 hcd
    rcases hanc.eq_or_superclass with rfl | ⟨k, hk⟩
    · rfl
    · rw [h.not_isFinal_superclass hk] at hfinal
      cases hfinal

end

end Class
end Art
