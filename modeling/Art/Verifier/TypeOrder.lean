import Art.Verifier.RegType

/-!
# The order of register types

A preorder in which the merge of two types is an upper bound of both. An imprecise constant of at most
`-128` is above the constants that are not negative and fit into the same signed type.
-/

namespace Art

/-- The integral types are ordered by their ranges. -/
def PrimitiveRegType.le : PrimitiveRegType → PrimitiveRegType → Bool
  | .boolean, .byte | .boolean, .short | .boolean, .char | .boolean, .integer => true
  | .byte, .short | .byte, .integer | .short, .integer | .char, .integer => true
  | p, q => decide (p = q)

/-- A constant has a primitive type. -/
def PrimitiveRegType.Fits (v : ℤ) : PrimitiveRegType → Prop
  | .boolean => 0 ≤ v ∧ v ≤ 1
  | .byte => -128 ≤ v ∧ v ≤ 127
  | .char => 0 ≤ v ∧ v ≤ 65535
  | .short => -32768 ≤ v ∧ v ≤ 32767
  | .integer | .float => True
  | _ => False

variable {p q : PrimitiveRegType}

lemma PrimitiveRegType.Fits.mono {v : ℤ} (hp : p.Fits v) (hpq : p.le q = true) : q.Fits v := by
  cases p <;> cases q <;>
    simp only [le, Fits, decide_eq_true_eq, reduceCtorEq] at * <;> first | trivial | omega

lemma PrimitiveRegType.le_trans {r : PrimitiveRegType} (hpq : p.le q = true) (hqr : q.le r = true) :
    p.le r = true := by
  revert hpq hqr
  cases p <;> cases q <;> cases r <;> decide

namespace RegType

variable {N : Type} [DecidableEq N]

/-- The largest value of a constant. -/
def intMax : ℤ := 2 ^ 31 - 1

/-- A constant with value `v` is below the imprecise constant with value `w`. -/
def ConstLe (v : ℤ) (precise : Bool) (w : ℤ) : Prop :=
  (0 ≤ v ∧ v ≤ w) ∨ (v < 0 ∧ w ≤ v) ∨ (v < 0 ∧ w = intMax) ∨
    (0 ≤ v ∧ w ≤ -128 ∧ (-128 ≤ w → v ≤ 127) ∧ (-32768 ≤ w → v ≤ 32767) ∧ (v = intMax → precise = true))

variable {v w : ℤ} {precise : Bool}

lemma ConstLe.trans {x : ℤ} (hv : v ≤ intMax) (hw : w ≤ intMax) (hx : x ≤ intMax)
    (h : ConstLe v precise w) (h' : ConstLe w false x) : ConstLe v precise x := by
  unfold ConstLe intMax at *
  cases precise <;> simp only [Bool.false_eq_true, imp_false, implies_true, and_true] at * <;> omega

lemma ConstLe.fits {p : PrimitiveRegType} (h : ConstLe v precise w) (hw : p.Fits w) : p.Fits v := by
  unfold ConstLe intMax at h
  cases p <;> simp only [PrimitiveRegType.Fits] at * <;> omega

lemma toInt_le_intMax (v : BitVec 32) : v.toInt ≤ intMax := by
  have := BitVec.toInt_lt (x := v)
  unfold intMax
  omega

/-- References whose constructor was called. -/
inductive IsRef : RegType N → Prop
  | ref (c : Class N) (precise : Bool) : IsRef (ref c precise)
  | unresolved (id : ℕ) : IsRef (unresolved id)
  | merged (resolved : Option (Class N × Bool)) (types : Finset ℕ) : IsRef (merged resolved types)

/-- A reference is below another one, or equal. -/
def RefLe (h : Hierarchy N) (d : Class N × Bool) (c : Class N × Bool) : Prop :=
  d = c ∨ c.2 = false ∧ Class.isAssignableFrom h c.1 d.1 = true

variable {h : Hierarchy N} {c : Class N × Bool}

lemma RefLe.trans {d b : Class N × Bool} (hdc : RefLe h d c) (hcb : RefLe h c b) : RefLe h d b := by
  rcases hdc with rfl | ⟨hc, hdc⟩
  · exact hcb
  · rcases hcb with rfl | ⟨hb, hcb⟩
    · exact .inr ⟨hc, hdc⟩
    · exact .inr ⟨hb, Class.isAssignableFrom_trans hcb hdc⟩

/-- The same for parts that may be missing. -/
def ResolvedLe (h : Hierarchy N) (d c : Option (Class N × Bool)) : Prop :=
  ∀ x, d = some x → ∃ y, c = some y ∧ RefLe h x y

lemma ResolvedLe.trans {d c b : Option (Class N × Bool)} (hdc : ResolvedLe h d c)
    (hcb : ResolvedLe h c b) : ResolvedLe h d b := by
  intro x hx
  obtain ⟨y, hy, hxy⟩ := hdc x hx
  obtain ⟨z, hz, hyz⟩ := hcb y hy
  exact ⟨z, hz, hxy.trans hyz⟩

/-- The order of types. -/
inductive Le (cache : RegTypeCache N) : RegType N → RegType N → Prop
  | refl (t : RegType N) : Le cache t t
  | undefined (t : RegType N) : Le cache t undefined
  | conflict {t : RegType N} : t ≠ .undefined → Le cache t conflict
  | const {v w : BitVec 32} {precise : Bool} :
    ConstLe v.toInt precise w.toInt → Le cache (const v precise) (const w false)
  | constLo {v w : BitVec 32} {precise : Bool} : v ||| w = w → Le cache (constLo v precise) (constLo w false)
  | constHi {v w : BitVec 32} {precise : Bool} : v ||| w = w → Le cache (constHi v precise) (constHi w false)
  | prim {p q : PrimitiveRegType} : p.le q = true → Le cache (prim p) (prim q)
  | fits {v : BitVec 32} {precise : Bool} {p : PrimitiveRegType} :
    p.Fits v.toInt → Le cache (.const v precise) (.prim p)
  | fitsLo {v : BitVec 32} {precise : Bool} {p : PrimitiveRegType} :
    p = .longLo ∨ p = .doubleLo → Le cache (.constLo v precise) (.prim p)
  | fitsHi {v : BitVec 32} {precise : Bool} {p : PrimitiveRegType} :
    p = .longHi ∨ p = .doubleHi → Le cache (.constHi v precise) (.prim p)
  | zero_null : Le cache zero null
  | zero_ref {r : RegType N} : IsRef r → Le cache zero r
  | null_ref {r : RegType N} : IsRef r → Le cache null r
  | ref {d c : Class N} {precise precise' : Bool} :
    RefLe cache.hierarchy (d, precise) (c, precise') → Le cache (ref d precise) (ref c precise')
  | object {t : RegType N} : IsRef t → Le cache t (javaLangObject cache)
  | mem {id : ℕ} {resolved : Option (Class N × Bool)} {types : Finset ℕ} :
    id ∈ types → Le cache (unresolved id) (merged resolved types)
  | ref_merged {d : Class N} {precise : Bool} {resolved : Option (Class N × Bool)} {types : Finset ℕ} :
    (d, precise) ≠ (.named cache.hierarchy.object, false) →
      ResolvedLe cache.hierarchy (some (d, precise)) resolved →
        Le cache (.ref d precise) (merged resolved types)
  | merged {resolved resolved' : Option (Class N × Bool)} {types types' : Finset ℕ} :
    ResolvedLe cache.hierarchy resolved resolved' → types ⊆ types' →
      Le cache (merged resolved types) (merged resolved' types')

variable {cache : RegTypeCache N} {t : RegType N} {r : RegType N}

/-- Nothing is above `Undefined`. -/
lemma Le.of_undefined (h : Le cache .undefined r) : r = .undefined := by
  cases h with
  | object hr => cases hr
  | conflict hne => exact absurd rfl hne
  | _ => rfl

/-- Above a reference there are references only, and the two types that cannot be used. -/
lemma Le.isRef (h : Le cache t r) (ht : IsRef t) : r = .undefined ∨ r = .conflict ∨ IsRef r := by
  cases h with
  | refl => exact .inr (.inr ht)
  | undefined => exact .inl rfl
  | conflict _ => exact .inr (.inl rfl)
  | ref _ | object _ => exact .inr (.inr (.ref _ _))
  | mem _ | ref_merged _ _ | merged _ _ => exact .inr (.inr (.merged _ _))
  | zero_ref hr => cases ht
  | _ => cases ht

variable {a b : RegType N}

/-- What is below all references is below what is above one. -/
lemma Le.of_isRef {c : RegType N} (hbc : Le cache b c) (hb : IsRef b) (ha : a ≠ .undefined)
    (hall : ∀ r, IsRef r → Le cache a r) : Le cache a c := by
  rcases hbc.isRef hb with rfl | rfl | hc
  · exact .undefined a
  · exact .conflict ha
  · exact hall c hc

/-- Only `Object` is above `Object`, among the references. -/
lemma refLe_object (hc : RefLe h (.named h.object, false) c) : c = (.named h.object, false) := by
  obtain ⟨c, precise⟩ := c
  rcases hc with heq | ⟨rfl, hc⟩
  · exact heq.symm
  · refine Prod.ext ?_ rfl
    cases c with
    | primitive p => cases hc
    | array c => cases hc
    | named n =>
      by_contra hn
      have hn : n ≠ h.object := fun heq => hn (by rw [heq])
      cases hi : h.isInterface n with
      | true =>
        rcases (Class.isAssignableFrom_interface hi).1 hc with heq | hmem
        · exact hn (Class.named.inj heq).symm
        · rw [Class.getIfTable, h.ifTable_object] at hmem
          cases hmem
      | false =>
        obtain ⟨m, heq, -, hanc⟩ := (Class.isAssignableFrom_class hi hn).1 hc
        obtain rfl := Class.named.inj heq
        exact hn hanc.eq_object

lemma Le.trans {c : RegType N} (hab : Le cache a b) (hbc : Le cache b c) : Le cache a c := by
  -- the types that are above everything, once for all the cases below
  by_cases hrefl : c = b
  · exact hrefl ▸ hab
  by_cases hundefined : c = .undefined
  · exact hundefined ▸ .undefined a
  by_cases hconflict : c = .conflict
  · refine hconflict ▸ .conflict ?_
    rintro rfl
    obtain rfl := hab.of_undefined
    exact hundefined hbc.of_undefined
  cases hab with
  | refl => exact hbc
  | undefined => exact absurd hbc.of_undefined hundefined
  | conflict hne =>
    cases hbc with
    | object hr => cases hr
    | _ => contradiction
  | const hvw =>
    cases hbc with
    | const hwx =>
      exact .const (hvw.trans (toInt_le_intMax _) (toInt_le_intMax _) (toInt_le_intMax _) hwx)
    | fits hw => exact .fits (hvw.fits hw)
    | object hr => cases hr
    | _ => contradiction
  | constLo hvw =>
    cases hbc with
    | constLo hwx => exact .constLo (by rw [← hwx, ← BitVec.or_assoc, hvw])
    | fitsLo hp => exact .fitsLo hp
    | object hr => cases hr
    | _ => contradiction
  | constHi hvw =>
    cases hbc with
    | constHi hwx => exact .constHi (by rw [← hwx, ← BitVec.or_assoc, hvw])
    | fitsHi hp => exact .fitsHi hp
    | object hr => cases hr
    | _ => contradiction
  | prim hpq =>
    cases hbc with
    | prim hqr => exact .prim (PrimitiveRegType.le_trans hpq hqr)
    | object hr => cases hr
    | _ => contradiction
  | fits hv =>
    cases hbc with
    | prim hqr => exact .fits (hv.mono hqr)
    | object hr => cases hr
    | _ => contradiction
  | fitsLo hp | fitsHi hp =>
    cases hbc with
    | prim hqr =>
      first | refine .fitsLo ?_ | refine .fitsHi ?_
      revert hqr
      rcases hp with rfl | rfl <;> (rename_i q; cases q <;> simp [PrimitiveRegType.le])
    | object hr => cases hr
    | _ => contradiction
  | zero_null =>
    cases hbc with
    | null_ref hr => exact .zero_ref hr
    | object hr => cases hr
    | _ => contradiction
  | zero_ref hr => exact hbc.of_isRef hr (by simp [zero]) fun r hr => .zero_ref hr
  | null_ref hr => exact hbc.of_isRef hr (by simp) fun r hr => .null_ref hr
  | ref hdc =>
    cases hbc with
    | ref hcb => exact .ref (hdc.trans hcb)
    | object _ => exact .object (.ref _ _)
    | ref_merged hne hcb =>
      refine .ref_merged (fun heq => hne (refLe_object (heq ▸ hdc))) fun x hx => ?_
      obtain ⟨y, hy, hcy⟩ := hcb _ rfl
      cases hx
      exact ⟨y, hy, hdc.trans hcy⟩
    | _ => contradiction
  | object ht =>
    cases hbc with
    | ref hcb =>
      obtain ⟨rfl, rfl⟩ := Prod.mk.inj (refLe_object hcb)
      exact .object ht
    | object _ => exact .object ht
    | ref_merged hne _ => exact absurd rfl hne
    | _ => contradiction
  | mem hid =>
    cases hbc with
    | object _ => exact .object (.unresolved _)
    | merged _ htypes => exact .mem (htypes hid)
    | _ => contradiction
  | ref_merged hne hdc =>
    cases hbc with
    | object _ => exact .object (.ref _ _)
    | merged hres _ => exact .ref_merged hne (hdc.trans hres)
    | _ => contradiction
  | merged hres htypes =>
    cases hbc with
    | object _ => exact .object (.merged _ _)
    | merged hres' htypes' => exact .merged (hres.trans hres') (htypes.trans htypes')
    | _ => contradiction

end RegType
end Art
