import Art.SubtypeCheck.Info

/-!
# The subtype check over a tree of classes

`SubtypeCheck` of `runtime/subtype_check.h` over a tree of classes with single
inheritance, any depth and any number of subclasses. A class starts Uninitialized;
`EnsureInitialized` and `EnsureAssigned` give it a path, after promoting all of its
superclasses.

* `Inv.isSubclass_of_path_eq` and `Inv.path_eq_of_isSubclass` are soundness and
  completeness of comparing paths;
-/

namespace Art

/-- A tree of classes: every class but the root has a superclass, and a depth that counts the
    superclasses up to the root. -/
structure ClassTree (C : Type*) where
  /-- `GetSuperClass()`, absent for the root. -/
  superClass : C → Option C
  depth : C → ℕ
  depth_root : ∀ {c}, superClass c = none → depth c = 0
  depth_child : ∀ {c p}, superClass c = some p → depth c = depth p + 1
  root_unique : ∀ {c d}, superClass c = none → superClass d = none → c = d

namespace ClassTree

open SubtypeCheckInfo SubtypeCheckBits

variable {C : Type*} (T : ClassTree C)

/-- `c` is `t`, or has `t` among its superclasses. -/
def IsSubclass : C → C → Prop := Relation.ReflTransGen fun c p => T.superClass c = some p

variable {T}

lemma IsSubclass.depth_le {c t : C} (h : T.IsSubclass c t) : T.depth t ≤ T.depth c := by
  induction h with
  | refl => exact le_rfl
  | tail _ hp ih => have := T.depth_child hp; omega

/-- Every class is a subclass of the root. -/
lemma isSubclass_root {r : C} (hr : T.superClass r = none) (c : C) : T.IsSubclass c r := by
  induction hd : T.depth c generalizing c with
  | zero =>
    match hc : T.superClass c with
    | none => exact T.root_unique hc hr ▸ .refl
    | some p => have := T.depth_child hc; omega
  | succ d ih =>
    match hc : T.superClass c with
    | none => have := T.depth_root hc; omega
    | some p => exact .head hc (ih p (by have := T.depth_child hc; omega))

variable (T)

/-! ## The operations -/

/-- The stored `SubtypeCheckBits` of every class. -/
abbrev Store (C : Type*) := C → SubtypeCheckBits

def getSubtypeCheckInfo (s : Store C) (klass : C) : SubtypeCheckInfo := ⟨T.depth klass, s klass⟩

variable [DecidableEq C]

def setSubtypeCheckInfo (s : Store C) (klass : C) (sci : SubtypeCheckInfo) : Store C :=
  Function.update s klass sci.bits

/-- `InitializeOrAssign(klass, assign)`: the information of the class, and the store afterwards. -/
def initializeOrAssign (s : Store C) (klass : C) (assign : Bool) : SubtypeCheckInfo × Store C :=
  match _h : T.superClass klass with
  | none =>
    let rootSci := T.getSubtypeCheckInfo s klass
    if rootSci.getState ≠ .uninitialized then (rootSci, s)
    else (createRoot, setSubtypeCheckInfo s klass createRoot)
  | some parentKlass =>
    let (parent, s) := initializeOrAssign s parentKlass true
    let sci : SubtypeCheckInfo := ⟨parent.depth + 1, s klass⟩
    let parentSci : SubtypeCheckInfo := ⟨parent.depth, s parentKlass⟩
    if sci.getState = .uninitialized ∨ sci.getState = .initialized ∧ assign = true then
      let (sci, parentSci) := parentSci.createChild assign
      (sci, setSubtypeCheckInfo (setSubtypeCheckInfo s klass sci) parentKlass parentSci)
    else (sci, s)
termination_by T.depth klass
decreasing_by
  have := T.depth_child _h
  omega

/-- A call of `EnsureInitialized` or `EnsureAssigned`. -/
inductive Call (C : Type*)
  | ensureInitialized (klass : C)
  | ensureAssigned (klass : C)

/-- The store after a call. -/
def exec (s : Store C) : Call C → Store C
  | .ensureInitialized klass => (T.initializeOrAssign s klass false).2
  | .ensureAssigned klass => (T.initializeOrAssign s klass true).2

/-- The store after a sequence of calls on classes that are all Uninitialized. -/
def run (calls : List (Call C)) : Store C := calls.foldl T.exec fun _ => .zero

def isSubtypeOf (s : Store C) (source target : C) : Result :=
  (T.getSubtypeCheckInfo s source).isSubtypeOf (T.getSubtypeCheckInfo s target)

def getState (s : Store C) (klass : C) : State := (T.getSubtypeCheckInfo s klass).getState

/-! ## The invariant -/

omit [DecidableEq C]

/-- The character of a class at a position. -/
def char (s : Store C) (c : C) (j : ℕ) : ℕ := (T.getSubtypeCheckInfo s c).char j

/-- The class can have subclasses that are not Uninitialized. -/
def Promoted (s : Store C) (c : C) : Prop := T.getState s c = .assigned ∨ T.getState s c = .overflowed

/-- The invariant of the stored bits.

    A class that is not Uninitialized carries the path of its superclass, a label of its own if
    it is Assigned, and its `Next`; the label is below the superclass's `Next`, so no other
    subclass will receive it. -/
structure Inv (s : Store C) : Prop where
  tail : ∀ c j, T.depth c < j → T.char s c j = 0
  next : ∀ c, T.getState s c ≠ .uninitialized → T.depth c < kCapacity → T.char s c (T.depth c) ≠ 0
  promoted : ∀ {c p}, T.superClass c = some p → T.getState s c ≠ .uninitialized → T.Promoted s p
  overflow : ∀ {c p}, T.superClass c = some p → T.getState s c ≠ .uninitialized →
    (s p).overflow = true → (s c).overflow = true
  copy : ∀ {c p}, T.superClass c = some p → T.getState s c ≠ .uninitialized →
    ∀ j < T.depth p, T.char s c j = T.char s p j
  label_overflow : ∀ {c p}, T.superClass c = some p → (s c).overflow = true → T.char s c (T.depth p) = 0
  label_lt : ∀ {c p}, T.superClass c = some p → T.char s c (T.depth p) ≠ 0 →
    T.char s c (T.depth p) < T.char s p (T.depth p)
  label_inj : ∀ {c d p}, T.superClass c = some p → T.superClass d = some p →
    T.char s c (T.depth p) ≠ 0 → T.char s c (T.depth p) = T.char s d (T.depth p) → c = d

variable {T} {s s' : Store C} {c p k t : C}

lemma getState_eq_overflowed : T.getState s c = .overflowed ↔ (s c).overflow = true :=
  getState_eq_overflowed_iff

lemma getState_eq_uninitialized :
    T.getState s c = .uninitialized ↔ (s c).overflow = false ∧ ∀ j, T.char s c j = 0 :=
  getState_eq_uninitialized_iff

lemma getState_eq_assigned : T.getState s c = .assigned ↔ (s c).overflow = false ∧
    (∃ j, T.char s c j ≠ 0) ∧ T.depth c ≤ kCapacity ∧ (T.depth c = 0 ∨ T.char s c (T.depth c - 1) ≠ 0) :=
  getState_eq_assigned_iff

lemma live_of_char_ne_zero {j : ℕ} (h : T.char s c j ≠ 0) : T.getState s c ≠ .uninitialized :=
  fun hu => h ((getState_eq_uninitialized.1 hu).2 j)

lemma Promoted.live (h : T.Promoted s c) : T.getState s c ≠ .uninitialized := by
  rcases h with h | h <;> simp [h]

lemma Promoted.assigned (h : T.Promoted s c) (ho : (s c).overflow = false) : T.getState s c = .assigned :=
  h.resolve_right fun h => by simp [getState_eq_overflowed.1 h] at ho

/-- The store that all runs start from. -/
lemma inv_zero : T.Inv fun _ => zero := by
  have hz : ∀ c j, T.char (fun _ => zero) c j = 0 := fun c j => char_zero _ j
  have hu : ∀ c, T.getState (fun _ => zero) c = .uninitialized := fun c =>
    getState_eq_uninitialized.2 ⟨rfl, hz c⟩
  exact ⟨fun c j _ => hz c j, fun c h => absurd (hu c) h, fun {c _} _ h => absurd (hu c) h,
    fun {c _} _ h => absurd (hu c) h, fun {c _} _ h => absurd (hu c) h, fun _ _ => hz _ _,
    fun _ h => absurd (hz _ _) h, fun _ _ h => absurd (hz _ _) h⟩

/-! ## One class receives its path -/

variable (T) in
/-- The class `k` receives its path from the superclass `p`, with or without a label; nothing
    else changes but the `Next` of `p`. -/
structure ChildStep (s s' : Store C) (k p : C) : Prop where
  super : T.superClass k = some p
  parent : T.Promoted s p
  child : ¬ T.Promoted s k
  frame_overflow : ∀ c, c ≠ k → (s' c).overflow = (s c).overflow
  frame_char : ∀ c, c ≠ k → ∀ j, (c = p → j ≠ T.depth p) → T.char s' c j = T.char s c j
  next_le : T.char s p (T.depth p) ≤ T.char s' p (T.depth p)
  child_overflow : (s p).overflow = true → (s' k).overflow = true
  child_copy : ∀ j < T.depth p, T.char s' k j = T.char s p j
  child_next : T.depth k < kCapacity → T.char s' k (T.depth k) ≠ 0
  child_tail : ∀ j, T.depth k < j → T.char s' k j = 0
  child_label : T.char s' k (T.depth p) = 0 ∨ (s' k).overflow = false ∧
    T.char s' k (T.depth p) = T.char s p (T.depth p) ∧ T.char s p (T.depth p) < T.char s' p (T.depth p)

namespace ChildStep

variable (h : T.ChildStep s s' k p)
include h

lemma ne : p ≠ k := by
  rintro rfl
  have := T.depth_child h.super
  omega

/-- The characters that other classes share with `p` stay as they are. -/
lemma parent_char {j : ℕ} (hj : j < T.depth p) : T.char s' p j = T.char s p j :=
  h.frame_char p h.ne j fun _ => hj.ne

/-- A class other than `k` keeps its state. -/
lemma getState_eq (hc : c ≠ k) : T.getState s' c = T.getState s c := by
  have hof := h.frame_overflow c hc
  by_cases hp : c = p
  · subst hp
    rcases h.parent with ha | ho
    · obtain ⟨h1, ⟨j, hj⟩, h3, h4⟩ := getState_eq_assigned.1 ha
      rw [ha]
      refine getState_eq_assigned.2 ⟨hof.trans h1, ⟨j, fun hz => hj ?_⟩, h3, ?_⟩
      · by_cases hjd : j = T.depth c
        · have := h.next_le
          subst hjd
          omega
        · rw [← h.frame_char c hc j fun _ => hjd, hz]
      · rcases Nat.eq_zero_or_pos (T.depth c) with h0 | h0
        · exact .inl h0
        · exact .inr (h.parent_char (show T.depth c - 1 < T.depth c by omega) ▸
            h4.resolve_left h0.ne')
    · rw [ho]
      exact getState_eq_overflowed.2 (hof.trans (getState_eq_overflowed.1 ho))
  · have hch : ∀ j, T.char s' c j = T.char s c j := fun j =>
      h.frame_char c hc j fun e => absurd e hp
    have hu : T.getState s' c = .uninitialized ↔ T.getState s c = .uninitialized := by
      rw [getState_eq_uninitialized, getState_eq_uninitialized, hof]
      simp only [hch]
    have ha : T.getState s' c = .assigned ↔ T.getState s c = .assigned := by
      rw [getState_eq_assigned, getState_eq_assigned, hof]
      simp only [hch]
    have ho : T.getState s' c = .overflowed ↔ T.getState s c = .overflowed := by
      rw [getState_eq_overflowed, getState_eq_overflowed, hof]
    cases hs : T.getState s c <;> cases hs' : T.getState s' c <;> simp_all

/-- Neither `k` nor its superclass has `k` as a superclass. -/
lemma child_ne (hc : T.superClass c = some k) : c ≠ k ∧ c ≠ p := by
  have h1 := T.depth_child hc
  have h2 := T.depth_child h.super
  constructor <;> rintro rfl <;> omega

lemma inv (hI : T.Inv s) : T.Inv s' := by
  -- every class below `k` is Uninitialized before and after the step
  have hdead : ∀ {c}, T.superClass c = some k → T.getState s' c = .uninitialized := fun hc => by
    rw [h.getState_eq (h.child_ne hc).1]
    by_contra hl
    exact h.child (hI.promoted hc hl)
  have hprom : ∀ {q}, q ≠ k → T.Promoted s q → T.Promoted s' q := fun hq hs => by
    rwa [Promoted, h.getState_eq hq]
  have hlive : ∀ {c q}, T.superClass c = some q → c ≠ k → T.getState s' c ≠ .uninitialized →
      q ≠ k ∧ T.getState s c ≠ .uninitialized := fun hc hck hl =>
    ⟨fun hqk => hl (hdead (hqk ▸ hc)), h.getState_eq hck ▸ hl⟩
  -- the label that a class other than `k` received from its superclass
  have hlabel : ∀ {c q}, T.superClass c = some q → c ≠ k →
      T.char s' c (T.depth q) = T.char s c (T.depth q) := fun {c q} hc hck => by
    refine h.frame_char c hck _ fun hcp => ?_
    have := T.depth_child hc
    subst hcp
    omega
  refine ⟨fun c j hj => ?_, fun c hl hd => ?_, fun {c q} hc hl => ?_, fun {c q} hc hl ho => ?_,
    fun {c q} hc hl j hj => ?_, fun {c q} hc ho => ?_, fun {c q} hc hne => ?_,
    fun {c d q} hc hd hne heq => ?_⟩
  · by_cases hck : c = k
    · subst hck
      exact h.child_tail j hj
    · rw [h.frame_char c hck j fun e => by subst e; omega]
      exact hI.tail c j hj
  · by_cases hck : c = k
    · subst hck
      exact h.child_next hd
    · rw [h.getState_eq hck] at hl
      have := hI.next c hl hd
      by_cases hcp : c = p
      · have := h.next_le
        subst hcp
        omega
      · rwa [h.frame_char c hck _ fun e => absurd e hcp]
  · by_cases hck : c = k
    · subst hck
      obtain rfl : p = q := by simpa [h.super] using hc
      exact hprom h.ne h.parent
    · obtain ⟨hqk, hl⟩ := hlive hc hck hl
      exact hprom hqk (hI.promoted hc hl)
  · by_cases hck : c = k
    · subst hck
      obtain rfl : p = q := by simpa [h.super] using hc
      exact h.child_overflow (h.frame_overflow p h.ne ▸ ho)
    · obtain ⟨hqk, hl⟩ := hlive hc hck hl
      rw [h.frame_overflow c hck]
      exact hI.overflow hc hl (h.frame_overflow q hqk ▸ ho)
  · by_cases hck : c = k
    · subst hck
      obtain rfl : p = q := by simpa [h.super] using hc
      rw [h.child_copy j hj, h.parent_char hj]
    · obtain ⟨hqk, hl⟩ := hlive hc hck hl
      have := T.depth_child hc
      rw [h.frame_char c hck j fun e => by subst e; omega, h.frame_char q hqk j fun e => by subst e; omega]
      exact hI.copy hc hl j hj
  · by_cases hck : c = k
    · subst hck
      obtain rfl : p = q := by simpa [h.super] using hc
      rcases h.child_label with hz | ⟨hf, -⟩
      · exact hz
      · simp [hf] at ho
    · rw [hlabel hc hck]
      exact hI.label_overflow hc (h.frame_overflow c hck ▸ ho)
  · by_cases hck : c = k
    · subst hck
      obtain rfl : p = q := by simpa [h.super] using hc
      rcases h.child_label with hz | ⟨-, he, hlt⟩
      · exact absurd hz hne
      · rwa [he]
    · have hqk := (hlive hc hck (live_of_char_ne_zero hne)).1
      rw [hlabel hc hck] at hne ⊢
      have hlt := hI.label_lt hc hne
      by_cases hqp : q = p
      · subst hqp
        exact hlt.trans_le h.next_le
      · rwa [h.frame_char q hqk _ fun e => absurd e hqp]
  · -- a new label is the `Next` of `p`, above the labels of all other subclasses of `p`
    have hnew : ∀ {e}, T.superClass e = some p → e ≠ k → T.char s' k (T.depth p) ≠ 0 →
        T.char s' k (T.depth p) ≠ T.char s' e (T.depth p) := fun {e} he hek hne heq => by
      rcases h.child_label with hz | ⟨-, hk, -⟩
      · exact hne hz
      · rw [hlabel he hek] at heq
        have := hI.label_lt he (heq ▸ hne)
        omega
    by_cases hck : c = k <;> by_cases hdk' : d = k
    · rw [hck, hdk']
    · subst hck
      obtain rfl : p = q := by simpa [h.super] using hc
      exact absurd heq (hnew hd hdk' hne)
    · subst hdk'
      obtain rfl : p = q := by simpa [h.super] using hd
      exact absurd heq.symm (hnew hc hck (heq ▸ hne))
    · rw [hlabel hc hck] at hne heq
      rw [hlabel hd hdk'] at heq
      exact hI.label_inj hc hd hne heq

/-- The class is at least Initialized afterwards. -/
lemma live : T.getState s' k ≠ .uninitialized := by
  have hdk := T.depth_child h.super
  by_cases hd : T.depth k < kCapacity
  · exact live_of_char_ne_zero (h.child_next hd)
  · by_cases hof : (s p).overflow = true
    · rw [getState_eq_overflowed.2 (h.child_overflow hof)]
      decide
    · -- the path of an Assigned superclass this deep is not empty
      obtain ⟨-, -, h3, h4⟩ := getState_eq_assigned.1 (h.parent.assigned (by simpa using hof))
      have hc : 0 < kCapacity - 1 := by decide
      refine live_of_char_ne_zero (j := T.depth p - 1) ?_
      rw [h.child_copy _ (by omega)]
      exact h4.resolve_left (by omega)

lemma promoted_child (h1 : T.char s' k (T.depth p) ≠ 0 ∧ T.depth p < kCapacity ∨
    (s' k).overflow = true) : T.Promoted s' k := by
  rcases h1 with ⟨h1, hd⟩ | h1
  · have hdk := T.depth_child h.super
    have hof : (s' k).overflow = false := (h.child_label.resolve_left h1).1
    exact .inl (getState_eq_assigned.2 ⟨hof, ⟨_, h1⟩, by omega, .inr (by rwa [hdk])⟩)
  · exact .inr (getState_eq_overflowed.2 h1)

end ChildStep

/-! ## What a call does -/

section Exec

variable [DecidableEq C]

/-- The step that `createChild` and the two writes after it perform. -/
lemma childStep_createChild (hI : T.Inv s) (hs : T.superClass k = some p) (hp : T.Promoted s p)
    (hk : ¬ T.Promoted s k) (assign : Bool) : let r := (T.getSubtypeCheckInfo s p).createChild assign
    let s' := setSubtypeCheckInfo (setSubtypeCheckInfo s k r.1) p r.2
    T.ChildStep s s' k p ∧ s' k = r.1.bits ∧ r.1.depth = T.depth k ∧ (assign = true → T.Promoted s' k) := by
  intro r s'
  have hdk := T.depth_child hs
  have hne : k ≠ p := by
    rintro rfl
    omega
  have hsk : s' k = r.1.bits := by simp [s', setSubtypeCheckInfo, hne]
  have hsp : s' p = r.2.bits := by simp [s', setSubtypeCheckInfo]
  have hso : ∀ c, c ≠ k → c ≠ p → s' c = s c := fun c h1 h2 => by simp [s', setSubtypeCheckInfo, h1, h2]
  have hck : ∀ j, T.char s' k j = r.1.char j := fun j => by
    show SubtypeCheckInfo.char ⟨_, s' k⟩ j = _
    rw [hsk]
    rfl
  have hcp : ∀ j, T.char s' p j = r.2.char j := fun j => by
    show SubtypeCheckInfo.char ⟨_, s' p⟩ j = _
    rw [hsp]
    rfl
  have hco : ∀ c, c ≠ k → c ≠ p → ∀ j, T.char s' c j = T.char s c j := fun c h1 h2 j => by
    show SubtypeCheckInfo.char ⟨_, s' c⟩ j = _
    rw [hso c h1 h2]
    rfl
  -- an unlabelled child: the parent is as before, the child's label is zero
  have hunl : (T.getSubtypeCheckInfo s p).IsUnlabelledChild r.1 → r.2 = T.getSubtypeCheckInfo s p →
      ((s p).overflow = true → r.1.bits.overflow = true) → T.ChildStep s s' k p := by
    rintro ⟨-, hchar⟩ hr2 hof
    have hcp' : ∀ j, T.char s' p j = T.char s p j := fun j => by rw [hcp, hr2]; rfl
    have hchar' : ∀ j, T.char s' k j = if j = T.depth p then 0
        else if j = T.depth p + 1 ∧ j < kCapacity then 1 else T.char s p j := fun j =>
      (hck j).trans (hchar j)
    refine ⟨hs, hp, hk, fun c hc => ?_, fun c hc j _ => ?_, (hcp' _).ge, ?_, fun j hj => ?_, ?_,
      fun j hj => ?_, .inl (by rw [hchar', if_pos rfl])⟩
    · by_cases e : c = p
      · rw [e, hsp, hr2]; rfl
      · rw [hso c hc e]
    · by_cases e : c = p
      · rw [e, hcp']
      · exact hco c hc e j
    · rwa [hsk]
    · rw [hchar', if_neg hj.ne, if_neg (by omega)]
    · intro hd
      rw [hchar', if_neg (by omega), if_pos ⟨hdk, hd⟩]
      exact one_ne_zero
    · rw [hchar', if_neg (by omega), if_neg (by omega)]
      exact hI.tail p j (by omega)
  cases assign with
  | false =>
    obtain ⟨hu, hof, hr2⟩ := (T.getSubtypeCheckInfo s p).createChild_false_spec
    exact ⟨hunl hu hr2 hof.trans, hsk, hu.1.trans hdk.symm, by simp⟩
  | true =>
    rcases (T.getSubtypeCheckInfo s p).createChild_true_spec with hl | ⟨hu, hof, hr2⟩
    · have hchar : ∀ j, T.char s' k j = if j = T.depth p + 1 ∧ j < kCapacity then 1
          else T.char s p j := fun j => (hck j).trans (hl.child_char j)
      have hpar : ∀ j, T.char s' p j = if j = T.depth p then T.char s p j + 1
          else T.char s p j := fun j => (hcp j).trans (hl.parent_char j)
      have hlab : T.char s' k (T.depth p) = T.char s p (T.depth p) := by rw [hchar, if_neg (by omega)]
      have hstep : T.ChildStep s s' k p := by
        refine ⟨hs, hp, hk, fun c hc => ?_, fun c hc j hj => ?_, ?_, fun h => ?_, fun j hj => ?_,
          fun hd => ?_, fun j hj => ?_, .inr ⟨?_, hlab, ?_⟩⟩
        · by_cases e : c = p
          · rw [e, hsp]
            exact hl.parent_overflow.trans hl.overflow.symm
          · rw [hso c hc e]
        · by_cases e : c = p
          · rw [e, hpar, if_neg (hj e)]
          · exact hco c hc e j
        · rw [hpar, if_pos rfl]
          exact Nat.le_succ _
        · exact absurd (hl.overflow.symm.trans h) (by decide)
        · rw [hchar, if_neg (by omega)]
        · rw [hchar, if_pos ⟨hdk, hd⟩]
          exact one_ne_zero
        · rw [hchar, if_neg (by omega)]
          exact hI.tail p j (by omega)
        · rw [hsk]
          exact hl.child_overflow
        · rw [hpar, if_pos rfl]
          exact Nat.lt_succ_self _
      refine ⟨hstep, hsk, hl.child_depth.trans hdk.symm, fun _ => hstep.promoted_child (.inl ?_)⟩
      exact ⟨hlab ▸ hI.next p hp.live hl.has_next, hl.has_next⟩
    · have hstep := hunl hu hr2 fun _ => hof
      exact ⟨hstep, hsk, hu.1.trans hdk.symm, fun _ => hstep.promoted_child (.inr (hsk ▸ hof))⟩

/-- The root goes from Uninitialized to Assigned. -/
lemma Inv.createRoot (hI : T.Inv s) (hr : T.superClass k = none) (hu : T.getState s k = .uninitialized) :
    T.Inv (setSubtypeCheckInfo s k createRoot) ∧
      T.getState (setSubtypeCheckInfo s k createRoot) k = .assigned := by
  obtain ⟨-, hof, hchar⟩ := createRoot_spec
  set s' := setSubtypeCheckInfo s k _ with hs'
  have hd0 := T.depth_root hr
  have hk : s' k = SubtypeCheckInfo.createRoot.bits := by simp [hs', setSubtypeCheckInfo]
  have hne : ∀ {c q}, T.superClass c = some q → c ≠ k := fun hc e => by simp [e, hr] at hc
  have ho : ∀ c, c ≠ k → s' c = s c := fun c hc => by simp [hs', setSubtypeCheckInfo, hc]
  have hck : ∀ j, T.char s' k j = if j = 0 then 1 else 0 := fun j => by
    rw [← hchar, char, getSubtypeCheckInfo, hk]
    rfl
  have hco : ∀ c, c ≠ k → ∀ j, T.char s' c j = T.char s c j := fun c hc j => by
    rw [char, char, getSubtypeCheckInfo, getSubtypeCheckInfo, ho c hc]
  have hst : ∀ c, c ≠ k → T.getState s' c = T.getState s c := fun c hc => by
    rw [getState, getState, getSubtypeCheckInfo, getSubtypeCheckInfo, ho c hc]
  -- no subclass of the root is live yet
  have hq : ∀ {c q}, T.superClass c = some q → T.getState s c ≠ .uninitialized → q ≠ k :=
    fun hc hl e => (hI.promoted hc hl).live (e ▸ hu)
  have ha : T.getState s' k = .assigned := getState_eq_assigned.2
    ⟨hk ▸ hof, ⟨0, by rw [hck, if_pos rfl]; exact one_ne_zero⟩, by omega, .inl hd0⟩
  refine ⟨⟨fun c j hj => ?_, fun c hl hd => ?_, fun {c q} hc hl => ?_, fun {c q} hc hl h => ?_,
    fun {c q} hc hl j hj => ?_, fun {c q} hc h => ?_, fun {c q} hc h => ?_,
    fun {c d q} hc hd h heq => ?_⟩, ha⟩
  · by_cases e : c = k
    · subst e
      rw [hck, if_neg (by omega)]
    · rw [hco c e, hI.tail c j hj]
  · by_cases e : c = k
    · subst e
      rw [hck, if_pos hd0]
      exact one_ne_zero
    · rw [hco c e]
      exact hI.next c (hst c e ▸ hl) hd
  · rw [hst c (hne hc)] at hl
    rw [Promoted, hst q (hq hc hl)]
    exact hI.promoted hc hl
  · rw [hst c (hne hc)] at hl
    rw [ho c (hne hc)]
    exact hI.overflow hc hl (ho q (hq hc hl) ▸ h)
  · rw [hst c (hne hc)] at hl
    rw [hco c (hne hc), hco q (hq hc hl)]
    exact hI.copy hc hl j hj
  · rw [hco c (hne hc)]
    exact hI.label_overflow hc (ho c (hne hc) ▸ h)
  · rw [hco c (hne hc)] at h ⊢
    rw [hco q (hq hc (live_of_char_ne_zero h))]
    exact hI.label_lt hc h
  · rw [hco c (hne hc)] at h heq
    rw [hco d (hne hd)] at heq
    exact hI.label_inj hc hd h heq

lemma initializeOrAssign_root (hs : T.superClass k = none) (assign : Bool) :
    T.initializeOrAssign s k assign =
      if T.getState s k = .uninitialized then (createRoot, setSubtypeCheckInfo s k createRoot)
      else (T.getSubtypeCheckInfo s k, s) := by
  rw [initializeOrAssign]
  split
  next => simp only [ne_eq, ite_not]; rfl
  next h => simp [hs] at h

lemma initializeOrAssign_child (hs : T.superClass k = some p) (assign : Bool) :
    T.initializeOrAssign s k assign = let r := T.initializeOrAssign s p true
      let sci : SubtypeCheckInfo := ⟨r.1.depth + 1, r.2 k⟩
      let c := createChild ⟨r.1.depth, r.2 p⟩ assign
      if sci.getState = .uninitialized ∨ sci.getState = .initialized ∧ assign = true then
        (c.1, setSubtypeCheckInfo (setSubtypeCheckInfo r.2 k c.1) p c.2)
      else (sci, r.2) := by
  rw [initializeOrAssign]
  split
  next h => simp [hs] at h
  next p' h =>
    obtain rfl : p = p' := by simpa [hs] using h
    rfl

/-- A call keeps the invariant and returns the information it leaves in the class, which is at
    least Initialized, and Assigned or Overflowed if the call was to assign. -/
lemma Inv.initializeOrAssign (hI : T.Inv s) (assign : Bool) : let r := T.initializeOrAssign s k assign
    T.Inv r.2 ∧ r.1 = T.getSubtypeCheckInfo r.2 k ∧ T.getState r.2 k ≠ .uninitialized ∧
      (assign = true → T.Promoted r.2 k) := by
  -- on the depth of the class: the superclass is promoted first
  induction hd : T.depth k generalizing k s assign with
  | zero =>
    have hs : T.superClass k = none := by
      match hs : T.superClass k with
      | none => rfl
      | some p => have := T.depth_child hs; omega
    rw [initializeOrAssign_root hs]
    split
    next hu =>
      obtain ⟨h1, h2⟩ := hI.createRoot hs hu
      refine ⟨h1, ?_, by simp [h2], fun _ => .inl h2⟩
      simp [getSubtypeCheckInfo, setSubtypeCheckInfo, hd, SubtypeCheckInfo.createRoot, setNext, setBitString]
    next hu =>
      refine ⟨hI, rfl, hu, fun _ => ?_⟩
      by_cases hof : (s k).overflow = true
      · exact .inr (getState_eq_overflowed.2 hof)
      · rw [getState_eq_uninitialized, not_and, not_forall] at hu
        exact .inl (getState_eq_assigned.2 ⟨by simpa using hof, hu (by simpa using hof), by omega, .inl hd⟩)
  | succ d ih =>
    obtain ⟨p, hs⟩ : ∃ p, T.superClass k = some p := by
      match hs : T.superClass k with
      | none => have := T.depth_root hs; omega
      | some p => exact ⟨p, rfl⟩
    have hdp := T.depth_child hs
    obtain ⟨h1, h2, -, h4⟩ := ih (k := p) hI true (by omega)
    rw [initializeOrAssign_child hs]
    generalize T.initializeOrAssign s p true = r at h1 h2 h4
    have hdepth : r.1.depth = T.depth p := by rw [h2]; rfl
    simp only [hdepth, ← hdp]
    split
    next hu =>
      have hk : ¬ T.Promoted r.2 k := by
        rintro (ha | ho)
        · exact absurd (ha.symm.trans (hu.resolve_right fun h => absurd (ha.symm.trans h.1)
            (by decide))) (by decide)
        · exact absurd (ho.symm.trans (hu.resolve_right fun h => absurd (ho.symm.trans h.1)
            (by decide))) (by decide)
      obtain ⟨hstep, hbits, hdep, hprom⟩ := childStep_createChild h1 hs (h4 rfl) hk assign
      refine ⟨hstep.inv h1, ?_, hstep.live, hprom⟩
      exact congrArg₂ SubtypeCheckInfo.mk hdep hbits.symm
    next hu =>
      rw [not_or, not_and] at hu
      refine ⟨h1, rfl, hu.1, fun ha => ?_⟩
      have h0 : T.getState r.2 k ≠ .uninitialized := hu.1
      have h1 : T.getState r.2 k ≠ .initialized := fun e => hu.2 e ha
      rw [Promoted]
      cases hst : T.getState r.2 k <;> simp_all

/-- The invariant holds after every sequence of calls. -/
lemma inv_run (calls : List (Call C)) : T.Inv (T.run calls) := by
  suffices h : ∀ s, T.Inv s → T.Inv (calls.foldl T.exec s) from h _ inv_zero
  induction calls with
  | nil => exact fun s hs => hs
  | cons call calls ih =>
    intro s hs
    refine ih _ ?_
    cases call with
    | ensureInitialized k => exact (hs.initializeOrAssign false).1
    | ensureAssigned k => exact (hs.initializeOrAssign true).1

end Exec

/-! ## Paths decide the subclass relation -/

variable (hI : T.Inv s)
include hI

/-- The superclass of an Assigned class is Assigned. -/
lemma Inv.assigned_super (hc : T.superClass c = some p)
    (ha : T.getState s c = .assigned) : T.getState s p = .assigned := by
  have hl : T.getState s c ≠ .uninitialized := by simp [ha]
  refine (hI.promoted hc hl).assigned ?_
  by_contra h
  have := hI.overflow hc hl (by simpa using h)
  simp [(getState_eq_assigned.1 ha).1] at this

/-- The superclass of a class that is not Uninitialized is not Uninitialized. -/
lemma Inv.live_of_isSubclass (h : T.IsSubclass c t)
    (hc : T.getState s c ≠ .uninitialized) : T.getState s t ≠ .uninitialized := by
  induction h with
  | refl => exact hc
  | tail _ hp ih => exact (hI.promoted hp ih).live

/-- A class carries the path of each of its superclasses. -/
lemma Inv.char_eq_of_isSubclass (h : T.IsSubclass c t)
    (hc : T.getState s c ≠ .uninitialized) : ∀ j < T.depth t, T.char s c j = T.char s t j := by
  induction h with
  | refl => exact fun _ _ => rfl
  | tail h hp ih =>
    intro j hj
    have := T.depth_child hp
    rw [ih j (by omega), hI.copy hp (hI.live_of_isSubclass h hc) j hj]

/-- An Assigned class has a label at every position of its path. -/
lemma Inv.char_ne_zero (ht : T.getState s t = .assigned) : ∀ j < T.depth t, T.char s t j ≠ 0 := by
  induction hd : T.depth t generalizing t with
  | zero => omega
  | succ d ih =>
    intro j hj
    match hs : T.superClass t with
    | none => have := T.depth_root hs; omega
    | some p =>
      have hdp := T.depth_child hs
      rcases lt_or_ge j d with h | h
      · rw [hI.copy hs (by simp [ht]) j (by omega)]
        exact ih (hI.assigned_super hs ht) (by omega) j h
      · obtain rfl : j = T.depth t - 1 := by omega
        exact (getState_eq_assigned.1 ht).2.2.2.resolve_left (by omega)

omit hI

variable (hI : T.Inv s) (hc : T.getState s c ≠ .uninitialized) (ht : T.getState s t = .assigned)

include hI hc ht in
/-- A class whose path starts with that of an Assigned class is a subclass of it. -/
lemma Inv.isSubclass_of_char_eq (hle : T.depth t ≤ T.depth c)
    (h : ∀ j < T.depth t, T.char s c j = T.char s t j) : T.IsSubclass c t := by
  induction hd : T.depth t generalizing t with
  | zero =>
    refine isSubclass_root ?_ c
    match hs : T.superClass t with
    | none => rfl
    | some p => have := T.depth_child hs; omega
  | succ d ih =>
    match hs : T.superClass t with
    | none => have := T.depth_root hs; omega
    | some p =>
      have hdp := T.depth_child hs
      have hp : T.IsSubclass c p := ih (hI.assigned_super hs ht) (by omega)
        (fun j hj => (h j (by omega)).trans (hI.copy hs (by simp [ht]) j hj)) (by omega)
      -- the superclass of `c` just below `p` carries the label of `t`, so it is `t`
      rcases hp.cases_tail with rfl | ⟨c', hcc', hc'⟩
      · omega
      · have hlab : T.char s t (T.depth p) = T.char s c' (T.depth p) := by
          rw [← h _ (by omega), hI.char_eq_of_isSubclass hcc' hc _ (by
            have := T.depth_child hc'; omega)]
        rwa [hI.label_inj hs hc' (hI.char_ne_zero ht _ (by omega)) hlab]

lemma Inv.path_eq_of_isSubclass (hI : T.Inv s) (hc : T.getState s c ≠ .uninitialized)
    (h : T.IsSubclass c t) :
    (T.getSubtypeCheckInfo s c).getPathToRoot.truncate (T.getSubtypeCheckInfo s t).getSafeDepth =
      (T.getSubtypeCheckInfo s t).getPathToRoot := by
  refine truncate_getPathToRoot_eq_iff.2 fun j hj => ?_
  have hj' : j < (T.getSubtypeCheckInfo s c).depth := lt_of_lt_of_le hj h.depth_le
  rw [path, path, if_pos hj, if_pos hj']
  exact hI.char_eq_of_isSubclass h hc j hj

include hI hc ht in
lemma Inv.isSubclass_of_path_eq
    (h : (T.getSubtypeCheckInfo s c).getPathToRoot.truncate (T.getSubtypeCheckInfo s t).getSafeDepth =
      (T.getSubtypeCheckInfo s t).getPathToRoot) : T.IsSubclass c t := by
  have hpath : ∀ j < T.depth t, (if j < T.depth c then T.char s c j else 0) = T.char s t j :=
    fun j hj => by
      have := truncate_getPathToRoot_eq_iff.1 h j hj
      rwa [path, path, if_pos (show j < (T.getSubtypeCheckInfo s t).depth from hj)] at this
  -- a shallower class has no label where the path of `t` still has one
  have hle : T.depth t ≤ T.depth c := by
    by_contra hlt
    have := hpath (T.depth c) (by omega)
    rw [if_neg (lt_irrefl _)] at this
    exact hI.char_ne_zero ht _ (by omega) this.symm
  exact hI.isSubclass_of_char_eq hc ht hle fun j hj => by rw [← hpath j hj, if_pos (hj.trans_le hle)]

/-- After any sequence of calls, the subtype check is sound and complete where it answers, it
    answers exactly when the target is Assigned and the source is not Uninitialized, and the
    invariants of the tree hold: the superclass of an Assigned class is Assigned, a subclass of
    an Uninitialized class is Uninitialized, and the path of a class that is not Uninitialized
    starts with that of each superclass and with that of no other Assigned class. -/
theorem subtypeCheck_run [DecidableEq C] (T : ClassTree C) (calls : List (Call C)) : let s := T.run calls
    (∀ source target, (T.isSubtypeOf s source target = .subtypeOf → T.IsSubclass source target) ∧
      (T.isSubtypeOf s source target = .notSubtypeOf → ¬ T.IsSubclass source target) ∧
      (T.isSubtypeOf s source target = .unknownSubtypeOf ↔
        T.getState s target ≠ .assigned ∨ T.getState s source = .uninitialized)) ∧
    (∀ c p, T.superClass c = some p → T.getState s c = .assigned → T.getState s p = .assigned) ∧
    (∀ c p, T.superClass c = some p → T.getState s p = .uninitialized →
      T.getState s c = .uninitialized) ∧ (∀ c t, T.getState s c ≠ .uninitialized → T.IsSubclass c t →
      (T.getSubtypeCheckInfo s c).getPathToRoot.truncate (T.getSubtypeCheckInfo s t).getSafeDepth =
        (T.getSubtypeCheckInfo s t).getPathToRoot) ∧
    (∀ c t, T.getState s c ≠ .uninitialized → T.getState s t = .assigned → ¬ T.IsSubclass c t →
      (T.getSubtypeCheckInfo s c).getPathToRoot.truncate (T.getSubtypeCheckInfo s t).getSafeDepth ≠
        (T.getSubtypeCheckInfo s t).getPathToRoot) := by
  intro s
  have hI : T.Inv s := inv_run calls
  refine ⟨fun source target => ⟨fun h => ?_, fun h hsub => ?_, isSubtypeOf_eq_unknown_iff⟩,
    fun c p hc ha => hI.assigned_super hc ha, fun c p hc hu => ?_,
    fun c t hc h => hI.path_eq_of_isSubclass hc h,
    fun c t hc ht hn h => hn (hI.isSubclass_of_path_eq hc ht h)⟩
  · obtain ⟨ht, hs, hp⟩ := isSubtypeOf_eq_subtypeOf_iff.1 h
    exact hI.isSubclass_of_path_eq hs ht hp
  · have hknown : ¬ (T.getState s target ≠ .assigned ∨ T.getState s source = .uninitialized) :=
      fun hu => absurd (h.symm.trans (isSubtypeOf_eq_unknown_iff.2 hu)) (by decide)
    rw [not_or, not_not] at hknown
    exact absurd (h.symm.trans (isSubtypeOf_eq_subtypeOf_iff.2
      ⟨hknown.1, hknown.2, hI.path_eq_of_isSubclass hknown.2 hsub⟩)) (by decide)
  · by_contra hl
    exact (hI.promoted hc hl).live hu

end ClassTree

end Art
