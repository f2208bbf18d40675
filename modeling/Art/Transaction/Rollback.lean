import Art.Transaction.Log

/-!
# Rollback restores the heap
-/

namespace Art

open HeapLayout

variable {layout : HeapLayout} {σ γ : Type}

/-! ## Values that are recorded and undone -/

lemma setWidth_setWidth_eq {w v : ℕ} (h : w ≤ v) (x : BitVec w) : (x.setWidth v).setWidth w = x :=
  (BitVec.setWidth_setWidth_of_le x h).trans (BitVec.setWidth_eq x)

lemma setWidth_signExtend_eq {w v : ℕ} (h : w ≤ v) (x : BitVec w) : (x.signExtend v).setWidth w = x := by
  ext i hi
  rw [BitVec.getElem_setWidth, BitVec.getLsbD_signExtend, if_pos hi, decide_eq_true (lt_of_lt_of_le hi h),
    Bool.true_and, BitVec.getLsbD_eq_getElem hi]

lemma compress_decompress (ref : BitVec 32) : layout.compress (layout.decompress ref) = ref := by
  unfold compress decompress
  split
  · rw [setWidth_setWidth_eq (by decide), BitVec.neg_neg]
  · rw [setWidth_setWidth_eq (by decide)]

/-- A field survives widening and narrowing. -/
lemma undoneValue_recordedValue (kind : FieldValueKind) (value : BitVec kind.width) (isVolatile : Bool) :
    (layout.undoneValue ⟨layout.recordedValue kind value, recordedKind kind, isVolatile⟩).setWidth
      kind.width = value := by
  cases kind with
  | boolean
  | char
  | short
  | bits32 => exact (BitVec.setWidth_eq _).trans (setWidth_setWidth_eq (by decide) _)
  | byte => exact (BitVec.setWidth_eq _).trans (setWidth_signExtend_eq (by decide) _)
  | bits64 => exact BitVec.setWidth_eq _
  | reference => exact (BitVec.setWidth_eq _).trans (compress_decompress _)

/-- An element that is no floating-point number survives widening and narrowing. -/
lemma undoneElement_recordedElement {type : ComponentType} (hfloat : type ≠ .float)
    (hdouble : type ≠ .double) (value : BitVec type.width) :
    undoneElement type (layout.recordedElement type value) = value := by
  cases type with
  | boolean | char => exact setWidth_setWidth_eq (by decide) _
  | byte | short | int => exact setWidth_signExtend_eq (by decide) _
  | float => exact absurd rfl hfloat
  | long => rfl
  | double => exact absurd rfl hdouble

/-! ## The invariant of a transaction -/

variable {start s s' : TransactionState layout σ} {content : σ → γ}

namespace TransactionState

/-- The record that an operation makes first for its location stands for what is there. -/
def Faithful (s : TransactionState layout σ) : Operation layout σ → Prop
  | .casField l _ oldValue _ _ =>
    UndoLog.find s.objectLogs l = none → layout.skipped l = false → oldValue = s.fields l
  | .setElement l _ =>
    UndoLog.find s.arrayLogs l = none →
    layout.componentType l.1 = .float ∨ layout.componentType l.1 = .double →
    undoneElement _ (layout.recordedElement _ (s.elements l)) = s.elements l
  | _ => True

/-- The logs track the changes of the heap and of the interned strings. -/
structure Logged (content : σ → γ) (start s : TransactionState layout σ) : Prop where
  fields : UndoLog.Tracks start.fields s.fields s.objectLogs
  elements : UndoLog.Tracks start.elements s.elements s.arrayLogs
  interns : s.internTable.Logged content
    (start.internTable.strongInterns.strings, start.internTable.weakInterns.strings)

/-- The records stand for what was in the heap. -/
structure Exact (start s : TransactionState layout σ) : Prop where
  fields : UndoLog.Exact layout.restoreField start.fields s.objectLogs
  elements : UndoLog.Exact layout.restoreElement start.elements s.arrayLogs

variable (h : Logged content start s)

include h in
/-- A record of a field, with or without a store after it. -/
lemma Logged.recordWriteField (l : ℕ × ℕ) (value newValue : BitVec (layout.fieldKind l).width)
    (isVolatile : Bool) :
    Logged content start ((s.recordWriteField l value isVolatile).storeField l newValue) :=
  ⟨h.fields.write l _ newValue, h.elements, h.interns⟩

include h in
/-- The record of a field is exact if the recorded value is that of the field. -/
lemma Logged.exact_recordWriteField_iff (l : ℕ × ℕ)
    (value newValue : BitVec (layout.fieldKind l).width) (isVolatile : Bool) :
    Exact start ((s.recordWriteField l value isVolatile).storeField l newValue) ↔
      Exact start s ∧ (UndoLog.find s.objectLogs l = none → layout.skipped l = false →
        value = s.fields l) := by
  have hiff := h.fields.exact_record_iff layout.restoreField l
    ⟨layout.recordedValue _ value, recordedKind (layout.fieldKind l), isVolatile⟩
  constructor
  · intro hexact
    obtain ⟨hfields, hnew⟩ := hiff.1 hexact.fields
    refine ⟨⟨hfields, hexact.elements⟩, fun hnone hskipped => hnew hnone value ?_⟩
    rw [restoreField, undoneValue_recordedValue, hskipped, if_neg Bool.false_ne_true]
  · rintro ⟨hexact, hnew⟩
    refine ⟨hiff.2 ⟨hexact.fields, fun hnone v hv => ?_⟩, hexact.elements⟩
    rw [restoreField, undoneValue_recordedValue] at hv
    split at hv
    next => cases hv
    next hskipped =>
      rw [← Option.some.inj hv]
      exact hnew hnone (Bool.eq_false_iff.2 hskipped)

lemma storeField_self (s : TransactionState layout σ) (l : ℕ × ℕ)
    (value : BitVec (layout.fieldKind l).width) (isVolatile : Bool) :
    (s.recordWriteField l value isVolatile).storeField l (s.fields l) =
      s.recordWriteField l value isVolatile := by
  rw [storeField, recordWriteField, Function.update_eq_self]

include h in
lemma Logged.exact_setElement_iff (l : ℕ × ℕ) (value : BitVec (layout.componentType l.1).width) :
    Exact start { s.recordWriteArray l (s.elements l) with
        elements := Function.update s.elements l value } ↔
      Exact start s ∧ Faithful s (.setElement l value) := by
  have hiff := h.elements.exact_record_iff layout.restoreElement l (layout.recordedElement _ (s.elements l))
  constructor
  · intro hexact
    obtain ⟨helements, hnew⟩ := hiff.1 hexact.elements
    exact ⟨⟨hexact.fields, helements⟩, fun hnone _ => hnew hnone _ rfl⟩
  · rintro ⟨hexact, hnew⟩
    refine ⟨hexact.fields, hiff.2 ⟨hexact.elements, fun hnone v hv => ?_⟩⟩
    rw [← Option.some.inj hv]
    by_cases hfloat : layout.componentType l.1 = .float ∨ layout.componentType l.1 = .double
    · exact hnew hnone hfloat
    · rw [not_or] at hfloat
      exact undoneElement_recordedElement hfloat.1 hfloat.2 _

variable [DecidableEq γ]

include h in
/-- Each operation succeeds and keeps the invariant, and its record is exact if it is faithful. -/
lemma Logged.step (op : Operation layout σ) : ∃ s', s.step content op = some s' ∧ Logged content start s' ∧
      (Exact start s' ↔ Exact start s ∧ s.Faithful op) := by
  cases op with
  | setField l isVolatile newValue | exchangeFieldObject l isReference newValue =>
    refine ⟨_, rfl, h.recordWriteField l _ _ _, (h.exact_recordWriteField_iff l _ _ _).trans ?_⟩
    exact and_congr_right fun _ => ⟨fun _ => trivial, fun _ _ _ => rfl⟩
  | casField l hasCas oldValue newValue weakFailure =>
    refine ⟨_, rfl, ?_⟩
    split
    · exact ⟨h.recordWriteField l _ _ _, h.exact_recordWriteField_iff l _ _ _⟩
    · rw [← storeField_self s l oldValue true]
      exact ⟨h.recordWriteField l _ _ _, h.exact_recordWriteField_iff l _ _ _⟩
  | compareAndExchangeFieldObject l isReference oldValue newValue =>
    refine ⟨_, rfl, ?_⟩
    split
    · refine ⟨h.recordWriteField l _ _ _, (h.exact_recordWriteField_iff l _ _ _).trans ?_⟩
      exact and_congr_right fun _ => ⟨fun _ => trivial, fun _ _ _ => rfl⟩
    · exact ⟨h, (iff_of_eq (and_true _)).symm⟩
  | setElement l value =>
    exact ⟨_, rfl, ⟨h.fields, h.elements.write l _ value, h.interns⟩, h.exact_setElement_iff l value⟩
  | intern str isStrong =>
    obtain ⟨i, hi, hlogged⟩ := h.interns.intern str isStrong
    refine ⟨{ s with internTable := i }, by rw [TransactionState.step, hi]; rfl,
      ⟨h.fields, h.elements, hlogged⟩, ?_⟩
    exact ⟨fun hexact => ⟨⟨hexact.fields, hexact.elements⟩, trivial⟩,
      fun hexact => ⟨hexact.1.fields, hexact.1.elements⟩⟩

/-- The operations of a sequence are all faithful. -/
def AllFaithful (content : σ → γ) (s : TransactionState layout σ) (ops : List (Operation layout σ)) : Prop :=
  ∀ before op after, ops = before ++ op :: after → ∀ t, s.run content before = some t → t.Faithful op

lemma allFaithful_cons_iff {op : Operation layout σ} {ops : List (Operation layout σ)}
    (hstep : s.step content op = some s') :
    AllFaithful content s (op :: ops) ↔ s.Faithful op ∧ AllFaithful content s' ops := by
  constructor
  · intro h
    refine ⟨h [] op ops rfl s rfl, fun before op' after heq t ht => ?_⟩
    refine h _ op' after (by rw [heq, List.cons_append]) t ?_
    rw [run, List.foldlM_cons, hstep]
    exact ht
  · rintro ⟨hop, h⟩ before op' after heq t ht
    cases before with
    | nil =>
      obtain ⟨rfl, -⟩ := List.cons.inj heq
      cases ht
      exact hop
    | cons op1 before =>
      obtain ⟨rfl, hrest⟩ := List.cons.inj heq
      rw [run, List.foldlM_cons, hstep] at ht
      exact h before op' after hrest t ht

include h in
/-- Sequences of operations. -/
lemma Logged.run (ops : List (Operation layout σ)) :
    ∃ s', s.run content ops = some s' ∧ Logged content start s' ∧
      (Exact start s' ↔ Exact start s ∧ AllFaithful content s ops) := by
  induction ops generalizing s with
  | nil =>
    refine ⟨s, rfl, h, ⟨fun hexact => ⟨hexact, fun before op after heq => ?_⟩, And.left⟩⟩
    cases before <;> cases heq
  | cons op ops ih =>
    obtain ⟨t, ht, hlogged, hexact⟩ := h.step op
    obtain ⟨s', hs', hlogged', hexact'⟩ := ih hlogged
    refine ⟨s', ?_, hlogged', ?_⟩
    · rw [TransactionState.run, List.foldlM_cons, ht]
      exact hs'
    · rw [hexact', hexact, allFaithful_cons_iff ht, and_assoc]

/-! ## Rollback -/

/-- The state when a transaction begins: the logs are empty, and strings in a table are different. -/
structure Begins (content : σ → γ) (s : TransactionState layout σ) : Prop where
  objectLogs : s.objectLogs = []
  arrayLogs : s.arrayLogs = []
  internStringLogs : s.internTable.internStringLogs = []
  strong : Distinct content s.internTable.strongInterns.strings
  weak : Distinct content s.internTable.weakInterns.strings

omit [DecidableEq γ] in
lemma Begins.logged (h : Begins content s) : Logged content s s := by
  refine ⟨?_, ?_, ⟨h.strong, h.weak, ?_⟩⟩
  · rw [h.objectLogs]
    exact UndoLog.Tracks.nil
  · rw [h.arrayLogs]
    exact UndoLog.Tracks.nil
  · rw [h.internStringLogs]
    exact .nil (List.Perm.refl _) (List.Perm.refl _)

omit [DecidableEq γ] in
lemma Begins.exact (h : Begins content s) : Exact s s := by
  refine ⟨?_, ?_⟩
  · rw [h.objectLogs]
    exact UndoLog.Exact.nil
  · rw [h.arrayLogs]
    exact UndoLog.Exact.nil

/-- The heap and the interned strings are those of the start, except for the fields that are skipped. -/
structure Restored (start s : TransactionState layout σ) : Prop where
  fields : ∀ l, layout.skipped l = false → s.fields l = start.fields l
  elements : ∀ l, s.elements l = start.elements l
  strong : s.internTable.strongInterns.strings.Perm start.internTable.strongInterns.strings
  weak : s.internTable.weakInterns.strings.Perm start.internTable.weakInterns.strings

lemma restoreField_eq_none_iff (l : ℕ × ℕ) (fieldValue : FieldValue) :
    layout.restoreField l fieldValue = none ↔ layout.skipped l = true := by
  rw [restoreField]
  split
  next hskipped => exact iff_of_true rfl hskipped
  next hskipped => exact iff_of_false (Option.some_ne_none _) hskipped

include h in
/-- A rollback succeeds, and it restores the start if and only if the records are exact. -/
lemma Logged.rollback : ∃ s', s.rollback content = some s' ∧ (Restored start s' ↔ Exact start s) := by
  obtain ⟨i, hi, hstrong, hweak⟩ := h.interns.undoAll
  have hfields := h.fields.forall_undo_eq_iff _ restoreField_eq_none_iff
  have hkept : ∀ l value, layout.restoreElement l value = none ↔ False :=
    fun l value => iff_of_false (Option.some_ne_none _) not_false
  have helements := h.elements.forall_undo_eq_iff _ hkept
  refine ⟨_, by rw [TransactionState.rollback, hi]; rfl, ?_⟩
  constructor
  · intro hrestored
    refine ⟨hfields.1 fun l hl => hrestored.fields l (Bool.eq_false_iff.2 hl),
      helements.1 fun l _ => hrestored.elements l⟩
  · intro hexact
    exact ⟨fun l hl => hfields.2 hexact.fields l (Bool.eq_false_iff.1 hl),
      fun l => helements.2 hexact.elements l not_false, hstrong, hweak⟩

/-- Each sequence of operations and the rollback after it succeed, and the rollback restores the heap and
    the interned strings if and only if each operation was faithful. -/
theorem rollback_restores_iff (hbegins : Begins content s) (ops : List (Operation layout σ)) :
    ∃ t s', s.run content ops = some t ∧ t.rollback content = some s' ∧
      (Restored s s' ↔ AllFaithful content s ops) := by
  obtain ⟨t, ht, hlogged, hexact⟩ := hbegins.logged.run ops
  obtain ⟨s', hs', hrestored⟩ := hlogged.rollback
  refine ⟨t, s', ht, hs', ?_⟩
  rw [hrestored, hexact]
  exact and_iff_right hbegins.exact

end TransactionState

/-- Objects with fields of 64 bits, and arrays of floating-point numbers. -/
def wideLayout : HeapLayout := ⟨fun _ => .bits64, fun _ => false, fun _ => .float, false, fun _ _ => 0⟩

/-- All fields are `5`, all elements are `1.5`, and no string is interned. -/
def wideState : TransactionState wideLayout ℕ :=
  ⟨fun _ => 5#64, [], fun _ => 0x3FC00000#32, [], ⟨⟨[], []⟩, ⟨[], []⟩, []⟩⟩

theorem TransactionState.rollback_restores_iff_oneStore : ∃ t s',
    wideState.run id [.setField (1, 16) false 7#64, .intern 3 true] = some t ∧ t.rollback id = some s' ∧
      (Restored wideState s' ↔ AllFaithful id wideState [.setField (1, 16) false 7#64, .intern 3 true]) :=
  rollback_restores_iff (s := wideState) ⟨rfl, rfl, rfl, List.nodup_nil (α := ℕ), List.nodup_nil (α := ℕ)⟩ _

/-- A compare-and-set attempt that fails records the value that it expects, and the rollback stores it. An
    element that is `1.5` becomes `1`. -/
theorem TransactionState.rollback_failedCas :
    (((wideState.run id [.casField (1, 16) rfl 3#64 7#64 false]).bind (rollback id)).map
        fun s => (s.fields (1, 16)).toNat) = some 3 ∧ (wideState.fields (1, 16)).toNat = 5 ∧
      (((wideState.run id [.setElement (2, 0) 0#32]).bind (rollback id)).map
        fun s => (s.elements (2, 0)).toNat) = some 0x3F800000 ∧
      (wideState.elements (2, 0)).toNat = 0x3FC00000 := by
  decide +kernel

end Art
