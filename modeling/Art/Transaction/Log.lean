import Art.Lib.FloatFormat
import Art.Lib.UndoLog
import Art.Transaction.InternTable

/-!
# Transactions

The stores of `runtime/mirror/object-inl.h` and `runtime/mirror/array-inl.h` in transaction mode, the logs of
`runtime/transaction.cc`, and `Transaction::Rollback`. The heap is given by the bit patterns of its fields and
of the elements of its primitive arrays.

* `rollback`: all logs are undone.
-/

namespace Art

/-- `ObjectLog::FieldValueKind`, which is also the kind of a field. -/
inductive FieldValueKind
  | boolean
  | byte
  | char
  | short
  | bits32
  | bits64
  | reference

/-- The number of bits of a field. -/
def FieldValueKind.width : FieldValueKind → ℕ
  | boolean => 8
  | byte => 8
  | char => 16
  | short => 16
  | bits32 => 32
  | bits64 => 64
  | reference => 32

/-- `Primitive::Type`, as far as arrays have it. -/
inductive ComponentType
  | boolean
  | byte
  | char
  | short
  | int
  | float
  | long
  | double

/-- The number of bits of an element. -/
def ComponentType.width : ComponentType → ℕ
  | boolean => 8
  | byte => 8
  | char => 16
  | short => 16
  | int => 32
  | float => FloatFormat.single.width
  | long => 64
  | double => FloatFormat.double.width

/-- What does not change in a transaction, in which no object is moved. A field is given by its object and
    its offset, an element by its array and its index. -/
structure HeapLayout where
  fieldKind : ℕ × ℕ → FieldValueKind
  isArrayInstance : ℕ → Bool
  componentType : ℕ → ComponentType
  poisonHeapReferences : Bool
  /-- What an undefined conversion of a floating-point number to `uint64_t` gives. -/
  undefinedConversion : (type : ComponentType) → BitVec type.width → BitVec 64

structure FieldValue where
  value : BitVec 64
  kind : FieldValueKind
  isVolatile : Bool

variable (layout : HeapLayout)

/-! ## Fields -/

namespace HeapLayout

def compress (pointer : BitVec 64) : BitVec 32 :=
  if layout.poisonHeapReferences then -pointer.setWidth 32 else pointer.setWidth 32

def decompress (ref : BitVec 32) : BitVec 64 :=
  (if layout.poisonHeapReferences then -ref else ref).setWidth 64

/-- The value of a field as `RecordWriteField*` widens it. -/
def recordedValue : (kind : FieldValueKind) → BitVec kind.width → BitVec 64
  | .boolean, value => value.setWidth 64
  | .byte, value => value.signExtend 64
  | .char, value => value.setWidth 64
  | .short, value => value.setWidth 64
  | .bits32, value => value.setWidth 64
  | .bits64, value => value
  | .reference, value => layout.decompress value

/-- The kind of the record that a store makes: `SetFieldShort` calls `RecordWriteFieldChar`. -/
def recordedKind : FieldValueKind → FieldValueKind
  | .short => .char
  | kind => kind

/-- The value that `UndoFieldWrite` stores. -/
def undoneValue (fieldValue : FieldValue) : BitVec fieldValue.kind.width :=
  match fieldValue.kind with
  | .boolean => fieldValue.value.setWidth 8
  | .byte => fieldValue.value.setWidth 8
  | .char => fieldValue.value.setWidth 16
  | .short => fieldValue.value.setWidth 16
  | .bits32 => fieldValue.value.setWidth 32
  | .bits64 => fieldValue.value
  | .reference => layout.compress fieldValue.value

variable (l : ℕ × ℕ)

/-- The class field and the length of an array are not rolled back. -/
def skipped : Bool := decide (l.2 = 0) || layout.isArrayInstance l.1 && decide (l.2 = 8)

/-- `ObjectLog::Undo`, for one field. -/
def restoreField (fieldValue : FieldValue) : Option (BitVec (layout.fieldKind l).width) :=
  if layout.skipped l then none
  else some ((layout.undoneValue fieldValue).setWidth (layout.fieldKind l).width)

/-! ## Elements -/

/-- The element as it is passed to `RecordWriteArray`. -/
def recordedElement : (type : ComponentType) → BitVec type.width → BitVec 64
  | .boolean, value => value.setWidth 64
  | .byte, value => value.signExtend 64
  | .char, value => value.setWidth 64
  | .short, value => value.signExtend 64
  | .int, value => value.signExtend 64
  | .float, value => (FloatFormat.single.toUnsigned value).getD (layout.undefinedConversion .float value)
  | .long, value => value
  | .double, value =>
    (FloatFormat.double.toUnsigned value).getD (layout.undefinedConversion .double value)

/-- The value that `UndoArrayWrite` stores. -/
def undoneElement : (type : ComponentType) → BitVec 64 → BitVec type.width
  | .boolean, value => value.setWidth 8
  | .byte, value => value.setWidth 8
  | .char, value => value.setWidth 16
  | .short, value => value.setWidth 16
  | .int, value => value.setWidth 32
  | .float, value => FloatFormat.single.ofUnsigned value
  | .long, value => value
  | .double, value => FloatFormat.double.ofUnsigned value

/-- `ArrayLog::Undo`, for one element. -/
def restoreElement (value : BitVec 64) : Option (BitVec (layout.componentType l.1).width) :=
  some (undoneElement (layout.componentType l.1) value)

end HeapLayout

/-! ## The state and its steps -/

/-- The heap, the interned strings, and the logs of the transaction. -/
structure TransactionState (layout : HeapLayout) (σ : Type) where
  fields : (l : ℕ × ℕ) → BitVec (layout.fieldKind l).width
  objectLogs : List ((ℕ × ℕ) × FieldValue)
  elements : (l : ℕ × ℕ) → BitVec (layout.componentType l.1).width
  arrayLogs : List ((ℕ × ℕ) × BitVec 64)
  internTable : InternTable σ

/-- The fields with compare-and-set operations. -/
def FieldValueKind.hasCas : FieldValueKind → Bool
  | bits32 => true
  | bits64 => true
  | reference => true
  | _ => false

/-- What is done in a transaction. Values of references are those of the heap. -/
inductive Operation (layout : HeapLayout) (σ : Type)
  /-- `SetFieldBoolean`, …, `SetFieldObject`. -/
  | setField (l : ℕ × ℕ) (isVolatile : Bool) (newValue : BitVec (layout.fieldKind l).width)
  /-- `CasField32`, `CasFieldStrongSequentiallyConsistent64`, `CasFieldObject`; a weak one may fail. -/
  | casField (l : ℕ × ℕ) (hasCas : (layout.fieldKind l).hasCas = true)
    (oldValue newValue : BitVec (layout.fieldKind l).width) (weakFailure : Bool)
  | compareAndExchangeFieldObject (l : ℕ × ℕ) (isReference : layout.fieldKind l = .reference)
    (oldValue newValue : BitVec (layout.fieldKind l).width)
  | exchangeFieldObject (l : ℕ × ℕ) (isReference : layout.fieldKind l = .reference)
    (newValue : BitVec (layout.fieldKind l).width)
  /-- `PrimitiveArray::SetWithoutChecks`. -/
  | setElement (l : ℕ × ℕ) (value : BitVec (layout.componentType l.1).width)
  /-- `InternStrong` or `InternWeak`. -/
  | intern (s : σ) (isStrong : Bool)

variable {layout} {σ γ : Type}

namespace TransactionState

variable (s : TransactionState layout σ) (l : ℕ × ℕ) (value : BitVec (layout.fieldKind l).width)

/-- `RecordWriteField*`: `LogValue` keeps the record that is there. -/
def recordWriteField (isVolatile : Bool) : TransactionState layout σ :=
  { s with
    objectLogs := UndoLog.record s.objectLogs l
      ⟨layout.recordedValue _ value, HeapLayout.recordedKind (layout.fieldKind l), isVolatile⟩ }

/-- The store of a field. -/
def storeField : TransactionState layout σ :=
  { s with fields := Function.update s.fields l value }

def recordWriteArray (value : BitVec (layout.componentType l.1).width) : TransactionState layout σ :=
  { s with
    arrayLogs := UndoLog.record s.arrayLogs l (layout.recordedElement _ value) }

variable [DecidableEq γ] (content : σ → γ)

/-- One operation. A compare-and-set attempt records the value that it expects, before it compares. -/
def step (s : TransactionState layout σ) : Operation layout σ → Option (TransactionState layout σ)
  | .setField l isVolatile newValue =>
    some ((s.recordWriteField l (s.fields l) isVolatile).storeField l newValue)
  | .casField l _ oldValue newValue weakFailure =>
    let s' := s.recordWriteField l oldValue true
    some (if s.fields l = oldValue ∧ weakFailure = false then s'.storeField l newValue else s')
  | .compareAndExchangeFieldObject l _ oldValue newValue =>
    some (if s.fields l = oldValue then
        (s.recordWriteField l (s.fields l) true).storeField l newValue
      else s)
  | .exchangeFieldObject l _ newValue =>
    some ((s.recordWriteField l (s.fields l) true).storeField l newValue)
  | .setElement l value =>
    some { s.recordWriteArray l (s.elements l) with
      elements := Function.update s.elements l value }
  | .intern str isStrong =>
    (s.internTable.intern content str isStrong).map fun i => { s with internTable := i }

/-- A sequence of operations. -/
def run (s : TransactionState layout σ) (ops : List (Operation layout σ)) :
    Option (TransactionState layout σ) :=
  ops.foldlM (step content) s

def rollback (s : TransactionState layout σ) : Option (TransactionState layout σ) := do
  let internTable ← s.internTable.undoAll content
  return {
    fields := UndoLog.undo layout.restoreField s.fields s.objectLogs
    objectLogs := []
    elements := UndoLog.undo layout.restoreElement s.elements s.arrayLogs
    arrayLogs := []
    internTable := internTable }

end TransactionState

end Art
