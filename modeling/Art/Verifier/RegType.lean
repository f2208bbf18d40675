import Mathlib
import Art.Verifier.ClassJoin

/-!
# Register types

`RegType` of `runtime/verifier/reg_type.h` and `RegType::Merge` of `reg_type.cc`. The entries of a
`RegTypeCache` are unique, so types are equal when they are described by equal data: the cache
looks up constants by value, references by class, and merged types by their parts. Types of
uninitialized and of unresolved references are known by their id in the cache.
-/

namespace Art

/-- The primitive types of registers. -/
inductive PrimitiveRegType
  | boolean | byte | char | short | integer | float | longLo | longHi | doubleLo | doubleHi
  deriving DecidableEq

inductive RegType (N : Type)
  | undefined
  | conflict
  | prim (p : PrimitiveRegType)
  /-- `PreciseConstType` or `ImpreciseConstType`. -/
  | const (value : BitVec 32) (precise : Bool)
  | constLo (value : BitVec 32) (precise : Bool)
  | constHi (value : BitVec 32) (precise : Bool)
  | null
  /-- The four types of references whose constructor was not called. -/
  | uninitialized (id : ℕ)
  /-- `PreciseReferenceType` or `ReferenceType`. -/
  | ref (c : Class N) (precise : Bool)
  /-- `UnresolvedReferenceType` or `UnresolvedSuperClass`. -/
  | unresolved (id : ℕ)
  /-- `UnresolvedMergedType`: the resolved part, which is missing if it is zero, and the ids of the
      unresolved types. -/
  | merged (resolved : Option (Class N × Bool)) (types : Finset ℕ)
  deriving DecidableEq

/-- What a `RegTypeCache` knows: the classes, and the descriptors of unresolved types. -/
structure RegTypeCache (N : Type) where
  hierarchy : Hierarchy N
  /-- The descriptor of an unresolved type starts with `[`. -/
  unresolvedIsArray : ℕ → Bool

namespace RegType

variable {N : Type}

/-! ## Kinds of types -/

def zero : RegType N := const 0 true

def byteConstant : RegType N := const (-128) false

def shortConstant : RegType N := const (-32768) false

def intConstant : RegType N := const 0x7fffffff false

/-- The resolved part of a merged type. -/
def ofResolved : Option (Class N × Bool) → RegType N
  | none => zero
  | some (c, precise) => ref c precise

def isConstantTypes : RegType N → Bool
  | const _ _ | constLo _ _ | constHi _ _ | null => true
  | _ => false

def isConstantBoolean : RegType N → Bool
  | const v _ => decide (0 ≤ v.toInt ∧ v.toInt ≤ 1)
  | _ => false

def isConstantChar : RegType N → Bool
  | const v _ => decide (0 ≤ v.toInt ∧ v.toInt ≤ 65535)
  | _ => false

def isConstantByte : RegType N → Bool
  | const v _ => decide (-128 ≤ v.toInt ∧ v.toInt ≤ 127)
  | _ => false

def isConstantShort : RegType N → Bool
  | const v _ => decide (-32768 ≤ v.toInt ∧ v.toInt ≤ 32767)
  | _ => false

def isZero : RegType N → Bool
  | const v precise => precise && decide (v = 0)
  | _ => false

def isZeroOrNull : RegType N → Bool
  | null => true
  | t => t.isZero

def isNonZeroReferenceTypes : RegType N → Bool
  | uninitialized _ | ref _ _ | unresolved _ | merged _ _ => true
  | _ => false

def isReferenceTypes (t : RegType N) : Bool := t.isNonZeroReferenceTypes || t.isZeroOrNull

def isUninitializedTypes : RegType N → Bool
  | uninitialized _ => true
  | _ => false

/-- `IsUnresolvedTypes()`, for types that are initialized. -/
def isUnresolvedTypes : RegType N → Bool
  | unresolved _ | merged _ _ => true
  | _ => false

def isBooleanTypes : RegType N → Bool
  | prim .boolean => true
  | t => t.isConstantBoolean

def isByteTypes : RegType N → Bool
  | prim .byte | prim .boolean => true
  | t => t.isConstantByte

def isShortTypes : RegType N → Bool
  | prim .short | prim .byte | prim .boolean => true
  | t => t.isConstantShort

def isCharTypes : RegType N → Bool
  | prim .char => true
  | t => t.isBooleanTypes || t.isConstantChar

def isIntegralTypes : RegType N → Bool
  | prim .integer | prim .byte | prim .short | prim .char | prim .boolean | const _ _ => true
  | _ => false

def isFloatTypes : RegType N → Bool
  | prim .float | const _ _ => true
  | _ => false

def isLongTypes : RegType N → Bool
  | prim .longLo | constLo _ _ => true
  | _ => false

def isLongHighTypes : RegType N → Bool
  | prim .longHi | constHi _ _ => true
  | _ => false

def isDoubleTypes : RegType N → Bool
  | prim .doubleLo | constLo _ _ => true
  | _ => false

def isDoubleHighTypes : RegType N → Bool
  | prim .doubleHi | constHi _ _ => true
  | _ => false

/-! ## Constants -/

/-- The merge of two constants with value `v` and `w`: with equal signs the one further from zero, and
    else the smallest signed type in which both fit. -/
def mergeConst (v : BitVec 32) (precise : Bool) (w : BitVec 32) (precise' : Bool) : RegType N :=
  if 0 ≤ v.toInt ∧ 0 ≤ w.toInt then
    if v.toInt ≥ w.toInt then const v false else const w false
  else if v.toInt < 0 ∧ w.toInt < 0 then
    if v.toInt ≤ w.toInt then const v false else const w false
  else if (const v precise : RegType N).isConstantByte then
    if (const w precise' : RegType N).isConstantByte then byteConstant
    else if (const w precise' : RegType N).isConstantShort then shortConstant
    else intConstant
  else if (const v precise : RegType N).isConstantShort then
    if (const w precise' : RegType N).isConstantShort then shortConstant else intConstant
  else intConstant

variable (a b : RegType N)

/-- The merge of two integral types. -/
def mergeIntegral : RegType N :=
  if a.isBooleanTypes && b.isBooleanTypes then prim .boolean
  else if a.isByteTypes && b.isByteTypes then prim .byte
  else if a.isShortTypes && b.isShortTypes then prim .short
  else if a.isCharTypes && b.isCharTypes then prim .char
  else prim .integer

def selectNonConstant : RegType N := if a.isConstantTypes then b else a

def selectNonConstant2 : RegType N :=
  if a.isConstantTypes then if b.isZero then a else b else a

/-! ## References -/

variable [DecidableEq N] (cache : RegTypeCache N)

def isJavaLangObject : RegType N → Bool
  | ref c precise => !precise && c.isObjectClass cache.hierarchy
  | _ => false

def javaLangObject : RegType N := ref (.named cache.hierarchy.object) false

def isArrayTypes : RegType N → Bool
  | ref c _ => c.isArrayClass
  | unresolved id => cache.unresolvedIsArray id
  | merged resolved types =>
    (match resolved with
      | none => true
      | some (c, _) => c.isArrayClass) &&
    -- the type of the highest bit set
    cache.unresolvedIsArray (types.sup id)
  | _ => false

/-- `IsObjectArrayTypes()`, for resolved types. -/
def isObjectArrayTypes : RegType N → Bool
  | ref (.array component) _ => !component.isPrimitive
  | _ => false

variable (foundPrecise : Class N → Bool)

/-- `FromClass(descriptor, klass, false)`. A precise entry of a class that cannot be assigned from other
    types is found as well, if it was added first. -/
def fromClass (c : Class N) : RegType N :=
  ref c (c.cannotBeAssignedFromOtherTypes cache.hierarchy && foundPrecise c)

/-- The merge of two resolved references. -/
def mergeRef (c : Class N) (precise : Bool) (d : Class N) (precise' : Bool) : Option (RegType N) :=
  (Class.classJoin cache.hierarchy c d).map fun joinClass =>
    if c = joinClass ∧ precise = false then ref c precise
    else if d = joinClass ∧ precise' = false then ref d precise'
    else fromClass cache foundPrecise joinClass

/-- `Merge` of two types that are initialized references or zero, for which unresolved types are merged
    by `fromUnresolvedMerge`. -/
def mergeReference (fromUnresolvedMerge : RegType N → RegType N → Option (RegType N)) (a b : RegType N) :
    Option (RegType N) :=
  if a.isZeroOrNull || b.isZeroOrNull then some (selectNonConstant2 a b)
  else if a.isJavaLangObject cache || b.isJavaLangObject cache then some (javaLangObject cache)
  else if a.isUnresolvedTypes || b.isUnresolvedTypes then fromUnresolvedMerge a b
  else match a, b with
    | ref c precise, ref d precise' => mergeRef cache foundPrecise c precise d precise'
    | _, _ => none

/-- The unresolved types of a type, its resolved part, and whether it is an unresolved array. -/
def parts : RegType N → Finset ℕ × RegType N × Bool
  | merged resolved types => (types, ofResolved resolved, isArrayTypes cache (merged resolved types))
  | unresolved id => ({id}, zero, cache.unresolvedIsArray id)
  | t => (∅, t, false)

variable (left right : RegType N)

/-- The result of `FromUnresolvedMerge` for the merge of the resolved parts: arrays are merged with arrays
    of objects only. -/
def fromMergedParts (leftUnresolvedIsArray rightUnresolvedIsArray : Bool)
    (types : Finset ℕ) (resolvedPartsMerged : RegType N) : RegType N :=
  let resolvedMergedIsArray := isArrayTypes cache resolvedPartsMerged
  if resolvedPartsMerged.isJavaLangObject cache then resolvedPartsMerged
  else if (leftUnresolvedIsArray || rightUnresolvedIsArray || resolvedMergedIsArray) &&
      ((resolvedMergedIsArray && !resolvedPartsMerged.isObjectArrayTypes) ||
        (!leftUnresolvedIsArray && left.isUnresolvedTypes) ||
        (!rightUnresolvedIsArray && right.isUnresolvedTypes) || !resolvedMergedIsArray) then
    javaLangObject cache
  else match resolvedPartsMerged with
    | ref c precise => merged (some (c, precise)) types
    | _ => merged none types

def fromUnresolvedMerge : Option (RegType N) :=
  let (leftTypes, leftResolved, leftUnresolvedIsArray) := parts cache left
  let (rightTypes, rightResolved, rightUnresolvedIsArray) := parts cache right
  -- `SafeMerge`; resolved parts have no unresolved ones
  let resolvedPartsMerged :=
    if leftResolved = rightResolved then some leftResolved
    else mergeReference cache foundPrecise (fun _ _ => none) leftResolved rightResolved
  resolvedPartsMerged.map (fromMergedParts cache left right leftUnresolvedIsArray
    rightUnresolvedIsArray (leftTypes ∪ rightTypes))

/-- `Merge(incoming_type)`, for different types; `none` if a class join fails. -/
def merge (a b : RegType N) : Option (RegType N) :=
  if a = undefined ∨ b = undefined then some undefined
  else if a = conflict ∨ b = conflict then some conflict
  else match a, b with
    | const v precise, const w precise' => some (mergeConst v precise w precise')
    | constLo v _, constLo w _ => some (constLo (v ||| w) false)
    | constHi v _, constHi w _ => some (constHi (v ||| w) false)
    | a, b =>
      if a.isIntegralTypes && b.isIntegralTypes then some (mergeIntegral a b)
      else if (a.isFloatTypes && b.isFloatTypes) || (a.isLongTypes && b.isLongTypes) ||
          (a.isLongHighTypes && b.isLongHighTypes) || (a.isDoubleTypes && b.isDoubleTypes) ||
          (a.isDoubleHighTypes && b.isDoubleHighTypes) then
        some (selectNonConstant a b)
      else if a.isReferenceTypes && b.isReferenceTypes then
        if a.isUninitializedTypes || b.isUninitializedTypes then some conflict
        else mergeReference cache foundPrecise (fromUnresolvedMerge cache foundPrecise) a b
      else some conflict

/-- `SafeMerge(incoming_type)`, as the verifier merges registers: equal types are left as they are. -/
def safeMerge (a b : RegType N) : Option (RegType N) :=
  if a = b then some a else merge cache foundPrecise a b

end RegType
end Art
