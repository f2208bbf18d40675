import Mathlib.Algebra.Order.Ring.Int

/-!
# Locations and parallel moves

`Location` of `compiler/optimizing/locations.h` and `MoveOperands` of `nodes.h`, for the
locations that a parallel move has, and what a move and a swap of two locations do to the
words of a machine.
-/

namespace Art

/-! ## Locations -/

/-- `Location`. A constant is known by a number instead of the address of its instruction. -/
inductive Location
  | invalid
  | constant (id : ℕ)
  | stackSlot (index : ℤ)
  | doubleStackSlot (index : ℤ)
  | simdStackSlot (index : ℤ)
  | register (reg : ℕ)
  | fpuRegister (reg : ℕ)
  | registerPair (low high : ℕ)
  | fpuRegisterPair (low high : ℕ)
  deriving DecidableEq

namespace Location

inductive Kind
  | invalid
  | constant
  | stackSlot
  | doubleStackSlot
  | simdStackSlot
  | register
  | fpuRegister
  | registerPair
  | fpuRegisterPair
  deriving DecidableEq

def kind : Location → Kind
  | invalid => .invalid
  | constant _ => .constant
  | stackSlot _ => .stackSlot
  | doubleStackSlot _ => .doubleStackSlot
  | simdStackSlot _ => .simdStackSlot
  | register _ => .register
  | fpuRegister _ => .fpuRegister
  | registerPair _ _ => .registerPair
  | fpuRegisterPair _ _ => .fpuRegisterPair

def isConstant : Location → Bool
  | constant _ => true
  | _ => false

/-- `IsPair() || IsDoubleStackSlot()`. -/
def isTwoWord : Location → Bool
  | registerPair _ _ | fpuRegisterPair _ _ | doubleStackSlot _ => true
  | _ => false

/-- `ToLow()`, and `LowOf(location)`. -/
def lowOf : Location → Location
  | registerPair low _ => register low
  | fpuRegisterPair low _ => fpuRegister low
  | doubleStackSlot index => stackSlot index
  | _ => invalid

/-- `ToHigh()`, and `HighOf(location)`. -/
def highOf : Location → Location
  | registerPair _ high => register high
  | fpuRegisterPair _ high => fpuRegister high
  | doubleStackSlot index => stackSlot (index + 4)
  | _ => invalid

variable (loc other : Location)

def contains : Bool := loc = other || (loc.isTwoWord && (loc.lowOf = other || loc.highOf = other))

def overlapsWith : Bool := loc.contains other || other.contains loc

lemma overlapsWith_comm : loc.overlapsWith other = other.overlapsWith loc := Bool.or_comm ..

@[simp] lemma overlapsWith_self (loc : Location) : loc.overlapsWith loc = true := by
  simp [overlapsWith, contains]

/-- A constant overlaps with itself only. -/
lemma overlapsWith_of_isConstant {loc other : Location} (h : loc.isConstant = true)
    (hother : other.isConstant = false) : loc.overlapsWith other = false := by
  cases loc <;> cases other <;>
    simp_all [isConstant, overlapsWith, contains, isTwoWord, lowOf, highOf]

lemma overlapsWith_invalid {loc : Location} (h : loc ≠ .invalid) : invalid.overlapsWith loc = false := by
  cases loc <;> simp_all [overlapsWith, contains, isTwoWord, lowOf, highOf]

end Location

/-! ## Moves -/

/-- `MoveOperands`. Of the type, only its size matters. -/
structure MoveOperands where
  source : Location
  destination : Location
  is64BitMove : Bool
  deriving DecidableEq

namespace MoveOperands

variable (m : MoveOperands)

def isEliminated : Bool := m.source = .invalid

/-- `IsPending()`: the destination is cleared. -/
def isPending : Bool := m.destination = .invalid && m.source ≠ .invalid

def blocks (loc : Location) : Bool := !m.isEliminated && m.source.overlapsWith loc

def isRedundant : Bool := m.isEliminated || m.destination = .invalid || m.source = m.destination

def eliminate : MoveOperands := { m with source := .invalid, destination := .invalid }

def setSource (value : Location) : MoveOperands := { m with source := value }

/-- `SetDestination(value)`, which is also how a move is marked as pending and restored. -/
def setDestination (value : Location) : MoveOperands := { m with destination := value }

/-- The move is still to be done, and not in progress. -/
def isActive : Bool := !m.isEliminated && !m.isPending

end MoveOperands

/-! ## Words -/

/-- A word of the machine: a register or a slot of the stack. -/
inductive Word
  | register (reg : ℕ)
  | fpuRegister (reg : ℕ)
  | slot (index : ℤ)
  deriving DecidableEq

namespace Location

/-- The words of a location, the low one first. -/
def words : Location → List Word
  | stackSlot index => [.slot index]
  | doubleStackSlot index => [.slot index, .slot (index + 4)]
  | simdStackSlot index => [.slot index, .slot (index + 4), .slot (index + 8), .slot (index + 12)]
  | register reg => [.register reg]
  | fpuRegister reg => [.fpuRegister reg]
  | registerPair low high => [.register low, .register high]
  | fpuRegisterPair low high => [.fpuRegister low, .fpuRegister high]
  | invalid | constant _ => []

end Location

/-- The values of the words. -/
abbrev Memory (V : Type) : Type := Word → V

namespace Memory

variable {V : Type}

/-- The words are assigned the values. -/
def assign (σ : Memory V) : List Word → List V → Memory V
  | w :: ws, v :: vs => Function.update (assign σ ws vs) w v
  | _, _ => σ

variable (consts : ℕ → List V) (σ : Memory V)

/-- The value of a location. -/
def read : Location → List V
  | .constant id => consts id
  | loc => loc.words.map σ

/-- The effect of `EmitMove` for the given operands. -/
def move (source destination : Location) : Memory V := σ.assign destination.words (σ.read consts source)

end Memory

end Art
