import Mathlib.Algebra.Order.Ring.Nat

/-!
# Conversions of floating-point numbers

Binary floating-point formats with a sign, an exponent and a fraction, and the conversions between their
numbers and unsigned numbers of 64 bits: the numeric value is truncated in one direction, and rounded to
the nearest number (to even, if there are two) in the other one.
-/

/-- The numbers of bits of a format. -/
structure FloatFormat where
  exponentBits : ℕ
  fractionBits : ℕ

namespace FloatFormat

/-- Single precision. -/
def single : FloatFormat := ⟨8, 23⟩

/-- Double precision. -/
def double : FloatFormat := ⟨11, 52⟩

variable (f : FloatFormat)

def width : ℕ := 1 + f.exponentBits + f.fractionBits

/-- The exponent of the number one. -/
def bias : ℕ := 2 ^ (f.exponentBits - 1) - 1

variable (x : BitVec f.width)

def exponent : ℕ := x.toNat / 2 ^ f.fractionBits % 2 ^ f.exponentBits

def fraction : ℕ := x.toNat % 2 ^ f.fractionBits

/-- The absolute value of a finite number, truncated. -/
def truncatedAbs : ℕ :=
  let significand := if f.exponent x = 0 then f.fraction x else f.fraction x + 2 ^ f.fractionBits
  significand * 2 ^ max (f.exponent x) 1 / 2 ^ (f.bias + f.fractionBits)

/-- The conversion to an unsigned number of 64 bits, unless it is undefined. -/
def toUnsigned : Option (BitVec 64) :=
  if f.exponent x = 2 ^ f.exponentBits - 1 then none
  else if x.msb = true ∧ f.truncatedAbs x ≠ 0 then none
  else if f.truncatedAbs x < 2 ^ 64 then some (BitVec.ofNat 64 (f.truncatedAbs x))
  else none

/-- `n / 2 ^ s`, rounded to the nearest number. -/
def roundHalfEven (n s : ℕ) : ℕ :=
  let q := n / 2 ^ s
  let r := 2 * (n % 2 ^ s)
  if 2 ^ s < r ∨ r = 2 ^ s ∧ q % 2 = 1 then q + 1 else q

/-- The conversion from an unsigned number of 64 bits. A carry out of the fraction goes to the exponent. -/
def ofUnsigned (n : BitVec 64) : BitVec f.width :=
  if n = 0 then 0
  else
    let k := n.toNat.log2
    let significand :=
      if k ≤ f.fractionBits then n.toNat * 2 ^ (f.fractionBits - k)
      else roundHalfEven n.toNat (k - f.fractionBits)
    BitVec.ofNat _ ((k + f.bias) * 2 ^ f.fractionBits + (significand - 2 ^ f.fractionBits))

end FloatFormat
