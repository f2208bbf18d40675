import Mathlib.Algebra.Order.Ring.Nat

/-!
# Modified UTF-8

`GetUtf16FromUtf8` of `libdexfile/dex/utf-inl.h`, and the byte sequences that it decodes. Bytes and UTF-16
code units are natural numbers, and masks and shifts are remainders and quotients.
-/

namespace Art

open List

/-- The byte sequence of a code point: a null character takes two bytes, a supplementary one four. -/
def sequence (c : ℕ) : List ℕ :=
  if c ≠ 0 ∧ c < 0x80 then [c]
  else if c < 0x800 then [0xc0 + c / 2 ^ 6, 0x80 + c % 2 ^ 6]
  else if c < 0x10000 then [0xe0 + c / 2 ^ 12, 0x80 + c / 2 ^ 6 % 2 ^ 6, 0x80 + c % 2 ^ 6]
  else [0xf0 + c / 2 ^ 18, 0x80 + c / 2 ^ 12 % 2 ^ 6, 0x80 + c / 2 ^ 6 % 2 ^ 6, 0x80 + c % 2 ^ 6]

/-- The code units of a code point. -/
def units (c : ℕ) : List ℕ := if c < 0x10000 then [c] else [c / 2 ^ 10 + 0xd7c0, c % 2 ^ 10 + 0xdc00]

/-- `GetUtf16FromUtf8`: the leading code unit and, 16 bits higher, the trailing one, and the rest. -/
def getUtf16FromUtf8 : List ℕ → Option (ℕ × List ℕ)
  | one :: s =>
    if one / 0x80 % 2 = 0 then some (one, s)
    else match s with
    | two :: s =>
      if one / 0x20 % 2 = 0 then some (one % 0x20 * 2 ^ 6 + two % 0x40, s)
      else match s with
      | three :: s =>
        if one / 0x10 % 2 = 0 then
          some (one % 0x10 * 2 ^ 12 + two % 0x40 * 2 ^ 6 + three % 0x40, s)
        else match s with
        | four :: s =>
          let codePoint := one % 0x10 * 2 ^ 18 + two % 0x40 * 2 ^ 12 + three % 0x40 * 2 ^ 6 + four % 0x40
          some ((codePoint / 2 ^ 10 + 0xd7c0) % 2 ^ 16 + (codePoint % 2 ^ 10 + 0xdc00) * 2 ^ 16, s)
        | [] => none
      | [] => none
    | [] => none
  | [] => none

def getLeadingUtf16Char (maybePair : ℕ) : ℕ := maybePair % 2 ^ 16

def getTrailingUtf16Char (maybePair : ℕ) : ℕ := maybePair / 2 ^ 16

/-- The code units of a pair, which has no trailing one if it is a single code unit. -/
def unitsOf (pair : ℕ) : List ℕ := getLeadingUtf16Char pair ::
    if getTrailingUtf16Char pair ≠ 0 then [getTrailingUtf16Char pair] else []

/-- What `GetUtf16FromUtf8` returns for a code point. -/
def pairOf (c : ℕ) : ℕ := if c < 0x10000 then c else c / 2 ^ 10 + 0xd7c0 + (c % 2 ^ 10 + 0xdc00) * 2 ^ 16

variable {c : ℕ} (hc : c < 0x110000)
include hc

/-- The bytes of a code point are decoded, whatever follows. -/
lemma getUtf16FromUtf8_sequence (s : List ℕ) :
    getUtf16FromUtf8 (sequence c ++ s) = some (pairOf c, s) := by
  have hsome : ∀ {m n : ℕ}, m = n → some (m, s) = some (n, s) := congrArg fun n => some (n, s)
  rw [sequence, pairOf]
  split_ifs with h1 h2 h2 h2 h3
  · exact if_pos (by omega)
  · omega
  · exact (if_neg (by omega)).trans ((if_pos (by omega)).trans (hsome (by omega)))
  · omega
  · exact (if_neg (by omega)).trans ((if_neg (by omega)).trans
      ((if_pos (by omega)).trans (hsome (by omega))))
  · exact (if_neg (by omega)).trans ((if_neg (by omega)).trans
      ((if_neg (by omega)).trans (hsome (by omega))))

/-- The code units of the pair of a code point. -/
lemma chars_pairOf :
    getLeadingUtf16Char (pairOf c) = (if c < 0x10000 then c else c / 2 ^ 10 + 0xd7c0) ∧
      getTrailingUtf16Char (pairOf c) = if c < 0x10000 then 0 else c % 2 ^ 10 + 0xdc00 := by
  rw [getLeadingUtf16Char, getTrailingUtf16Char, pairOf]
  split_ifs <;> omega

lemma units_eq : units c = unitsOf (pairOf c) := by
  rw [units, unitsOf, (chars_pairOf hc).1, (chars_pairOf hc).2]
  split_ifs <;> first | rfl | omega

end Art
