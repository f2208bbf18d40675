import Art.Utf.ModifiedUtf8

/-!
# Verifying string data

`DexFileVerifier::CheckIntraStringDataItem` of `libdexfile/dex/dex_file_verifier.cc`, on the bytes from the
item to the end of the file. A check that fails and a read behind the end are both `none`.
-/

namespace Art

open List

/-- The bytes of an unsigned LEB128 value, of which the last one of five is not checked. -/
def leb128Bytes : ℕ → List ℕ → Option (ℕ × List ℕ)
  | _, [] => none
  | 0, cur :: s => some (cur % 2 ^ 4, s)
  | n + 1, cur :: s =>
    if cur > 0x7f then (leb128Bytes n s).map fun r => (cur % 2 ^ 7 + 2 ^ 7 * r.1, r.2) else some (cur, s)

/-- `DecodeUnsignedLeb128Checked`: the value, and the bytes behind it. -/
def decodeUnsignedLeb128Checked (s : List ℕ) : Option (ℕ × List ℕ) := leb128Bytes 4 s

/-- A round of the loop of `CheckIntraStringDataItem`, with a switch on the high four bits. -/
def checkChar : List ℕ → Option (List ℕ)
  | [] => none
  | byte :: s =>
    if byte / 2 ^ 4 < 8 then if byte = 0 then none else some s
    else if byte / 2 ^ 4 ∈ [0xc, 0xd] then
      match s with
      | byte2 :: s =>
        let value := byte % 2 ^ 5 * 2 ^ 6 + byte2 % 2 ^ 6
        if byte2 / 2 ^ 6 ≠ 2 ∨ value ≠ 0 ∧ value < 0x80 then none else some s
      | [] => none
    else if byte / 2 ^ 4 = 0xe then
      match s with
      | byte2 :: byte3 :: s =>
        let value := byte % 2 ^ 4 * 2 ^ 12 + byte2 % 2 ^ 6 * 2 ^ 6 + byte3 % 2 ^ 6
        if byte2 / 2 ^ 6 ≠ 2 ∨ byte3 / 2 ^ 6 ≠ 2 ∨ value < 0x800 then none else some s
      | _ => none
    else none

/-- The loop of `CheckIntraStringDataItem`. -/
def checkChars : ℕ → List ℕ → Option (List ℕ)
  | 0, s => some s
  | n + 1, s => (checkChar s).bind (checkChars n)

/-- `CheckIntraStringDataItem`: the bytes behind the item. -/
def checkIntraStringDataItem (s : List ℕ) : Option (List ℕ) := do
  let (size, s) ← decodeUnsignedLeb128Checked s
  match ← checkChars size s with
  | 0 :: s => some s
  | _ => none

/-- Code units that `GetUtf16FromUtf8` gives in a number of steps, and the rest. -/
def decodeUnits : ℕ → List ℕ → Option (List ℕ × List ℕ)
  | 0, s => some ([], s)
  | n + 1, s => do
    let (pair, s) ← getUtf16FromUtf8 s
    let (l, s) ← decodeUnits n s
    return (unitsOf pair ++ l, s)

variable {s rest : List ℕ}

/-- A round of the loop accepts the byte sequence of a code unit. -/
lemma checkChar_iff : checkChar s = some rest ↔ ∃ c < 0x10000, s = sequence c ++ rest := by
  constructor
  · intro h
    rcases s with _ | ⟨a, s⟩
    · cases h
    rw [checkChar.eq_def] at h
    dsimp only at h
    split_ifs at h with h1 h2 h3 h4
    · cases h
      exact ⟨a, by omega, by rw [sequence, if_pos ⟨h2, by omega⟩]; rfl⟩
    · rcases s with _ | ⟨b, s⟩
      · cases h
      dsimp only at h
      split_ifs at h with hb
      cases h
      simp only [mem_cons, not_mem_nil, or_false] at h3
      refine ⟨a % 2 ^ 5 * 2 ^ 6 + b % 2 ^ 6, by omega, ?_⟩
      rw [sequence, if_neg (by omega), if_pos (by omega)]
      simp only [cons_append, nil_append, cons.injEq, and_true]
      omega
    · rcases s with _ | ⟨b, _ | ⟨d, s⟩⟩
      · cases h
      · cases h
      dsimp only at h
      split_ifs at h with hb
      cases h
      refine ⟨a % 2 ^ 4 * 2 ^ 12 + b % 2 ^ 6 * 2 ^ 6 + d % 2 ^ 6, by omega, ?_⟩
      rw [sequence, if_neg (by omega), if_neg (by omega), if_pos (by omega)]
      simp only [cons_append, nil_append, cons.injEq, and_true]
      omega
  · rintro ⟨c, hc, rfl⟩
    rw [sequence]
    split_ifs with h1 h2
    · exact (if_pos (by omega)).trans (if_neg h1.1)
    · refine (if_neg (by omega)).trans ((if_pos ?_).trans (if_neg (by omega)))
      simp only [mem_cons, not_mem_nil, or_false]
      omega
    · refine (if_neg (by omega)).trans ((if_neg ?_).trans ((if_pos (by omega)).trans (if_neg (by omega))))
      simp only [mem_cons, not_mem_nil, or_false]
      omega

lemma checkChars_iff {n : ℕ} : checkChars n s = some rest ↔
    ∃ l : List ℕ, l.length = n ∧ (∀ c ∈ l, c < 0x10000) ∧ s = l.flatMap sequence ++ rest := by
  induction n generalizing s with
  | zero =>
    constructor
    · intro h
      cases h
      exact ⟨[], rfl, by simp, rfl⟩
    · rintro ⟨l, hlen, -, rfl⟩
      rw [length_eq_zero_iff.1 hlen]
      rfl
  | succ n ih =>
    simp only [checkChars, Option.bind_eq_some_iff, checkChar_iff, ih]
    constructor
    · rintro ⟨_, ⟨c, hc, rfl⟩, l, rfl, hl, rfl⟩
      exact ⟨c :: l, rfl, forall_mem_cons.2 ⟨hc, hl⟩, by simp⟩
    · rintro ⟨_ | ⟨c, l⟩, hlen, hl, rfl⟩
      · cases hlen
      · obtain ⟨hc, hl⟩ := forall_mem_cons.1 hl
        exact ⟨_, ⟨c, hc, by simp⟩, l, Nat.succ.inj hlen, hl, rfl⟩

/-- Each byte sequence of a code unit is decoded in a step. -/
lemma decodeUnits_flatMap {l : List ℕ} (hl : ∀ c ∈ l, c < 0x10000) (s : List ℕ) :
    decodeUnits l.length (l.flatMap sequence ++ s) = some (l, s) := by
  induction l with
  | nil => rfl
  | cons c l ih =>
    obtain ⟨hc, hl⟩ := forall_mem_cons.1 hl
    have hlt : c < 0x110000 := by omega
    rw [flatMap_cons, append_assoc, length_cons, decodeUnits, getUtf16FromUtf8_sequence hlt]
    dsimp only [Option.bind_eq_bind, Option.bind_some]
    rw [ih hl, ← units_eq hlt, units, if_pos hc]
    rfl

lemma zero_notMem_sequence (c : ℕ) : 0 ∉ sequence c := by
  rw [sequence]
  split_ifs <;> simp <;> omega

/-- String data are accepted if and only if they are a count, as many byte sequences and a null character.
    Then they are decoded to as many code units, and have no other byte that is zero. -/
theorem checkIntraStringDataItem_iff (s rest : List ℕ) : checkIntraStringDataItem s = some rest ↔
      ∃ l, decodeUnsignedLeb128Checked s = some (l.length, l.flatMap sequence ++ 0 :: rest) ∧
        (∀ c ∈ l, c < 0x10000) ∧
        decodeUnits l.length (l.flatMap sequence ++ 0 :: rest) = some (l, 0 :: rest) ∧
        0 ∉ l.flatMap sequence := by
  rw [checkIntraStringDataItem]
  simp only [Option.bind_eq_bind, Option.bind_eq_some_iff, Prod.exists]
  constructor
  · rintro ⟨n, data, hleb, t, hchars, ht⟩
    obtain ⟨l, rfl, hl, rfl⟩ := checkChars_iff.1 hchars
    split at ht
    · cases ht
      refine ⟨l, hleb, hl, decodeUnits_flatMap hl _, fun h => ?_⟩
      obtain ⟨c, -, hc⟩ := mem_flatMap.1 h
      exact zero_notMem_sequence c hc
    · cases ht
  · rintro ⟨l, hleb, hl, -⟩
    exact ⟨_, _, hleb, _, checkChars_iff.2 ⟨l, rfl, hl, rfl⟩, rfl⟩

end Art
