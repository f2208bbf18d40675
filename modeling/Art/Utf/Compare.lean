import Mathlib.Data.List.Lex
import Art.Utf.ModifiedUtf8

/-!
# Comparing modified UTF-8

`CompareModifiedUtf8ToModifiedUtf8AsUtf16CodePointValues` of `libdexfile/dex/utf-inl.h` and
`CompareModifiedUtf8ToUtf16AsCodePointValues` of `utf.cc`. The former compares a surrogate pair that one
string has in four bytes with a single code unit of the other.
-/

namespace Art

open List

/-- The order of lists of code units, as the sign of a comparison. -/
def order (u v : List ℕ) : ℤ := if u < v then -1 else if v < u then 1 else 0

/-- A string of code points, with a null character behind it. -/
def text (l : List ℕ) : List ℕ := l.flatMap sequence ++ [0]

def compareModifiedUtf8 : ℕ → List ℕ → List ℕ → Option ℤ
  | 0, _, _ => none
  | fuel + 1, s, t =>
    if s.head? = some 0 then some (if t.head? = some 0 then 0 else -1)
    else if t.head? = some 0 then some 1
    else do
      let (c₁, s) ← getUtf16FromUtf8 s
      let (c₂, t) ← getUtf16FromUtf8 t
      if c₁ = c₂ then compareModifiedUtf8 fuel s t
      else
        let diff : ℤ := getLeadingUtf16Char c₁ - getLeadingUtf16Char c₂
        some (if diff ≠ 0 then diff else getTrailingUtf16Char c₁ - getTrailingUtf16Char c₂)

/-- A comparison of code units that differ. -/
def compareUnits (lhs rhs : ℕ) : ℤ := if lhs > rhs then 1 else -1

def compareModifiedUtf8ToUtf16 : ℕ → List ℕ → List ℕ → Option ℤ
  | 0, _, _ => none
  | fuel + 1, s, utf16 =>
    if s.head? = some 0 then some (if utf16 = [] then 0 else -1)
    else match utf16 with
    | [] => some 1
    | rhs :: utf16 => do
      let (pair, s) ← getUtf16FromUtf8 s
      let lhs := getLeadingUtf16Char pair
      let lhs2 := getTrailingUtf16Char pair
      if lhs ≠ rhs then some (compareUnits lhs rhs)
      else if lhs2 ≠ 0 then
        match utf16 with
        | [] => some 1
        | rhs2 :: utf16 =>
          if lhs2 ≠ rhs2 then some (compareUnits lhs2 rhs2) else compareModifiedUtf8ToUtf16 fuel s utf16
      else compareModifiedUtf8ToUtf16 fuel s utf16

/-- The first difference of two strings is a code point of four bytes, where the other string has its
    leading surrogate. -/
inductive Clashes : List ℕ → List ℕ → Prop
  | here {c d : ℕ} {l m : List ℕ} (hc : 0x10000 ≤ c) (hd : d = c / 2 ^ 10 + 0xd7c0) :
    Clashes (c :: l) (d :: m)
  | there {c : ℕ} {l m : List ℕ} (h : Clashes l m) : Clashes (c :: l) (c :: m)

lemma order_cons (a b : ℕ) (u v : List ℕ) :
    order (a :: u) (b :: v) = if a < b then -1 else if b < a then 1 else order u v := by
  rcases lt_trichotomy a b with h | rfl | h
  · simp [order, cons_lt_cons_iff, h]
  · simp [order]
  · simp [order, cons_lt_cons_iff, h, h.not_gt, h.ne']

lemma order_append (w u v : List ℕ) : order (w ++ u) (w ++ v) = order u v := by
  induction w with
  | nil => rfl
  | cons a w ih => rw [cons_append, cons_append, order_cons, if_neg (lt_irrefl a), if_neg (lt_irrefl a), ih]

lemma head_sequence (c : ℕ) (s : List ℕ) : (sequence c ++ s).head? ≠ some 0 := by
  rw [sequence]
  split_ifs with h <;> simp
  exact h.1

lemma text_cons (c : ℕ) (l : List ℕ) : text (c :: l) = sequence c ++ text l := by
  rw [text, flatMap_cons, append_assoc, text]

lemma sign_compareUnits (a b : ℕ) (u v : List ℕ) (h : a ≠ b) :
    (compareUnits a b).sign = order (a :: u) (b :: v) := by
  rw [compareUnits, order_cons]
  split_ifs <;> first | rfl | omega

/-- A string is compared with code units as its own code units are. -/
lemma compareModifiedUtf8ToUtf16_spec {l : List ℕ} (hl : ∀ c ∈ l, c < 0x110000) (v : List ℕ)
    {fuel : ℕ} (hfuel : l.length < fuel) :
    ∃ r, compareModifiedUtf8ToUtf16 fuel (text l) v = some r ∧ r.sign = order (l.flatMap units) v := by
  obtain ⟨fuel, rfl⟩ := Nat.exists_eq_succ_of_ne_zero (Nat.ne_zero_of_lt hfuel)
  induction l generalizing v fuel with
  | nil =>
    refine ⟨_, if_pos rfl, ?_⟩
    cases v <;> rfl
  | cons c l ih =>
    obtain ⟨fuel, rfl⟩ := Nat.exists_eq_succ_of_ne_zero (Nat.ne_zero_of_lt (Nat.lt_of_succ_lt_succ hfuel))
    have hc := hl c mem_cons_self
    have hhead := head_sequence c (text l)
    rw [text_cons, flatMap_cons, units_eq hc, unitsOf]
    rcases v with _ | ⟨b, v⟩
    · exact ⟨1, if_neg hhead, rfl⟩
    rw [compareModifiedUtf8ToUtf16, if_neg hhead, getUtf16FromUtf8_sequence hc]
    dsimp only [Option.bind_eq_bind, Option.bind_some]
    by_cases hlead : getLeadingUtf16Char (pairOf c) = b
    swap
    · exact ⟨_, if_pos hlead, sign_compareUnits _ _ _ _ hlead⟩
    subst hlead
    rw [if_neg (not_not.2 rfl), cons_append]
    have hrest := fun v => ih (fun c hc => hl c (mem_cons_of_mem _ hc)) v fuel
      (Nat.lt_of_succ_lt_succ hfuel)
    split_ifs with htrail
    · rcases v with _ | ⟨b, v⟩
      · exact ⟨1, rfl, by simp [order]⟩
      by_cases hb : getTrailingUtf16Char (pairOf c) = b
      · obtain ⟨r, hr, hsign⟩ := hrest v
        refine ⟨r, (if_neg (not_not.2 hb)).trans hr, ?_⟩
        rw [hsign, hb]
        exact (order_append [_, b] _ _).symm
      · refine ⟨_, if_pos hb, (sign_compareUnits _ _ (l.flatMap units) v hb).trans ?_⟩
        exact (order_append [_] _ _).symm
    · obtain ⟨r, hr, hsign⟩ := hrest v
      exact ⟨r, hr, hsign.trans (order_append [_] _ _).symm⟩

lemma sign_sub (a b : ℕ) : ((a : ℤ) - b).sign = if a < b then -1 else if b < a then 1 else 0 := by
  split_ifs with h h'
  · exact Int.sign_eq_neg_one_of_neg (by omega)
  · exact Int.sign_eq_one_of_pos (by omega)
  · rw [show (a : ℤ) - b = 0 by omega, Int.sign_zero]

/-- The sign of the comparison of two strings. -/
lemma compareModifiedUtf8_spec {l m : List ℕ} (hl : ∀ c ∈ l, c < 0x110000)
    (hm : ∀ c ∈ m, c < 0x110000) {fuel : ℕ} (hfuel : l.length < fuel) :
    ∃ r, compareModifiedUtf8 fuel (text l) (text m) = some r ∧ (Clashes l m → r.sign = 1) ∧
      (Clashes m l → r.sign = -1) ∧
      (¬Clashes l m → ¬Clashes m l → r.sign = order (l.flatMap units) (m.flatMap units)) := by
  obtain ⟨fuel, rfl⟩ := Nat.exists_eq_succ_of_ne_zero (Nat.ne_zero_of_lt hfuel)
  induction l generalizing m fuel with
  | nil =>
    refine ⟨_, if_pos rfl, nofun, nofun, fun _ _ => ?_⟩
    rcases m with _ | ⟨d, m⟩
    · rfl
    · rw [text_cons, if_neg (head_sequence d _), flatMap_cons, units_eq (hm d mem_cons_self)]
      rfl
  | cons c l ih =>
    obtain ⟨fuel, rfl⟩ := Nat.exists_eq_succ_of_ne_zero (Nat.ne_zero_of_lt (Nat.lt_of_succ_lt_succ hfuel))
    have hc := hl c mem_cons_self
    rw [text_cons, compareModifiedUtf8, if_neg (head_sequence c _), flatMap_cons]
    rcases m with _ | ⟨d, m⟩
    · refine ⟨1, if_pos rfl, fun _ => rfl, nofun, fun _ _ => ?_⟩
      rw [units_eq hc]
      rfl
    have hd := hm d mem_cons_self
    rw [text_cons, if_neg (head_sequence d _), flatMap_cons, getUtf16FromUtf8_sequence hc,
      getUtf16FromUtf8_sequence hd]
    dsimp only [Option.bind_eq_bind, Option.bind_some]
    by_cases hcd : c = d
    · subst hcd
      obtain ⟨r, hr, hlm, hml, hsign⟩ := ih (fun c hc => hl c (mem_cons_of_mem _ hc))
        (fun c hc => hm c (mem_cons_of_mem _ hc)) fuel (Nat.lt_of_succ_lt_succ hfuel)
      refine ⟨r, (if_pos rfl).trans hr, fun h => ?_, fun h => ?_, fun h h' => ?_⟩
      · cases h with
        | here _ h => omega
        | there h => exact hlm h
      · cases h with
        | here _ h => omega
        | there h => exact hml h
      · rw [order_append]
        exact hsign (fun hc => h (.there hc)) fun hc => h' (.there hc)
    · -- the leading units can still be equal, if one of the characters is a surrogate
      have hne : pairOf c ≠ pairOf d := by
        rw [pairOf, pairOf]
        split_ifs <;> omega
      refine ⟨_, if_neg hne, ?_⟩
      rw [apply_ite Int.sign, sign_sub, sign_sub, (chars_pairOf hc).1, (chars_pairOf hc).2,
        (chars_pairOf hd).1, (chars_pairOf hd).2]
      refine ⟨fun h => ?_, fun h => ?_, fun h h' => ?_⟩
      · cases h with
        | here h hd => split_ifs <;> omega
        | there => exact absurd rfl hcd
      · cases h with
        | here h hd => split_ifs <;> omega
        | there => exact absurd rfl hcd
      · have hclash : ¬(0x10000 ≤ c ∧ d = c / 2 ^ 10 + 0xd7c0) := fun hcl => h (.here hcl.1 hcl.2)
        have hclash' : ¬(0x10000 ≤ d ∧ c = d / 2 ^ 10 + 0xd7c0) := fun hcl => h' (.here hcl.1 hcl.2)
        rw [units, units]
        split_ifs <;> simp only [cons_append, nil_append, order_cons] <;> split_ifs <;> omega

lemma order_eq_zero_iff (u v : List ℕ) : order u v = 0 ↔ u = v := by
  rw [order]
  rcases lt_trichotomy u v with h | rfl | h
  · simp [h, h.ne]
  · simp
  · simp [h, h.not_gt, h.ne']

/-- Strings compare as their code units, with zero for equal ones, if and only if the string with a code
    point of four bytes is the greater one where it meets its leading surrogate. -/
theorem compareModifiedUtf8_iff {l m : List ℕ} (hl : ∀ c ∈ l, c < 0x110000)
    (hm : ∀ c ∈ m, c < 0x110000) {fuel : ℕ} (hfuel : l.length < fuel) :
    ∃ r r', compareModifiedUtf8 fuel (text l) (text m) = some r ∧
      compareModifiedUtf8ToUtf16 fuel (text l) (m.flatMap units) = some r' ∧
      r'.sign = order (l.flatMap units) (m.flatMap units) ∧ (r' = 0 ↔ l.flatMap units = m.flatMap units) ∧
      (r.sign = r'.sign ↔ (Clashes l m → r'.sign = 1) ∧ (Clashes m l → r'.sign = -1)) := by
  obtain ⟨r, hr, hlm, hml, hsign⟩ := compareModifiedUtf8_spec hl hm hfuel
  obtain ⟨r', hr', hsign'⟩ := compareModifiedUtf8ToUtf16_spec hl _ hfuel
  refine ⟨r, r', hr, hr', hsign', ?_, fun h => ⟨fun hc => h ▸ hlm hc, fun hc => h ▸ hml hc⟩, fun h => ?_⟩
  · rw [← order_eq_zero_iff, ← hsign', Int.sign_eq_zero_iff_zero]
  · by_cases hc : Clashes l m
    · rw [hlm hc, h.1 hc]
    by_cases hc' : Clashes m l
    · rw [hml hc', h.2 hc']
    · rw [hsign hc hc', hsign']

theorem compareModifiedUtf8_iff_single :
    ∃ r r', compareModifiedUtf8 2 (text [0x61]) (text [0x10000]) = some r ∧
      compareModifiedUtf8ToUtf16 2 (text [0x61]) [0xd800, 0xdc00] = some r' ∧
      r'.sign = -1 ∧ r.sign = r'.sign := by
  obtain ⟨r, r', hr, hr', hsign, -, hiff⟩ := compareModifiedUtf8_iff (l := [0x61]) (m := [0x10000])
    (by decide) (by decide) (by decide : [0x61].length < 2)
  refine ⟨r, r', hr, hr', hsign.trans (by decide), hiff.2 ⟨fun h => ?_, fun h => ?_⟩⟩
  · cases h with
    | here h => omega
  · cases h with
    | here _ h => omega

/-- The character `U+10000` in four bytes is greater than the same code units in six. -/
theorem compareModifiedUtf8_supplementary : [0x10000].flatMap units = [0xd800, 0xdc00].flatMap units ∧
      text [0x10000] = [0xf0, 0x90, 0x80, 0x80, 0] ∧
      text [0xd800, 0xdc00] = [0xed, 0xa0, 0x80, 0xed, 0xb0, 0x80, 0] ∧
      compareModifiedUtf8 2 (text [0x10000]) (text [0xd800, 0xdc00]) = some 0xdc00 := by
  decide

end Art
