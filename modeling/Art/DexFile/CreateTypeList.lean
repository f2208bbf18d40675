import Mathlib.Data.List.Basic
import Mathlib.Data.List.TakeWhile

/-!
# The types of a method signature

`DexFile::CreateTypeList` of `libdexfile/dex/dex_file.cc` looks up the types of a signature such as
`(I[JLa;)V`. A `)` only sets a flag, so that more than one is accepted.
-/

namespace Art

open List

/-- A field type descriptor. -/
inductive IsFieldType : List Char → Prop
  | primitive {c : Char} (h : c ∉ ['[', 'L', ')']) : IsFieldType [c]
  | object {s : List Char} (h : ';' ∉ s) : IsFieldType ('L' :: (s ++ [';']))
  | array {d : List Char} (h : IsFieldType d) : IsFieldType ('[' :: d)

/-- The type ids of a verified dex file: `FindTypeId`, with the index that it finds. -/
structure TypeIds where
  findTypeId : List Char → Option ℕ
  valid : ∀ d i, findTypeId d = some i → IsFieldType d ∧ '\x00' ∉ d

/-- The length of the descriptor that comes next. -/
def descriptorLength : List Char → Option ℕ
  | [] => none
  | c :: s =>
    if c = '[' then (descriptorLength s).map (· + 1)
    else if c = 'L' then if ';' ∈ s then some (s.idxOf ';' + 2) else none
    else some 1

/-- The loop of `CreateTypeList`, on the characters from `offset` on. -/
def createTypeListLoop (T : TypeIds) : ℕ → Bool → List ℕ → List Char → Option (List ℕ × ℕ)
  | 0, _, _, _ => none
  | fuel + 1, processReturn, params, signature =>
    if signature.head? = some ')' then createTypeListLoop T fuel true params signature.tail
    else do
      let n ← descriptorLength signature
      -- `c_str()` ends at the first null character
      let typeIdx ← T.findTypeId ((signature.take n).takeWhile (· ≠ '\x00'))
      if !processReturn then createTypeListLoop T fuel false (params ++ [typeIdx]) (signature.drop n)
      else if signature.drop n = [] then some (params, typeIdx) else none

/-- `CreateTypeList`: the indexes of the parameter types and of the return type. -/
def createTypeList (T : TypeIds) (signature : List Char) : Option (List ℕ × ℕ) :=
  if signature.head? ≠ some '(' then none
  else createTypeListLoop T signature.length false [] signature.tail

/-- Parameters, `n` closing parentheses and a return type, and the indexes of the types. -/
inductive ReadsTypes (T : TypeIds) : ℕ → List Char → List ℕ → ℕ → Prop
  | returnType {r i} (h : T.findTypeId r = some i) : ReadsTypes T 0 r [] i
  | close {n s i} (h : ReadsTypes T n s [] i) : ReadsTypes T (n + 1) (')' :: s) [] i
  | param {n d s j params i} (hd : T.findTypeId d = some j) (h : ReadsTypes T (n + 1) s params i) :
      ReadsTypes T (n + 1) (d ++ s) (j :: params) i

/-- A method signature with `n` closing parentheses, and the indexes of its types. -/
def IsSignature (T : TypeIds) (n : ℕ) (signature : List Char) (out : List ℕ × ℕ) : Prop :=
  ∃ s, signature = '(' :: s ∧ ReadsTypes T n s out.1 out.2

variable {T : TypeIds} {d s : List Char} {n i : ℕ} {params : List ℕ} {out : List ℕ × ℕ}

/-- A descriptor is found, whatever follows it. -/
lemma IsFieldType.descriptorLength (h : IsFieldType d) (rest : List Char) :
    descriptorLength (d ++ rest) = some d.length := by
  induction h with
  | primitive h =>
    simp only [mem_cons, not_or] at h
    rw [singleton_append, Art.descriptorLength, if_neg h.1, if_neg h.2.1, length_singleton]
  | object h =>
    rw [cons_append, append_assoc, Art.descriptorLength, if_neg (by decide),
      if_pos rfl, idxOf_append_of_notMem h]
    simp
  | array _ ih => rw [cons_append, Art.descriptorLength, if_pos rfl, ih, Option.map_some, length_cons]

/-- The next descriptor is looked up: no part of it is one, so it has no null character. -/
lemma lookup_iff : descriptorLength s = some n ∧ T.findTypeId ((s.take n).takeWhile (· ≠ '\x00')) = some i ↔
      ∃ d rest, s = d ++ rest ∧ n = d.length ∧ T.findTypeId d = some i := by
  constructor
  · rintro ⟨hlen, hfind⟩
    obtain ⟨tail, htail⟩ := takeWhile_prefix (l := s.take n) (· ≠ '\x00')
    have hpart := (T.valid _ _ hfind).1.descriptorLength (tail ++ s.drop n)
    rw [← append_assoc, htail, take_append_drop, hlen] at hpart
    refine ⟨_, tail ++ s.drop n, ?_, Option.some.inj hpart, hfind⟩
    rw [← append_assoc, htail, take_append_drop]
  · rintro ⟨d, rest, rfl, rfl, hfind⟩
    obtain ⟨hd, hnull⟩ := T.valid _ _ hfind
    refine ⟨hd.descriptorLength rest, ?_⟩
    rw [take_left, takeWhile_eq_self_iff.2 fun c hc => by simpa using ne_of_mem_of_not_mem hc hnull, hfind]

lemma exists_cons (h : T.findTypeId d = some i) : ∃ c s, d = c :: s ∧ c ≠ ')' := by
  cases (T.valid d i h).1 with
  | primitive hd => exact ⟨_, _, rfl, fun hc => hd (by simp [hc])⟩
  | object | array => exact ⟨_, _, rfl, by decide⟩

lemma ReadsTypes.of_close (h : ReadsTypes T n (')' :: s) params i) :
    params = [] ∧ ∃ m, n = m + 1 ∧ ReadsTypes T m s [] i := by
  generalize hs : ')' :: s = t at h
  cases h with
  | close h => exact ⟨rfl, _, rfl, (cons.inj hs).2 ▸ h⟩
  | returnType hd | param hd =>
    obtain ⟨c, u, rfl, hc⟩ := exists_cons hd
    exact absurd (cons.inj hs).1.symm hc

/-- The loop accepts parameters, any number of `)`, and a return type. -/
lemma createTypeListLoop_iff {fuel : ℕ} {processReturn : Bool} (hfuel : s.length < fuel) :
    createTypeListLoop T fuel processReturn params s = some out ↔
      ∃ n idxs, ReadsTypes T n s idxs out.2 ∧ out.1 = params ++ idxs ∧
        if processReturn then idxs = [] else 0 < n := by
  induction fuel generalizing s processReturn params with
  | zero => exact absurd hfuel (Nat.not_lt_zero _)
  | succ fuel ih =>
    rw [createTypeListLoop]
    by_cases hs : s.head? = some ')'
    · obtain ⟨t, rfl⟩ := head?_eq_some_iff.1 hs
      rw [if_pos hs, tail_cons, ih (by simpa using hfuel)]
      constructor
      · rintro ⟨n, idxs, h, hout, rfl⟩
        exact ⟨n + 1, [], .close h, hout, by cases processReturn <;> simp⟩
      · rintro ⟨_, _, h, hout, -⟩
        obtain ⟨rfl, n, rfl, hn⟩ := h.of_close
        exact ⟨n, [], hn, hout, rfl⟩
    · rw [if_neg hs]
      simp only [Option.bind_eq_bind, Option.bind_eq_some_iff]
      constructor
      · rintro ⟨n, hlen, i, hfind, h⟩
        obtain ⟨d, rest, rfl, rfl, hi⟩ := lookup_iff.1 ⟨hlen, hfind⟩
        rw [drop_left] at h
        cases processReturn with
        | false =>
          obtain ⟨c, t, rfl, -⟩ := exists_cons hi
          obtain ⟨n, idxs, h, hout, hn⟩ := (ih (by simp at hfuel; omega)).1 h
          obtain ⟨n, rfl⟩ := Nat.exists_eq_succ_of_ne_zero (Nat.ne_of_gt hn)
          exact ⟨n + 1, i :: idxs, .param hi h, by simp [hout], hn⟩
        | true =>
          obtain ⟨rfl, h⟩ := Option.ite_none_right_eq_some.1 h
          obtain rfl := Option.some.inj h
          exact ⟨0, [], by simpa using .returnType hi, (append_nil params).symm, rfl⟩
      · rintro ⟨n, idxs, h, hout, hn⟩
        cases h with
        | returnType h =>
          cases processReturn with
          | false => exact absurd hn (lt_irrefl 0)
          | true =>
            obtain ⟨hlen, hfind⟩ := lookup_iff.2 ⟨s, [], (append_nil s).symm, rfl, h⟩
            exact ⟨_, hlen, _, hfind, by simp [Prod.ext_iff, hout]⟩
        | close => exact absurd rfl hs
        | param hd h =>
          cases processReturn with
          | true => cases hn
          | false =>
            obtain ⟨hlen, hfind⟩ := lookup_iff.2 ⟨_, _, rfl, rfl, hd⟩
            obtain ⟨c, t, rfl, -⟩ := exists_cons hd
            refine ⟨_, hlen, _, hfind, ?_⟩
            rw [drop_left]
            exact (ih (by simp at hfuel; omega)).2 ⟨_, _, h, by simp [hout], Nat.succ_pos _⟩

/-- The signatures that are accepted have one `)` or more. -/
lemma createTypeList_eq_some_iff : createTypeList T s = some out ↔ ∃ n, IsSignature T (n + 1) s out := by
  rw [createTypeList]
  by_cases hs : s.head? = some '('
  · obtain ⟨t, rfl⟩ := head?_eq_some_iff.1 hs
    rw [if_neg (not_not.2 hs), tail_cons, createTypeListLoop_iff (by simp)]
    constructor
    · rintro ⟨n, idxs, h, hout, hn⟩
      obtain ⟨n, rfl⟩ := Nat.exists_eq_succ_of_ne_zero (Nat.ne_of_gt hn)
      exact ⟨n, t, rfl, by rwa [hout]⟩
    · rintro ⟨n, _, heq, h⟩
      cases heq
      exact ⟨n + 1, out.1, h, rfl, Nat.succ_pos n⟩
  · rw [if_pos hs]
    exact iff_of_false nofun fun ⟨n, t, h, _⟩ => hs (by rw [h]; rfl)

lemma ReadsTypes.of_param {j : ℕ} (hd : T.findTypeId d = some j)
    (h : ReadsTypes T (n + 1) (d ++ s) params i) : ∃ params, ReadsTypes T (n + 1) s params i := by
  generalize hs : d ++ s = t at h
  cases h with
  | close =>
    obtain ⟨c, u, rfl, hc⟩ := exists_cons hd
    exact absurd (cons.inj hs).1 hc
  | param hd' h =>
    have hlen := (T.valid _ _ hd).1.descriptorLength s
    rw [hs, (T.valid _ _ hd').1.descriptorLength] at hlen
    exact ⟨_, (append_inj hs (Option.some.inj hlen).symm).2 ▸ h⟩

lemma ReadsTypes.not_one {i' : ℕ} {params' : List ℕ} (h : ReadsTypes T (n + 2) s params i) :
    ¬ReadsTypes T 1 s params' i' := by
  generalize hk : n + 2 = k at h
  intro h'
  induction h generalizing params' with
  | returnType => cases hk
  | close h =>
    obtain ⟨-, m, hm, h'⟩ := h'.of_close
    cases hm
    cases hk
    cases h' with
    | returnType h' =>
      cases h with
      | close =>
        obtain ⟨c, u, hu, hc⟩ := exists_cons h'
        exact hc (cons.inj hu).1.symm
  | param hd h ih =>
    obtain ⟨_, h'⟩ := h'.of_param hd
    exact ih hk h'

/-- The method signatures are accepted, and nothing else, unless the signature has more than one `)`. -/
theorem createTypeList_iff (T : TypeIds) (s : List Char) :
    (∀ out, createTypeList T s = some out ↔ IsSignature T 1 s out) ↔
      ¬∃ n out, IsSignature T (n + 2) s out := by
  constructor
  · rintro h ⟨n, out, hn⟩
    obtain ⟨t, rfl, h'⟩ := (h out).1 (createTypeList_eq_some_iff.2 ⟨n + 1, hn⟩)
    obtain ⟨u, hu, hn⟩ := hn
    cases hu
    exact hn.not_one h'
  · refine fun h out => createTypeList_eq_some_iff.trans ⟨fun ⟨n, hn⟩ => ?_, fun h => ⟨0, h⟩⟩
    cases n with
    | zero => exact hn
    | succ n => exact absurd ⟨n, out, hn⟩ h

/-- The type ids of a dex file that only has `void`. -/
def voidOnly : TypeIds where
  findTypeId d := if d = ['V'] then some 0 else none
  valid d i h := by
    split_ifs at h with hd
    subst hd
    exact ⟨.primitive (by decide), by decide⟩

/-- A signature with two closing parentheses is accepted. -/
theorem createTypeList_two_parentheses :
    createTypeList voidOnly "())V".toList = some ([], 0) ∧
      ¬IsSignature voidOnly 1 "())V".toList ([], 0) := by
  have h : ReadsTypes voidOnly 2 "))V".toList [] 0 := .close (.close (.returnType rfl))
  refine ⟨by decide, fun ⟨s, hs, hone⟩ => ?_⟩
  cases hs
  exact h.not_one hone

end Art
