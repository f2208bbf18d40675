import Mathlib.Data.List.Nodup

/-!
# Maps as lists of entries

A map given by the list of its entries, which have different keys. A value can be changed or added by a
function that may fail, and the entries of another map can be merged in one by one.

* `get?_modify`: what a change does to lookups;
* `get?_mergeList`: merging acts at each key on its own.
-/

/-- A list of entries with different keys. -/
structure AssocMap (κ ν : Type) where
  entries : List (κ × ν)
  nodup : (entries.map Prod.fst).Nodup

namespace AssocMap

open List (lookup_cons map_cons nodup_cons)

variable {κ ν μ : Type} [DecidableEq κ]

/-- The map without entries. -/
def empty : AssocMap κ ν := ⟨[], List.nodup_nil⟩

variable (m : AssocMap κ ν)

/-- The value of a key. -/
def get? (k : κ) : Option ν := m.entries.lookup k

/-- The entries with the value of a key replaced, or added at the end. -/
def setEntry (k : κ) (v : ν) : List (κ × ν) → List (κ × ν)
  | [] => [(k, v)]
  | e :: l => if e.1 = k then (k, v) :: l else e :: setEntry k v l

variable {k : κ} {v : ν} {l : List (κ × ν)}

lemma mem_keys_setEntry {k' : κ} : k' ∈ (setEntry k v l).map Prod.fst ↔ k' = k ∨ k' ∈ l.map Prod.fst := by
  induction l with
  | nil => simp [setEntry]
  | cons e l ih =>
    rw [setEntry]
    split_ifs with he
    · simp [he]
    · rw [map_cons, List.mem_cons, ih, map_cons, List.mem_cons, or_left_comm]

lemma nodup_setEntry (h : (l.map Prod.fst).Nodup) : ((setEntry k v l).map Prod.fst).Nodup := by
  induction l with
  | nil => simp [setEntry]
  | cons e l ih =>
    rw [map_cons, nodup_cons] at h
    rw [setEntry]
    split_ifs with he
    · rw [map_cons, nodup_cons]
      exact ⟨he ▸ h.1, h.2⟩
    · rw [map_cons, nodup_cons, mem_keys_setEntry]
      exact ⟨fun hmem => hmem.elim he h.1, ih h.2⟩

/-- Setting an entry changes the lookup of its key only. -/
lemma lookup_setEntry (k k' : κ) (v : ν) (l : List (κ × ν)) :
    (setEntry k v l).lookup k' = if k' = k then some v else l.lookup k' := by
  induction l with
  | nil =>
    rw [setEntry, lookup_cons, List.lookup_nil]
    by_cases h : k' = k
    · simp [h]
    · have hkk : (k' == k) = false := by simpa using h
      rw [hkk, if_neg h]
  | cons e l ih =>
    rw [setEntry]
    by_cases he : e.1 = k
    · rw [if_pos he, lookup_cons, lookup_cons]
      by_cases hk : k' = k
      · simp [hk]
      · have hke : (k' == e.1) = false := by simpa [he] using hk
        have hkk : (k' == k) = false := by simpa using hk
        rw [if_neg hk, hke, hkk]
    · rw [if_neg he, lookup_cons, ih, lookup_cons]
      by_cases hke : k' = e.1
      · simp [hke, he]
      · have hke' : (k' == e.1) = false := by simpa using hke
        rw [hke']

/-- The map with the value of a key. -/
def set (k : κ) (v : ν) : AssocMap κ ν := ⟨setEntry k v m.entries, nodup_setEntry m.nodup⟩

/-- `FindOrAdd` and a change of the value, which may fail. -/
def modify (k : κ) (f : Option ν → Option ν) : Option (AssocMap κ ν) :=
  (f (m.get? k)).map fun v => ⟨setEntry k v m.entries, nodup_setEntry m.nodup⟩

variable {m m' : AssocMap κ ν}

lemma get?_modify {f : Option ν → Option ν} (h : m.modify k f = some m') :
    ∃ v, f (m.get? k) = some v ∧ ∀ k', m'.get? k' = if k' = k then some v else m.get? k' := by
  obtain ⟨v, hv, rfl⟩ := Option.map_eq_some_iff.1 h
  exact ⟨v, hv, fun k' => lookup_setEntry k k' v m.entries⟩

variable (f : Option ν → κ → μ → Option ν)

/-- The entries of a list merged into a map, from the first one on. -/
def mergeList (m : AssocMap κ ν) (l : List (κ × μ)) : Option (AssocMap κ ν) :=
  l.foldlM (fun m e => m.modify e.1 fun o => f o e.1 e.2) m

/-- Another map merged into a map. -/
def merge (m : AssocMap κ ν) (other : AssocMap κ μ) : Option (AssocMap κ ν) := mergeList f m other.entries

variable {f : Option ν → κ → μ → Option ν}

lemma get?_mergeList {l : List (κ × μ)} (hl : (l.map Prod.fst).Nodup)
    (h : mergeList f m l = some m') (k : κ) : (l.lookup k = none → m'.get? k = m.get? k) ∧
      ∀ v, l.lookup k = some v → ∃ w, f (m.get? k) k v = some w ∧ m'.get? k = some w := by
  induction l generalizing m with
  | nil =>
    cases h
    exact ⟨fun _ => rfl, fun v hv => by cases hv⟩
  | cons e l ih =>
    rw [map_cons, nodup_cons] at hl
    obtain ⟨m1, hm1, hrest⟩ := Option.bind_eq_some_iff.1 h
    obtain ⟨w, hw, hget⟩ := get?_modify hm1
    obtain ⟨hnone, hsome⟩ := ih hl.2 hrest
    rw [lookup_cons]
    by_cases hk : k = e.1
    · -- the key does not occur again
      have hnot : l.lookup k = none := by
        rw [List.lookup_eq_none_iff]
        rintro ⟨k', v'⟩ hmem
        rw [bne_iff_ne]
        rintro rfl
        exact hl.1 (hk ▸ List.mem_map_of_mem hmem)
      subst hk
      rw [beq_self_eq_true]
      refine ⟨fun h => absurd h (Option.some_ne_none _), fun v hv => ⟨w, ?_, ?_⟩⟩
      · cases hv
        exact hw
      · rw [hnone hnot, hget, if_pos rfl]
    · have hke : (k == e.1) = false := by simpa using hk
      rw [hke]
      have hget' : m1.get? k = m.get? k := by rw [hget, if_neg hk]
      rw [hget'] at hnone hsome
      exact ⟨hnone, hsome⟩

end AssocMap
