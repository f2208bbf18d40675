import Art.Verifier.MergeRuns

/-!
# Joins and merges as bounds
-/

namespace Art
namespace Class

/-- The join of two classes is found, both can be assigned to it, and it can be assigned to all classes to
    which both can be assigned by superclasses and as arrays of such classes. The loops over
    superclasses end at `Object` at the latest. -/
theorem classJoin_least {N : Type} [DecidableEq N] (h : Hierarchy N) (s t : Class N)
    (hs : s.isPrimitive = false) (ht : t.isPrimitive = false) :
    ∃ j, classJoin h s t = some j ∧ isAssignableFrom h j s = true ∧ isAssignableFrom h j t = true ∧
      ∀ u, u.hasInterface h = false → isAssignableFrom h u s = true → isAssignableFrom h u t = true →
        isAssignableFrom h u j = true := by
  obtain ⟨j, hj, -, hjs, hjt⟩ := classJoin_spec (h := h) hs ht
  exact ⟨j, hj, hjs, hjt, fun u => isAssignableFrom_classJoin hs ht hj⟩

/-- Arrays of `int` with one dimension and with two. -/
theorem classJoin_least_arrays : let s : Class Unit := array (primitive .int)
    ∃ j, classJoin RegType.objectOnly s (array s) = some j ∧ isAssignableFrom RegType.objectOnly j s = true := by
  intro s
  obtain ⟨j, hj, hs, -⟩ := classJoin_least RegType.objectOnly s (array s) rfl rfl
  exact ⟨j, hj, hs⟩

end Class

namespace RegType

variable {N : Type} [DecidableEq N]

/-! ## Integral types in any order -/

/-- Types that are merged in any order, each time with what the cache has found so far. -/
inductive MergeTree (N : Type)
  | type (t : RegType N)
  | merge (foundPrecise : Class N → Bool) (left right : MergeTree N)

namespace MergeTree

/-- The types that are merged. -/
def types : MergeTree N → List (RegType N)
  | type t => [t]
  | merge _ left right => left.types ++ right.types

/-- The result of the merges. -/
def result (cache : RegTypeCache N) : MergeTree N → Option (RegType N)
  | type t => some t
  | merge foundPrecise left right =>
    (left.result cache).bind fun a => (right.result cache).bind fun b => safeMerge cache foundPrecise a b

variable (cache : RegTypeCache N)

/-- The result of merging types in any order is above all of them. -/
lemma result_spec (m : MergeTree N) (hm : ∀ t ∈ m.types, t.IsValid cache) :
    ∃ r, m.result cache = some r ∧ r.IsValid cache ∧ ∀ t ∈ m.types, Le cache t r := by
  induction m with
  | type t => exact ⟨t, rfl, hm t List.mem_cons_self, fun s hs => List.mem_singleton.1 hs ▸ .refl s⟩
  | merge foundPrecise left right ihl ihr =>
    obtain ⟨a, ha, hvalid, hla⟩ := ihl fun t ht => hm t (List.mem_append_left _ ht)
    obtain ⟨b, hb, hvalid', hrb⟩ := ihr fun t ht => hm t (List.mem_append_right _ ht)
    obtain ⟨r, hr, hvalid'', har, hbr⟩ := safeMerge_spec foundPrecise hvalid hvalid'
    refine ⟨r, by rw [result, ha, hb]; exact hr, hvalid'', fun t ht => ?_⟩
    rcases List.mem_append.1 ht with ht | ht
    · exact (hla t ht).trans har
    · exact (hrb t ht).trans hbr

end MergeTree

/-- The values of a register with a category-1 integer type that no merge has made. -/
def HasValue (x : BitVec 32) : RegType N → Prop
  | const v true => x = v
  | prim p => p ≠ .float ∧ p.Fits x.toInt
  | _ => False

variable {cache : RegTypeCache N} {t r : RegType N} {x : BitVec 32}

/-- Values are kept by the order, up to the primitive types. -/
lemma HasValue.fits {p : PrimitiveRegType} (hx : t.HasValue x) (hle : Le cache t (prim p)) :
    p.Fits x.toInt := by
  cases t with
  | const v precise =>
    cases precise with
    | false => cases hx
    | true =>
      obtain rfl : x = v := hx
      cases hle with
      | fits hfits => exact hfits
      | zero_ref hr => cases hr
  | prim q =>
    cases hle with
    | refl => exact hx.2
    | prim hqp => exact hx.2.mono hqp
  | _ => cases hx

omit [DecidableEq N] in
lemma HasValue.isValid (hx : t.HasValue x) : t.IsValid cache := by
  cases t <;> trivial

/-- Merged integral types over-approximate: the merges succeed, and if the result is of a small type, then
    so are the values of all types that were merged. -/
theorem mergeTree_overapproximates (cache : RegTypeCache N) (m : MergeTree N)
    (hm : ∀ t ∈ m.types, ∃ x, t.HasValue x) :
    ∃ r, m.result cache = some r ∧ ∀ t ∈ m.types, ∀ x, t.HasValue x →
      (r.isBooleanTypes = true → PrimitiveRegType.boolean.Fits x.toInt) ∧
      (r.isByteTypes = true → PrimitiveRegType.byte.Fits x.toInt) ∧
      (r.isShortTypes = true → PrimitiveRegType.short.Fits x.toInt) ∧
      (r.isCharTypes = true → PrimitiveRegType.char.Fits x.toInt) := by
  obtain ⟨r, hr, -, hle⟩ := m.result_spec cache fun t ht => (hm t ht).elim fun _ hx => hx.isValid
  refine ⟨r, hr, fun t ht x hx => ⟨fun h => ?_, fun h => ?_, fun h => ?_, fun h => ?_⟩⟩
  · exact hx.fits ((hle t ht).trans (le_boolean h))
  · exact hx.fits ((hle t ht).trans (le_byte h))
  · exact hx.fits ((hle t ht).trans (le_short h))
  · exact hx.fits ((hle t ht).trans (le_char h))

/-- The constant `-3` together with a `byte`. -/
theorem mergeTree_overapproximates_byte :
    let m : MergeTree Unit := .merge (fun _ => false) (.type (const (-3) true)) (.type (prim .byte))
    ∃ r, m.result ⟨objectOnly, fun _ => false⟩ = some r ∧ r.isByteTypes = true ∧
      ∀ t ∈ m.types, ∀ x, t.HasValue x → PrimitiveRegType.byte.Fits x.toInt := by
  intro m
  obtain ⟨r, hr, h⟩ := mergeTree_overapproximates ⟨objectOnly, fun _ => false⟩ m (by
    intro t ht
    rcases List.mem_pair.1 ht with rfl | rfl
    · exact ⟨-3, rfl⟩
    · exact ⟨5, by simp, by rw [PrimitiveRegType.Fits]; decide⟩)
  obtain rfl : prim .byte = r := Option.some.inj ((by decide : m.result _ = some (prim .byte)).symm.trans hr)
  exact ⟨_, hr, rfl, fun t ht x hx => (h t ht x hx).2.1 rfl⟩

end RegType
end Art
