import Art.Verifier.Merge

/-!
# Merging one type after another

A register gets the types of its incoming edges one after another. The result absorbs all of them, but
for some constants, and it changes only a bounded number of times.
-/

namespace Art
namespace RegType

variable {N : Type} [DecidableEq N]

/-- Merging types one after another, each with what the cache has found so far. -/
def mergeAll (cache : RegTypeCache N) : RegType N → List ((Class N → Bool) × RegType N) → Option (RegType N)
  | r, [] => some r
  | r, (foundPrecise, t) :: l => (safeMerge cache foundPrecise r t).bind fun r => mergeAll cache r l

variable {cache : RegTypeCache N} {r : RegType N}

/-- The result of merging types is above all of them. -/
lemma mergeAll_spec {l : List ((Class N → Bool) × RegType N)} (hr : r.IsValid cache)
    (hl : ∀ x ∈ l, x.2.IsValid cache) :
    ∃ r', mergeAll cache r l = some r' ∧ r'.IsValid cache ∧ Le cache r r' ∧ ∀ x ∈ l, Le cache x.2 r' := by
  induction l generalizing r with
  | nil => exact ⟨r, rfl, hr, .refl r, fun x hx => by cases hx⟩
  | cons x l ih =>
    obtain ⟨foundPrecise, t⟩ := x
    obtain ⟨s, hs, hvalid, hrs, hts⟩ :=
      safeMerge_spec _ hr (hl (foundPrecise, t) List.mem_cons_self)
    obtain ⟨r', hr', hvalid', hsr', hall⟩ := ih hvalid fun x hx => hl x (List.mem_cons_of_mem _ hx)
    refine ⟨r', ?_, hvalid', hrs.trans hsr', fun x hx => ?_⟩
    · rw [mergeAll, hs]
      exact hr'
    · rcases List.mem_cons.1 hx with rfl | hx
      · exact hts.trans hsr'
      · exact hall x hx

/-! ## The number of changes -/

/-- The number of changes that constants can still make without a new type above the old ones. -/
def constantSteps : RegType N → ℕ
  | const w _ => if 0 ≤ w.toInt then 0 else if -32768 < w.toInt then 2 else 1
  | _ => 0

omit [DecidableEq N] in
lemma constantSteps_le (r : RegType N) : r.constantSteps ≤ 2 := by
  cases r with
  | const w precise =>
    rw [constantSteps]
    split_ifs <;> omega
  | _ => exact Nat.zero_le 2

variable {t r' : RegType N} {foundPrecise : Class N → Bool}

/-- A constant that is not absorbed makes a step. -/
lemma constantSteps_lt (h : IsUnabsorbed r t) (hle : Le cache t r)
    (hr' : safeMerge cache foundPrecise r t = some r') : r'.constantSteps < r.constantSteps := by
  obtain ⟨w, v, precise, rfl, rfl, hw, hne, hv⟩ := h
  have hshort : -32768 ≤ w.toInt → v.toInt ≤ 32767 := by
    cases hle with
    | refl => omega
    | zero_ref href => cases href
    | const hle =>
      unfold ConstLe intMax at hle
      omega
  have hne' : (const w false : RegType N) ≠ const v precise := by
    intro heq
    injection heq with hwv
    rw [hwv] at hw
    omega
  have hmerge : mergeConst w false v precise = r' := by
    rw [safeMerge, if_neg hne'] at hr'
    simpa [merge] using hr'
  have hbyte : ¬(const w false : RegType N).isConstantByte = true := fun h =>
    absurd (of_decide_eq_true h) (by omega)
  rw [mergeConst, if_neg (by omega), if_neg (by omega), if_neg hbyte] at hmerge
  by_cases hw' : -32768 < w.toInt
  · have hwshort : (const w false : RegType N).isConstantShort = true := decide_eq_true ⟨hw'.le, by omega⟩
    have hvshort : (const v precise : RegType N).isConstantShort = true :=
      decide_eq_true ⟨by omega, hshort hw'.le⟩
    rw [if_pos hwshort, if_pos hvshort] at hmerge
    rw [← hmerge, constantSteps, if_neg (by omega), if_pos hw']
    exact Nat.one_lt_two
  · have hwshort : ¬(const w false : RegType N).isConstantShort = true := fun h =>
      absurd (of_decide_eq_true h) (by omega)
    rw [if_neg hwshort] at hmerge
    rw [← hmerge, constantSteps, if_neg (by omega), if_neg hw']
    exact Nat.one_pos

open Classical in
/-- The number of changes that are left: those to absorb a new type, with steps of constants. -/
noncomputable def changesLeft (cache : RegTypeCache N) (S : Finset (RegType N)) (r : RegType N) : ℕ :=
  3 * (S.filter fun t => ¬Le cache t r).card + r.constantSteps

variable {S : Finset (RegType N)}

/-- Each change leaves fewer ones. -/
lemma changesLeft_lt (hr : r.IsValid cache) (ht : t.IsValid cache) (htS : t ∈ S)
    (hr' : safeMerge cache foundPrecise r t = some r') (hne : r' ≠ r) :
    changesLeft cache S r' < changesLeft cache S r := by
  classical
  obtain ⟨s, hs, -, hrs, hts⟩ := safeMerge_spec _ hr ht
  obtain rfl := Option.some.inj (hr'.symm.trans hs)
  have hsub : (S.filter fun t => ¬Le cache t r') ⊆ S.filter fun t => ¬Le cache t r := by
    intro x hx
    rw [Finset.mem_filter] at hx ⊢
    exact ⟨hx.1, fun hle => hx.2 (hle.trans hrs)⟩
  unfold changesLeft
  by_cases hle : Le cache t r
  · rcases safeMerge_of_le _ hr ht hle with heq | hun
    · exact absurd (Option.some.inj (hr'.symm.trans heq)) hne
    · have hstep := constantSteps_lt hun hle hr'
      have hcard := Finset.card_le_card hsub
      convert Nat.add_lt_add_of_le_of_lt (Nat.mul_le_mul_left 3 hcard) hstep
  · have hlt : (S.filter fun t => ¬Le cache t r') ⊂ S.filter fun t => ¬Le cache t r := by
      refine Finset.ssubset_iff_subset_ne.2 ⟨hsub, fun heq => ?_⟩
      have hmem : t ∈ S.filter fun t => ¬Le cache t r := Finset.mem_filter.2 ⟨htS, hle⟩
      rw [← heq] at hmem
      exact (Finset.mem_filter.1 hmem).2 hts
    have hcard := Finset.card_lt_card hlt
    have hsteps := constantSteps_le r'
    have : ∀ a b c d : ℕ, a < b → c ≤ 2 → 3 * a + c < 3 * b + d := by omega
    convert this _ _ _ _ hcard hsteps

/-- A register whose incoming types come from a finite set. -/
structure IsRun (cache : RegTypeCache N) (S : Finset (RegType N)) (r : ℕ → RegType N) : Prop where
  isValid_zero : (r 0).IsValid cache
  step : ∀ n, ∃ foundPrecise, ∃ t ∈ S, safeMerge cache foundPrecise (r n) t = some (r (n + 1))

variable {r : ℕ → RegType N}

lemma IsRun.isValid (hS : ∀ t ∈ S, t.IsValid cache) (h : IsRun cache S r)
    (n : ℕ) : (r n).IsValid cache := by
  induction n with
  | zero => exact h.isValid_zero
  | succ n ih =>
    obtain ⟨foundPrecise, t, ht, hstep⟩ := h.step n
    obtain ⟨s, hs, hvalid, -⟩ := safeMerge_spec _ ih (hS t ht)
    exact Option.some.inj (hs.symm.trans hstep) ▸ hvalid

/-- The changes of the first `n` steps use up what was left. -/
lemma IsRun.card_changes_le (hS : ∀ t ∈ S, t.IsValid cache) (h : IsRun cache S r) (n : ℕ) :
    ((Finset.range n).filter fun i => r (i + 1) ≠ r i).card + changesLeft cache S (r n) ≤
      changesLeft cache S (r 0) := by
  induction n with
  | zero => simp
  | succ n ih =>
    rw [Finset.range_add_one, Finset.filter_insert]
    split_ifs with hne
    · obtain ⟨foundPrecise, t, ht, hstep⟩ := h.step n
      have hlt := changesLeft_lt (h.isValid hS n) (hS t ht) ht hstep hne
      rw [Finset.card_insert_of_notMem (by simp)]
      omega
    · rw [not_not.1 hne]
      exact ih

/-- Merging types one after another succeeds, and its result absorbs each of them, except constants that
    are not negative if the result is an imprecise constant below `-128` other than `-32768`. A
    register whose incoming types come from a finite set changes a bounded number of times. -/
theorem mergeAll_absorbs (cache : RegTypeCache N) :
    (∀ (r : RegType N) (l : List ((Class N → Bool) × RegType N)), r.IsValid cache →
      (∀ x ∈ l, x.2.IsValid cache) → ∃ r', mergeAll cache r l = some r' ∧
        ∀ t ∈ r :: l.map Prod.snd, ∀ foundPrecise,
          safeMerge cache foundPrecise r' t = some r' ∨ IsUnabsorbed r' t) ∧
    ∀ (S : Finset (RegType N)) (r : ℕ → RegType N), (∀ t ∈ S, t.IsValid cache) → IsRun cache S r →
      ∀ n, ((Finset.range n).filter fun i => r (i + 1) ≠ r i).card ≤ 3 * S.card + 2 := by
  refine ⟨fun r l hr hl => ?_, fun S r hS h n => ?_⟩
  · obtain ⟨r', hr', hvalid, hle, hall⟩ := mergeAll_spec hr hl
    refine ⟨r', hr', fun t ht foundPrecise => ?_⟩
    rcases List.mem_cons.1 ht with rfl | ht
    · exact safeMerge_of_le _ hvalid hr hle
    · obtain ⟨x, hx, rfl⟩ := List.mem_map.1 ht
      exact safeMerge_of_le _ hvalid (hl x hx) (hall x hx)
  · classical
    have hcard := h.card_changes_le hS n
    have hsteps := constantSteps_le (r 0)
    have hfilter := Finset.card_filter_le S fun t => ¬Le cache t (r 0)
    have hleft : changesLeft cache S (r 0) ≤ 3 * S.card + 2 := by
      unfold changesLeft
      convert Nat.add_le_add (Nat.mul_le_mul_left 3 hfilter) hsteps
    omega

/-- The hierarchy of `Object` only. -/
def objectOnly : Hierarchy Unit where
  object := ()
  superclass _ := none
  isInterface _ := false
  isFinal _ := false
  ifTable _ := []
  arrayIfTable := []
  depth _ := 0
  superclass_eq_none := ⟨fun _ => rfl, fun _ => rfl⟩
  depth_superclass h := by cases h
  depth_object := rfl
  superclass_interface h := by cases h
  not_isInterface_superclass h := by cases h
  not_isFinal_superclass h := by cases h
  not_isFinal_interface h := by cases h
  not_isFinal_object := rfl
  ifTable_object := rfl
  isInterface_of_mem h := by cases h
  ifTable_superclass h := by cases h
  ifTable_trans h := by cases h
  isInterface_of_mem_array h := by cases h
  arrayIfTable_trans h := by cases h

/-- Merging `0` and an unresolved type, and then `Object`. -/
theorem mergeAll_absorbs_object : let cache : RegTypeCache Unit := ⟨objectOnly, fun _ => false⟩
    let f : Class Unit → Bool := fun _ => false
    let l := [(f, unresolved 20), (f, ref (.named ()) false)]
    (∀ x ∈ l, x.2.IsValid cache) ∧ ∃ r', mergeAll cache zero l = some r' ∧
      ∀ t ∈ zero :: l.map Prod.snd, ∀ foundPrecise,
        safeMerge cache foundPrecise r' t = some r' ∨ IsUnabsorbed r' t := by
  intro cache f l
  have hl : ∀ x ∈ l, x.2.IsValid cache := by
    intro x hx
    rcases List.mem_pair.1 hx with rfl | rfl
    · trivial
    · rfl
  exact ⟨hl, (mergeAll_absorbs cache).1 zero l trivial hl⟩

/-- Merging `5`, `-3` and `-200` gives an imprecise `-200`, which merged with `5` is `ShortConstant`. -/
theorem mergeAll_constants : let cache : RegTypeCache Unit := ⟨objectOnly, fun _ => false⟩
    let f : Class Unit → Bool := fun _ => false
    mergeAll cache (const 5 true) [(f, const (-3) true), (f, const (-200) true)] = some (const (-200) false) ∧
      safeMerge cache f (const (-200) false) (const 5 true) = some shortConstant ∧
        (shortConstant : RegType Unit) ≠ const (-200) false := by
  decide

end RegType
end Art
