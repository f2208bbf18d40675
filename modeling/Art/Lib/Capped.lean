import Mathlib
import Art.Lib.AssocMap

/-!
# Joins of sets and maps

Sets that become full when they reach a number of elements form a join semilattice, and so do maps with
values in one. Merging two maps by key is the join if merging two values is.
-/

/-- A set of fewer than `n` elements, or a full one. -/
inductive Capped (τ : Type) (n : ℕ)
  | set (s : Finset τ) (h : s.card < n)
  | full

namespace Capped

variable {τ : Type} {n : ℕ}

/-- The set, or a full one if it has too many elements. -/
def ofFinset (s : Finset τ) : Capped τ n := if h : s.card < n then set s h else full

variable {s : Finset τ}

lemma ofFinset_of_le (h : n ≤ s.card) : (ofFinset s : Capped τ n) = full := dif_neg (not_lt_of_ge h)

lemma ofFinset_of_lt (h : s.card < n) : (ofFinset s : Capped τ n) = set s h := dif_pos h

variable [DecidableEq τ]

instance : Max (Capped τ n) where
  max
    | set s _, set t _ => ofFinset (s ∪ t)
    | _, _ => full

@[simp] lemma set_sup_set {t : Finset τ} {hs : s.card < n} {ht : t.card < n} :
    (set s hs : Capped τ n) ⊔ set t ht = ofFinset (s ∪ t) := rfl

variable (x : Capped τ n)

@[simp] lemma full_sup : full ⊔ x = full := rfl

@[simp] lemma sup_full : x ⊔ full = full := by cases x <;> rfl

/-- The join of two sets is their union. -/
lemma ofFinset_union (s t : Finset τ) : (ofFinset (s ∪ t) : Capped τ n) = ofFinset s ⊔ ofFinset t := by
  by_cases hs : s.card < n
  · by_cases ht : t.card < n
    · rw [ofFinset_of_lt hs, ofFinset_of_lt ht, set_sup_set]
    · rw [ofFinset_of_le (not_lt.1 ht), sup_full, ofFinset_of_le]
      exact (not_lt.1 ht).trans (Finset.card_le_card Finset.subset_union_right)
  · rw [ofFinset_of_le (not_lt.1 hs), full_sup, ofFinset_of_le]
    exact (not_lt.1 hs).trans (Finset.card_le_card Finset.subset_union_left)

omit [DecidableEq τ] in
lemma eq_ofFinset_or_full : x = full ∨ ∃ s, x = ofFinset s := by
  cases x with
  | full => exact .inl rfl
  | set s h => exact .inr ⟨s, (ofFinset_of_lt h).symm⟩

instance : SemilatticeSup (Capped τ n) := SemilatticeSup.mk'
  (fun x y => by
    rcases x.eq_ofFinset_or_full with rfl | ⟨s, rfl⟩ <;>
      rcases y.eq_ofFinset_or_full with rfl | ⟨t, rfl⟩ <;> simp [← ofFinset_union, Finset.union_comm])
  (fun x y z => by
    rcases x.eq_ofFinset_or_full with rfl | ⟨s, rfl⟩ <;>
      rcases y.eq_ofFinset_or_full with rfl | ⟨t, rfl⟩ <;>
        rcases z.eq_ofFinset_or_full with rfl | ⟨u, rfl⟩ <;>
          simp [← ofFinset_union, Finset.union_assoc])
  fun x => by
    rcases x.eq_ofFinset_or_full with rfl | ⟨s, rfl⟩ <;> simp [← ofFinset_union]

@[simp] lemma ofFinset_empty_sup : ofFinset ∅ ⊔ x = x := by
  rcases x.eq_ofFinset_or_full with rfl | ⟨s, rfl⟩ <;> simp [← ofFinset_union]

/-- The empty set is joined in nothing, also below a further element. -/
@[simp] lemma coe_ofFinset_empty_sup (x : WithTop (Capped τ n)) :
    ((ofFinset ∅ : Capped τ n) : WithTop (Capped τ n)) ⊔ x = x := by
  cases x with
  | top => rfl
  | coe x => rw [← WithTop.coe_sup, ofFinset_empty_sup]

end Capped

namespace AssocMap

variable {κ ν μ L : Type} [DecidableEq κ]

/-- What an optional value stands for. -/
def lift (g : ν → L) (o : Option ν) : WithBot L := o.map g

/-- What the values of a map stand for, with a bottom element for keys without value. -/
def denote (g : ν → L) (m : AssocMap κ ν) (k : κ) : WithBot L := lift g (m.get? k)

/-- All values of a map meet `P`. -/
def Forall (P : ν → Prop) (m : AssocMap κ ν) : Prop := ∀ k v, m.get? k = some v → P v

lemma forall_empty (P : ν → Prop) : Forall P (empty : AssocMap κ ν) := fun _ _ h => by cases h

variable {P : ν → Prop} {m : AssocMap κ ν}

lemma forall_of_entries (h : ∀ e ∈ m.entries, P e.2) : m.Forall P := by
  intro k v hv
  obtain ⟨l1, l2, hl, -⟩ := List.lookup_eq_some_iff.1 hv
  exact h (k, v) (hl ▸ List.mem_append_right _ List.mem_cons_self)

lemma Forall.of_mem (h : m.Forall P) {e : κ × ν} (he : e ∈ m.entries) : P e.2 := by
  refine h e.1 e.2 ?_
  obtain ⟨l1, l2, hl⟩ := List.append_of_mem he
  refine List.lookup_eq_some_iff.2 ⟨l1, l2, hl, fun e' he' => ?_⟩
  -- an earlier entry with the key would be a second one
  rw [bne_iff_ne]
  intro heq
  have hnodup := m.nodup
  rw [hl, List.map_append, List.map_cons, List.nodup_append'] at hnodup
  exact hnodup.2.2 (List.mem_map_of_mem he') (heq ▸ List.mem_cons_self)

variable {g : ν → L}

/-- What a map says depends on the meaning of its values only. -/
lemma denote_congr {f : ν → L} (hm : m.Forall P) (h : ∀ v, P v → f v = g v) : m.denote f = m.denote g := by
  funext k
  unfold denote
  cases hk : m.get? k with
  | none => rfl
  | some v => exact congrArg WithBot.some (h v (hm k v hk))

/-- Merging is the join if it is for the values. -/
lemma denote_merge [SemilatticeSup L] {f : Option ν → κ → μ → Option ν} {g' : μ → L}
    {P' : μ → Prop} (hf : ∀ o k v w, (∀ x, o = some x → P x) → P' v → f o k v = some w →
      P w ∧ lift g (some w) = lift g o ⊔ lift g' (some v)) {m' : AssocMap κ ν}
    {other : AssocMap κ μ} (hm : m.Forall P) (hother : other.Forall P')
    (h : m.merge f other = some m') : m'.Forall P ∧ m'.denote g = m.denote g ⊔ other.denote g' := by
  have hkey : ∀ k, (∀ v, m'.get? k = some v → P v) ∧
      m'.denote g k = m.denote g k ⊔ other.denote g' k := fun k => by
    obtain ⟨hnone, hsome⟩ := get?_mergeList other.nodup h k
    cases ho : other.get? k with
    | none =>
      refine ⟨fun v hv => hm k v (hnone ho ▸ hv), ?_⟩
      rw [denote, denote, denote, hnone ho, ho]
      exact (sup_bot_eq _).symm
    | some v =>
      obtain ⟨w, hw, hget⟩ := hsome v ho
      obtain ⟨hP, hsup⟩ := hf _ k v w (fun x hx => hm k x hx) (hother k v ho) hw
      refine ⟨fun v' hv' => ?_, ?_⟩
      · obtain rfl := Option.some.inj (hget.symm.trans hv')
        exact hP
      · rw [denote, denote, denote, hget, ho]
        exact hsup
  exact ⟨fun k v hv => (hkey k).1 v hv, funext fun k => (hkey k).2⟩

end AssocMap
