import Mathlib.Algebra.Order.Ring.Nat

/-!
# Loops over ranges

The invariant rules for a loop over the numbers below `n`, and for one whose body may fail:
if the body succeeds and keeps the invariant, so does the loop. Also the rule for a loop with
a condition.
-/

namespace Loop

variable {σ : Type} {P : ℕ → σ → Prop} {n : ℕ} {s : σ}

lemma foldl_range {f : σ → ℕ → σ} (h0 : P 0 s) (hstep : ∀ i < n, ∀ s, P i s → P (i + 1) (f s i)) :
    P n ((List.range n).foldl f s) := by
  induction n with
  | zero => exact h0
  | succ n ih =>
    rw [List.range_succ, List.foldl_append, List.foldl_cons, List.foldl_nil]
    exact hstep n (Nat.lt_succ_self n) _ (ih fun i hi => hstep i (by omega))

lemma foldlM_range {f : σ → ℕ → Option σ} (h0 : P 0 s)
    (hstep : ∀ i < n, ∀ s, P i s → ∃ s', f s i = some s' ∧ P (i + 1) s') :
    ∃ s', (List.range n).foldlM f s = some s' ∧ P n s' := by
  induction n with
  | zero => exact ⟨s, rfl, h0⟩
  | succ n ih =>
    obtain ⟨s', hs', hP⟩ := ih fun i hi => hstep i (by omega)
    obtain ⟨s'', hs'', hP'⟩ := hstep n (Nat.lt_succ_self n) s' hP
    refine ⟨s'', ?_, hP'⟩
    rw [List.range_succ, List.foldlM_append, hs']
    simpa using hs''

/-- A loop that collects a result of each round. If each round keeps an invariant and goes on in a
    preorder that keeps what is known of results, all results are known at the end. -/
lemma foldlM_collect {α β : Type} {f : σ → α → Option (σ × β)} {P : σ → Prop} {R : σ → σ → Prop}
    {Q : σ → α → β → Prop} (hrefl : ∀ s, R s s) (htrans : ∀ s t u, R s t → R t u → R s u)
    (hmono : ∀ s t a b, R s t → Q s a b → Q t a b) {l : List α}
    (hstep : ∀ a ∈ l, ∀ s s' b, P s → f s a = some (s', b) → P s' ∧ R s s' ∧ Q s' a b) {s' : σ}
    {r r' : List β} (hs : P s) (h : l.foldlM (fun (s, r) a => do
      let (s, b) ← f s a
      return (s, r ++ [b])) (s, r) = some (s', r')) :
    P s' ∧ R s s' ∧ ∃ bs, r' = r ++ bs ∧ List.Forall₂ (Q s') l bs := by
  induction l generalizing s r with
  | nil =>
    obtain ⟨rfl, rfl⟩ := Prod.mk.inj (Option.some.inj h)
    exact ⟨hs, hrefl s, [], (List.append_nil r).symm, .nil⟩
  | cons a l ih =>
    obtain ⟨next, hnext, h⟩ := Option.bind_eq_some_iff.mp h
    obtain ⟨⟨t, b⟩, hb, hnext⟩ := Option.bind_eq_some_iff.mp hnext
    obtain rfl := Option.some.inj hnext
    obtain ⟨ht, hR, hQ⟩ := hstep a List.mem_cons_self s t b hs hb
    obtain ⟨hs', hR', bs, hbs, hall⟩ := ih (fun a ha => hstep a (List.mem_cons_of_mem _ ha)) ht h
    refine ⟨hs', htrans _ _ _ hR hR', b :: bs, ?_, .cons (hmono _ _ _ _ hR' hQ) hall⟩
    rw [hbs, List.append_assoc, List.singleton_append]

/-- A loop with a condition, whose body may fail; `fuel` bounds the number of rounds. -/
def whileM (cond : σ → Bool) (body : σ → Option σ) : ℕ → σ → Option σ
  | 0, s => if cond s then none else some s
  | fuel + 1, s => if cond s then (body s).bind (whileM cond body fuel) else some s

/-- If the body succeeds, keeps an invariant and decreases a measure, the loop ends. -/
lemma whileM_rule (cond : σ → Bool) (body : σ → Option σ) {P : σ → Prop} (μ : σ → ℕ)
    (hbody : ∀ s, P s → cond s = true → ∃ s', body s = some s' ∧ P s' ∧ μ s' < μ s) {fuel : ℕ}
    (h : P s) (hfuel : μ s ≤ fuel) : ∃ s', whileM cond body fuel s = some s' ∧ P s' ∧ cond s' = false := by
  induction fuel generalizing s with
  | zero =>
    cases hs : cond s with
    | false => exact ⟨s, by simp [whileM, hs], h, hs⟩
    | true =>
      obtain ⟨s', -, -, hlt⟩ := hbody s h hs
      omega
  | succ fuel ih =>
    rw [whileM]
    cases hs : cond s with
    | false => exact ⟨s, by simp, h, hs⟩
    | true =>
      obtain ⟨s', hs', h', hlt⟩ := hbody s h hs
      rw [if_pos rfl, hs']
      exact ih h' (by omega)

end Loop
