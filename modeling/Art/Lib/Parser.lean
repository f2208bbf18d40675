import Mathlib.Data.List.GetD
import Mathlib.Tactic.Ring

/-!
# Parsers that consume a prefix

A parser reads a value off the front of a list of tokens and returns the rest.

* `Consumes p c v`: on the tokens `c`, whatever follows them, the parser `p` returns `v`
  and stops right after `c`; `Consumes.bind` and `consumes_mapM` compose it;
* `Local p`: whatever `p` accepts, it consumes in that sense, so that its answer does
  not depend on what comes later nor on where the tokens stand.

`toNat` and `ofNat` relate numbers and lists of bits, least significant bit first.
-/

namespace Parsing

open List

open Option (bind_eq_some_iff)

variable {τ α β : Type}

/-- A parser over tokens of type `τ`. -/
abbrev Parser (τ α : Type) := StateT (List τ) Option α

/-- The next `n` tokens. -/
def take (n : ℕ) : Parser τ (List τ) := fun l =>
  if l.length < n then none else some (l.take n, l.drop n)

/-- The parser returns `v` on the tokens `c` and stops right after them. -/
def Consumes (p : Parser τ α) (c : List τ) (v : α) : Prop := ∀ r, p (c ++ r) = some (v, r)

/-- Whatever the parser accepts, it consumes. -/
def Local (p : Parser τ α) : Prop := ∀ ⦃l v r⦄, p l = some (v, r) → ∃ c, l = c ++ r ∧ Consumes p c v

lemma consumes_pure (v : α) : Consumes (pure v : Parser τ α) [] v := fun _ => rfl

variable {f : α → Parser τ β} {p : Parser τ α} {c : List τ} {v : α}

lemma Consumes.bind {d : List τ} {w : β} (hp : Consumes p c v) (hf : Consumes (f v) d w) :
    Consumes (p >>= f) (c ++ d) w := by
  intro r
  show (p (c ++ d ++ r)).bind (fun q => f q.1 q.2) = _
  rw [append_assoc, hp]
  exact hf r

lemma Consumes.map (hp : Consumes p c v) (f : α → β) : Consumes (f <$> p) c (f v) := by
  intro r
  show (p (c ++ r)).bind (fun q => some (f q.1, q.2)) = _
  rw [hp]
  rfl

lemma consumes_take (c : List τ) : Consumes (take c.length) c c := by
  intro r
  rw [take, if_neg (by simp), take_left, drop_left]

lemma consumes_mapM {l : List α} {enc : α → List τ} {val : α → β}
    (h : ∀ x ∈ l, Consumes (f x) (enc x) (val x)) : Consumes (l.mapM f) (l.flatMap enc) (l.map val) := by
  induction l with
  | nil => exact consumes_pure []
  | cons x l ih =>
    rw [mapM_cons, flatMap_cons, map_cons, ← append_nil (l.flatMap enc)]
    exact (h x (by simp)).bind ((ih fun y hy => h y (by simp [hy])).bind (consumes_pure _))

variable {l r : List τ}

lemma eq_of_pure {w : α} (h : (pure v : Parser τ α) l = some (w, r)) : v = w ∧ l = r :=
  Prod.mk.inj (Option.some.inj h)

lemma local_pure (v : α) : Local (pure v : Parser τ α) := by
  intro l w r h
  obtain ⟨rfl, rfl⟩ := eq_of_pure h
  exact ⟨[], rfl, consumes_pure v⟩

lemma Local.bind (hp : Local p) (hf : ∀ v, Local (f v)) : Local (p >>= f) := by
  intro l w r h
  obtain ⟨⟨v, l'⟩, hv, hw⟩ := bind_eq_some_iff.1 h
  obtain ⟨c, rfl, hc⟩ := hp hv
  obtain ⟨d, rfl, hd⟩ := hf v hw
  exact ⟨c ++ d, by rw [append_assoc], hc.bind hd⟩

lemma Local.map (hp : Local p) (f : α → β) : Local (f <$> p) := by
  intro l w r h
  obtain ⟨⟨v, l'⟩, hv, hw⟩ := bind_eq_some_iff.1 h
  obtain ⟨c, rfl, hc⟩ := hp hv
  obtain ⟨rfl, rfl⟩ := eq_of_pure hw
  exact ⟨c, rfl, hc.map f⟩

variable {n : ℕ}

lemma length_of_take {v : List τ} (h : take n l = some (v, r)) : v.length = n := by
  unfold take at h
  split at h
  next => cases h
  next hlen =>
    obtain ⟨rfl, -⟩ : l.take n = v ∧ l.drop n = r := by simpa using h
    rw [length_take]
    omega

lemma local_take (n : ℕ) : Local (take n : Parser τ (List τ)) := by
  intro l v r h
  unfold take at h
  split at h
  next => cases h
  next hlen =>
    obtain ⟨rfl, rfl⟩ : l.take n = v ∧ l.drop n = r := by simpa using h
    have hn : (l.take n).length = n := by rw [length_take]; omega
    refine ⟨l.take n, (take_append_drop ..).symm, ?_⟩
    have := consumes_take (τ := τ) (l.take n)
    rwa [hn] at this

lemma local_mapM (hf : ∀ x, Local (f x)) (l : List α) : Local (l.mapM f) := by
  induction l with
  | nil => exact local_pure []
  | cons x l ih =>
    rw [mapM_cons]
    exact (hf x).bind fun v => ih.bind fun vs => local_pure (v :: vs)

variable {vs : List β}

/-- What holds of every value a parser can return holds of the values of a list. -/
lemma mapM_forall {Q : β → Prop} {as : List α} (hf : ∀ a ∈ as, ∀ l v r, f a l = some (v, r) → Q v)
    (h : as.mapM f l = some (vs, r)) : vs.length = as.length ∧ ∀ v ∈ vs, Q v := by
  induction as generalizing l vs with
  | nil =>
    obtain ⟨rfl, rfl⟩ := eq_of_pure h
    simp
  | cons a as ih =>
    rw [mapM_cons] at h
    obtain ⟨⟨v, l'⟩, hv, h'⟩ := bind_eq_some_iff.1 h
    obtain ⟨⟨ws, l''⟩, hws, h''⟩ := bind_eq_some_iff.1 h'
    obtain ⟨rfl, rfl⟩ := eq_of_pure h''
    obtain ⟨hlen, hall⟩ := ih (fun b hb => hf b (by simp [hb])) hws
    exact ⟨by simp [hlen], forall_mem_cons.2 ⟨hf a (by simp) _ _ _ hv, hall⟩⟩

variable {f : ℕ → Parser τ β}

/-- Parsing one item after the other; `S i` is what is left before the item `i`. -/
lemma mapM_range {val : ℕ → β} {S : ℕ → List τ} (h : ∀ i < n, f i (S i) = some (val i, S (i + 1))) :
    (range n).mapM f (S 0) = some ((range n).map val, S n) := by
  induction n with
  | zero => rfl
  | succ n ih =>
    rw [range_succ, mapM_append, map_append]
    refine bind_eq_some_iff.2 ⟨_, ih fun i hi => h i (by omega), ?_⟩
    refine bind_eq_some_iff.2 ⟨([val n], S (n + 1)), ?_, rfl⟩
    rw [mapM_cons]
    exact bind_eq_some_iff.2 ⟨_, h n (by omega), rfl⟩

/-- What was left before each item of a list that was parsed. -/
lemma exists_of_mapM_range (d : β) (h : (range n).mapM f l = some (vs, r)) : vs.length = n ∧
      ∃ S : ℕ → List τ, S 0 = l ∧ S n = r ∧ ∀ i < n, f i (S i) = some (vs.getD i d, S (i + 1)) := by
  induction n generalizing r vs with
  | zero =>
    obtain ⟨rfl, rfl⟩ := eq_of_pure h
    exact ⟨rfl, fun _ => l, rfl, rfl, fun i hi => absurd hi (by omega)⟩
  | succ n ih =>
    rw [range_succ, mapM_append] at h
    obtain ⟨⟨ws, l'⟩, hws, h'⟩ := bind_eq_some_iff.1 h
    obtain ⟨⟨us, l''⟩, hv, h''⟩ := bind_eq_some_iff.1 h'
    obtain ⟨rfl, rfl⟩ := eq_of_pure h''
    obtain ⟨⟨v, m⟩, hf, hnil⟩ := bind_eq_some_iff.1 hv
    obtain ⟨rfl, rfl⟩ := eq_of_pure hnil
    obtain ⟨hlen, S, h0, hn, hS⟩ := ih hws
    refine ⟨by simp [hlen], fun i => if i ≤ n then S i else m, h0, by simp, fun i hi => ?_⟩
    rcases Nat.lt_succ_iff_lt_or_eq.1 hi with hlt | rfl
    · rw [getD_append _ _ _ _ (by omega)]
      simpa [hlt.le, Nat.succ_le_iff.2 hlt] using hS i hlt
    · rw [getD_append_right _ _ _ _ (by omega)]
      simpa [hlen, hn] using hf

/-! ## Numbers as bits -/

/-- The number with the given bits, least significant first. -/
def toNat : List Bool → ℕ
  | [] => 0
  | b :: l => b.toNat + 2 * toNat l

/-- The `n` low bits of a number, least significant first. -/
def ofNat : ℕ → ℕ → List Bool
  | 0, _ => []
  | n + 1, v => v.testBit 0 :: ofNat n (v / 2)

@[simp] lemma length_ofNat (n v : ℕ) : (ofNat n v).length = n := by
  induction n generalizing v with
  | zero => rfl
  | succ n ih => simp [ofNat, ih]

lemma toNat_lt (l : List Bool) : toNat l < 2 ^ l.length := by
  induction l with
  | nil => simp [toNat]
  | cons b l ih =>
    have hb := Bool.toNat_le b
    rw [toNat, length_cons, pow_succ]
    omega

lemma toNat_ofNat {v : ℕ} (h : v < 2 ^ n) : toNat (ofNat n v) = v := by
  induction n generalizing v with
  | zero =>
    rw [pow_zero, Nat.lt_one_iff] at h
    rw [h]
    rfl
  | succ n ih =>
    have hb : (v.testBit 0).toNat = v % 2 := by
      rw [Nat.testBit_zero]
      rcases Nat.mod_two_eq_zero_or_one v with h | h <;> simp [h]
    rw [ofNat, toNat, ih (by rw [pow_succ] at h; omega), hb]
    omega

lemma toNat_append (l l' : List Bool) : toNat (l ++ l') = toNat l + 2 ^ l.length * toNat l' := by
  induction l with
  | nil => simp [toNat]
  | cons b l ih =>
    rw [cons_append, toNat, ih, toNat, length_cons, pow_succ]
    ring

lemma testBit_toNat (l : List Bool) (i : ℕ) : (toNat l).testBit i = l.getD i false := by
  induction l generalizing i with
  | nil => simp [toNat]
  | cons b l ih =>
    cases i with
    | zero => cases b <;> simp [toNat]
    | succ i =>
      have hb := Bool.toNat_le b
      rw [Nat.testBit_succ, toNat, show (b.toNat + 2 * toNat l) / 2 = toNat l by omega, ih, getD_cons_succ]

lemma ofNat_eq_map (n v : ℕ) : ofNat n v = (range n).map v.testBit := by
  induction n generalizing v with
  | zero => rfl
  | succ n ih =>
    rw [ofNat, ih, range_succ_eq_map, map_cons, map_map]
    congr 1
    exact map_congr_left fun j _ => (Nat.testBit_succ v j).symm

/-- The number of the next `n` bits. -/
def readBits (n : ℕ) : Parser Bool ℕ := toNat <$> take n

lemma consumes_readBits {v : ℕ} (h : v < 2 ^ n) : Consumes (readBits n) (ofNat n v) v := by
  have := (consumes_take (ofNat n v)).map toNat
  rwa [length_ofNat, toNat_ofNat h] at this

lemma local_readBits (n : ℕ) : Local (readBits n) := (local_take n).map toNat

end Parsing
