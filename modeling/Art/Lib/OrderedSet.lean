import Mathlib.Data.List.Nodup
import Mathlib.Data.List.Pairwise
import Mathlib.Data.List.TakeWhile

/-!
# Ordered sets as sorted lists

A set ordered by a comparison, kept as the list of its members in ascending
order. The comparison may change from one operation to the next, as it does when
it reads records the members point to: what an operation needs is that its list
is sorted by the comparison it is called with.
-/

namespace OrderedSet

open List

variable {α : Type*} (p : α → Bool) (l : List α)

/-- The members below a key. -/
def below : List α := l.takeWhile p

/-- The iterator to the first member that is not below the key, as the rest of the list from there. -/
def lowerBound : List α := l.dropWhile p

/-- Erases the member that `lowerBound` points to. -/
def eraseAt : List α := below p l ++ (lowerBound p l).tail

/-- Inserts `x` in its place, unless an equivalent member stands there. -/
def insert (lt : α → α → Bool) (x : α) (l : List α) : List α :=
  match lowerBound (lt · x) l with
  | [] => below (lt · x) l ++ [x]
  | y :: rest => below (lt · x) l ++ if lt x y then x :: y :: rest else y :: rest

lemma below_append_lowerBound : below p l ++ lowerBound p l = l := takeWhile_append_dropWhile

variable {p : α → Bool} {l : List α} {x : α} {rest : List α}

lemma not_lt_of_lowerBound (h : lowerBound p l = x :: rest) : p x = false := by
  have hne : lowerBound p l ≠ [] := by simp [h]
  have hhead : p ((lowerBound p l).head hne) = false := head_dropWhile_not p hne
  have : (lowerBound p l).head hne = x := by simp [h]
  rwa [this] at hhead

lemma mem_of_lowerBound (h : lowerBound p l = x :: rest) : x ∈ l := by
  rw [← below_append_lowerBound p l, h]
  simp

lemma lt_of_lowerBound_nil (h : lowerBound p l = []) (hx : x ∈ l) : p x = true := by
  rw [← below_append_lowerBound p l, h, append_nil] at hx
  exact mem_takeWhile_imp hx

lemma eraseAt_sublist (p : α → Bool) (l : List α) : (eraseAt p l).Sublist l := by
  conv_rhs => rw [← below_append_lowerBound p l]
  exact (tail_sublist _).append_left _

variable {y : α}

/-- Erasing through an iterator removes the member it points to and no other. -/
lemma mem_eraseAt (hl : l.Nodup) (h : lowerBound p l = x :: rest) : y ∈ eraseAt p l ↔ y ∈ l ∧ y ≠ x := by
  have hsplit : l = below p l ++ x :: rest := by rw [← h, below_append_lowerBound]
  have hnodup : (below p l ++ x :: rest).Nodup := hsplit ▸ hl
  have hx : x ∉ below p l ∧ x ∉ rest := by
    have := nodup_middle.1 hnodup
    simpa using (nodup_cons.1 this).1
  have hmem : y ∈ l ↔ y ∈ below p l ∨ y = x ∨ y ∈ rest := by
    conv_lhs => rw [hsplit]
    simp
  have herase : y ∈ eraseAt p l ↔ y ∈ below p l ∨ y ∈ rest := by simp [eraseAt, h]
  rw [hmem, herase]
  constructor
  · rintro (hy | hy)
    · exact ⟨.inl hy, fun he => hx.1 (he ▸ hy)⟩
    · exact ⟨.inr (.inr hy), fun he => hx.2 (he ▸ hy)⟩
  · rintro ⟨hy | hy | hy, hne⟩
    · exact .inl hy
    · exact absurd hy hne
    · exact .inr hy

/-- A comparison is a strict order that decides between any two members. -/
structure IsStrict (lt : α → α → Bool) : Prop where
  irrefl : ∀ x, lt x x = false
  trans : ∀ x y z, lt x y = true → lt y z = true → lt x z = true
  total : ∀ x y, x ≠ y → lt x y = true ∨ lt y x = true

variable {lt : α → α → Bool} (hlt : IsStrict lt)
include hlt

lemma IsStrict.nodup (hl : l.Pairwise (lt · ·)) : l.Nodup := hl.imp fun {a b} hab he => by
    have : lt a b = true := hab
    simp [he, hlt.irrefl] at this

/-- A member is where its own key says it is. -/
lemma IsStrict.lowerBound_self (hl : l.Pairwise (lt · ·)) (hx : x ∈ l) :
    ∃ rest, lowerBound (lt · x) l = x :: rest := by
  induction l with
  | nil => simp at hx
  | cons a l ih =>
    obtain ⟨ha, hl⟩ := pairwise_cons.1 hl
    rcases mem_cons.1 hx with rfl | hx
    · exact ⟨l, by simp [lowerBound, hlt.irrefl]⟩
    · obtain ⟨rest, hrest⟩ := ih hl hx
      have hax : lt a x = true := ha x hx
      exact ⟨rest, by simpa [lowerBound, hax] using hrest⟩

lemma IsStrict.mem_insert : y ∈ insert lt x l ↔ y = x ∨ y ∈ l := by
  have hmem : y ∈ l ↔ y ∈ below (lt · x) l ∨ y ∈ lowerBound (lt · x) l := by
    rw [← mem_append, below_append_lowerBound]
  rw [hmem, insert]
  cases h : lowerBound (lt · x) l with
  | nil => simp [or_comm]
  | cons z rest =>
    dsimp only
    split
    · simp only [mem_append, mem_cons]
      tauto
    · rename_i hxz
      have hzx : z = x := by
        by_contra hne
        have hzx := not_lt_of_lowerBound h
        rcases hlt.total z x hne with h' | h'
        · simp [h'] at hzx
        · exact hxz h'
      subst hzx
      simp only [mem_append, mem_cons]
      tauto

/-- Insertion keeps the order. -/
lemma IsStrict.pairwise_insert (hl : l.Pairwise (lt · ·)) : (insert lt x l).Pairwise (lt · ·) := by
  have hsplit := below_append_lowerBound (lt · x) l
  rw [insert]
  cases h : lowerBound (lt · x) l with
  | nil =>
    rw [h, append_nil] at hsplit
    refine pairwise_append.2 ⟨by rwa [hsplit], by simp, ?_⟩
    intro a ha b hb
    rw [mem_singleton.1 hb]
    exact mem_takeWhile_imp (p := (lt · x)) ha
  | cons y rest =>
    rw [h] at hsplit
    have hparts := pairwise_append.1 (hsplit ▸ hl)
    dsimp only
    split
    · rename_i hxy
      obtain ⟨hbelow, hrest, hcross⟩ := hparts
      refine pairwise_append.2 ⟨hbelow, pairwise_cons.2 ⟨?_, hrest⟩, ?_⟩
      · intro b hb
        rcases mem_cons.1 hb with rfl | hb
        · exact hxy
        · exact hlt.trans _ _ _ hxy ((pairwise_cons.1 hrest).1 b hb)
      · intro a ha b hb
        rcases mem_cons.1 hb with rfl | hb
        · exact mem_takeWhile_imp (p := (lt · b)) ha
        · exact hcross a ha b hb
    · rw [hsplit]
      exact hl

end OrderedSet
