import Mathlib.Algebra.Order.Ring.Nat
import Mathlib.Algebra.BigOperators.Group.List.Basic
import Mathlib.Data.List.Chain

/-!
# Consecutive blocks

A region cut into blocks that follow each other without gaps, each of them free
or allocated: the abstract state of an allocator that keeps its blocks in one
chain.
-/

/-- A block of a region: its length and whether it is free. -/
structure Block where
  size : Nat
  free : Bool
  deriving DecidableEq, Repr

namespace Block

open List

/-- The free length a block leaves before the one that follows it. -/
def freeSize (b : Block) : Nat := if b.free then b.size else 0

/-- The length of a list of blocks. -/
def total (bs : List Block) : Nat := (bs.map size).sum

/-- The free length right before the end of a list of blocks, `p` being what is
    right before its start. -/
def freeBefore : Nat → List Block → Nat
  | p, [] => p
  | _, b :: bs => freeBefore b.freeSize bs

/-- The offsets of the blocks, the first being at `a`. -/
def starts : Nat → List Block → List Nat
  | _, [] => []
  | a, b :: bs => a :: starts (a + b.size) bs

/-- The offsets and lengths of the allocated blocks, the first block being at `a`. -/
def allocated : Nat → List Block → List (Nat × Nat)
  | _, [] => []
  | a, b :: bs => (if b.free then [] else [(a, b.size)]) ++ allocated (a + b.size) bs

/-- The offsets of the blocks with free length before them. -/
def marked : Nat → Nat → List Block → List Nat
  | _, _, [] => []
  | a, p, b :: bs => (if p = 0 then [] else [a]) ++ marked (a + b.size) b.freeSize bs

/-- No block is empty, no free block is next to another one, and the last block is not free. -/
def Coalesced : List Block → Prop
  | [] => True
  | [b] => 0 < b.size ∧ b.free = false
  | b :: c :: bs => 0 < b.size ∧ (b.free = true → c.free = false) ∧ Coalesced (c :: bs)

@[simp]
lemma total_nil : total [] = 0 := rfl

@[simp]
lemma total_cons (b : Block) (bs : List Block) : total (b :: bs) = b.size + total bs := by
  simp [total]

@[simp]
lemma total_append (bs cs : List Block) : total (bs ++ cs) = total bs + total cs := by
  simp [total]

@[simp]
lemma freeBefore_append (p : Nat) (bs cs : List Block) :
    freeBefore p (bs ++ cs) = freeBefore (freeBefore p bs) cs := by
  induction bs generalizing p with
  | nil => rfl
  | cons b bs ih => exact ih _

@[simp]
lemma allocated_append (a : Nat) (bs cs : List Block) :
    allocated a (bs ++ cs) = allocated a bs ++ allocated (a + total bs) cs := by
  induction bs generalizing a with
  | nil => simp [allocated]
  | cons b bs ih => simp [allocated, ih, add_assoc]

@[simp]
lemma marked_append (a p : Nat) (bs cs : List Block) :
    marked a p (bs ++ cs) = marked a p bs ++ marked (a + total bs) (freeBefore p bs) cs := by
  induction bs generalizing a p with
  | nil => simp [marked, freeBefore]
  | cons b bs ih => simp [marked, freeBefore, ih, add_assoc]

variable {bs cs : List Block} {a x n : Nat}

/-- An allocated block splits the list it is in. -/
lemma exists_of_mem_allocated (h : (x, n) ∈ allocated a bs) :
    ∃ pre post, bs = pre ++ ⟨n, false⟩ :: post ∧ x = a + total pre := by
  induction bs generalizing a with
  | nil => simp [allocated] at h
  | cons b bs ih =>
    rcases mem_append.1 h with h | h
    · cases hb : b.free with
      | true => simp [hb] at h
      | false =>
        simp only [hb, Bool.false_eq_true, if_false, mem_singleton, Prod.mk.injEq] at h
        refine ⟨[], bs, ?_, by simp [h.1]⟩
        rw [h.2, ← hb]
        rfl
    · obtain ⟨pre, post, rfl, hx⟩ := ih h
      exact ⟨b :: pre, post, rfl, by simp [hx, add_assoc]⟩

lemma mem_starts : x ∈ starts a bs ↔ ∃ pre b post, bs = pre ++ b :: post ∧ x = a + total pre := by
  induction bs generalizing a with
  | nil => simp [starts]
  | cons b bs ih =>
    rw [starts, mem_cons, ih]
    constructor
    · rintro (rfl | ⟨pre, c, post, rfl, rfl⟩)
      · exact ⟨[], b, bs, rfl, by simp⟩
      · exact ⟨b :: pre, c, post, rfl, by simp [add_assoc]⟩
    · rintro ⟨pre, c, post, heq, rfl⟩
      cases pre with
      | nil => exact .inl (by simp)
      | cons d pre =>
        obtain ⟨rfl, rfl⟩ := cons.inj heq
        exact .inr ⟨pre, c, post, rfl, by simp [add_assoc]⟩

variable {p : Nat}

/-- A marked block splits the list between it and the free length before it. -/
lemma exists_of_mem_marked (h : x ∈ marked a p bs) :
    ∃ pre b post, bs = pre ++ b :: post ∧ x = a + total pre ∧ freeBefore p pre ≠ 0 := by
  induction bs generalizing a p with
  | nil => simp [marked] at h
  | cons b bs ih =>
    rcases mem_append.1 h with h | h
    · by_cases hp : p = 0
      · simp [hp] at h
      · simp only [hp, if_false, mem_singleton] at h
        exact ⟨[], b, bs, rfl, by simp [h], hp⟩
    · obtain ⟨pre, c, post, rfl, hx, hfree⟩ := ih h
      exact ⟨b :: pre, c, post, rfl, by simp [hx, add_assoc], hfree⟩

/-! ## Coalesced lists -/

variable {b : Block}

lemma Coalesced.tail (h : Coalesced (b :: bs)) : Coalesced bs := by
  cases bs with
  | nil => trivial
  | cons c bs => exact h.2.2

lemma Coalesced.right (h : Coalesced (bs ++ cs)) : Coalesced cs := by
  induction bs with
  | nil => exact h
  | cons b bs ih => exact ih h.tail

lemma Coalesced.head_pos (h : Coalesced (b :: bs)) : 0 < b.size := by
  cases bs with
  | nil => exact h.1
  | cons c bs => exact h.1

lemma Coalesced.pos (h : Coalesced bs) (hb : b ∈ bs) : 0 < b.size := by
  obtain ⟨pre, post, rfl⟩ := append_of_mem hb
  exact h.right.head_pos

/-- After a free block comes an allocated one. -/
lemma Coalesced.exists_next (h : Coalesced (b :: bs)) (hb : b.free = true) :
    ∃ n rest, bs = ⟨n, false⟩ :: rest := by
  cases bs with
  | nil => simp [h.2] at hb
  | cons c rest =>
    obtain ⟨n, free⟩ := c
    have hc : free = false := h.2.1 hb
    exact ⟨n, rest, by rw [hc]⟩

/-- What precedes an allocated block may be replaced where it stays coalesced
    up to that block, and so may what follows. -/
lemma coalesced_append_cons : Coalesced (bs ++ ⟨n, false⟩ :: cs) ↔
      Coalesced (bs ++ [⟨n, false⟩]) ∧ Coalesced (⟨n, false⟩ :: cs) := by
  induction bs with
  | nil =>
    refine ⟨fun h => ⟨⟨h.head_pos, rfl⟩, h⟩, fun h => h.2⟩
  | cons b bs ih =>
    cases bs with
    | nil =>
      constructor
      · intro h
        exact ⟨⟨h.1, h.2.1, h.tail.head_pos, rfl⟩, h.2.2⟩
      · intro h
        exact ⟨h.1.1, h.1.2.1, h.2⟩
    | cons c bs =>
      constructor
      · intro h
        exact ⟨⟨h.1, h.2.1, (ih.1 h.2.2).1⟩, (ih.1 h.2.2).2⟩
      · intro h
        exact ⟨h.1.1, h.1.2.1, ih.2 ⟨h.1.2.2, h.2⟩⟩

/-- The free length before a free block is nothing. -/
lemma Coalesced.freeBefore_eq_zero (h : Coalesced (bs ++ b :: cs)) (hb : b.free = true) :
    freeBefore 0 bs = 0 := by
  rcases eq_nil_or_concat bs with rfl | ⟨bs, c, rfl⟩
  · rfl
  · rw [concat_eq_append, append_assoc] at h
    have hc : c.free = false := by
      by_contra hne
      obtain ⟨n, rest, heq⟩ := h.right.exists_next (by simpa using hne)
      rw [(cons.inj heq).1] at hb
      simp at hb
    simp [freeBefore, freeSize, hc]

variable (h : Coalesced (bs ++ cs))
include h

/-- Where there is free length before a block, it is the block before it. -/
lemma Coalesced.exists_prev (hfree : freeBefore 0 bs ≠ 0) :
    ∃ pre, bs = pre ++ [⟨freeBefore 0 bs, true⟩] ∧ freeBefore 0 pre = 0 := by
  rcases eq_nil_or_concat bs with rfl | ⟨pre, c, rfl⟩
  · simp [freeBefore] at hfree
  · obtain ⟨n, free⟩ := c
    rw [concat_eq_append] at hfree h ⊢
    cases free with
    | false => simp [freeBefore, freeSize] at hfree
    | true =>
      refine ⟨pre, by simp [freeBefore, freeSize], ?_⟩
      rw [append_assoc] at h
      exact h.freeBefore_eq_zero rfl

/-- A list of blocks may end with an allocated block wherever it was cut. -/
lemma Coalesced.cut (hn : 0 < n) : Coalesced (bs ++ [⟨n, false⟩]) := by
  induction bs with
  | nil => exact ⟨hn, rfl⟩
  | cons b bs ih =>
    cases bs with
    | nil => exact ⟨h.head_pos, fun _ => rfl, hn, rfl⟩
    | cons c bs => exact ⟨h.1, h.2.1, ih h.2.2⟩

/-- Where nothing free comes before the cut, the list is coalesced up to there. -/
lemma Coalesced.left (hfree : freeBefore 0 bs = 0) : Coalesced bs := by
  rcases eq_nil_or_concat bs with rfl | ⟨pre, c, rfl⟩
  · trivial
  · obtain ⟨n, free⟩ := c
    rw [concat_eq_append] at hfree h ⊢
    have hn : 0 < n := h.pos (b := ⟨n, free⟩) (by simp)
    cases free with
    | false =>
      rw [append_assoc] at h
      exact h.cut hn
    | true =>
      simp [freeBefore, freeSize] at hfree
      omega

omit h

/-- A free block may stand between what has nothing free at its end and an allocated block. -/
lemma Coalesced.insert_free {m : Nat} (h : Coalesced bs) (hn : 0 < n)
    (hcs : Coalesced (⟨m, false⟩ :: cs)) : Coalesced (bs ++ ⟨n, true⟩ :: ⟨m, false⟩ :: cs) := by
  induction bs with
  | nil => exact ⟨hn, fun _ => rfl, hcs⟩
  | cons b bs ih =>
    cases bs with
    | nil => exact ⟨h.1, by simp [h.2], ih trivial⟩
    | cons c bs => exact ⟨h.1, h.2.1, ih h.2.2⟩

lemma le_of_mem_marked (h : x ∈ marked a p bs) : a ≤ x := by
  obtain ⟨pre, b, post, -, rfl, -⟩ := exists_of_mem_marked h
  exact Nat.le_add_right _ _

lemma lt_of_mem_marked (hpos : ∀ b ∈ bs, 0 < b.size) (h : x ∈ marked a p bs) : x < a + total bs := by
  obtain ⟨pre, b, post, rfl, rfl, -⟩ := exists_of_mem_marked h
  have := hpos b (by simp)
  simp only [total_append, total_cons]
  omega

/-- Replacing blocks by blocks of the same length changes what is marked only among them. -/
lemma mem_marked_replace {pre mid mid' post : List Block} (hpos : ∀ b ∈ pre ++ mid, 0 < b.size)
    (htotal : total mid' = total mid)
    (hfree : freeBefore 0 (pre ++ mid') = freeBefore 0 (pre ++ mid)) : x ∈ marked 0 0 (pre ++ mid' ++ post) ↔
      (x ∈ marked 0 0 (pre ++ mid ++ post) ∧ x ∉ marked (total pre) (freeBefore 0 pre) mid) ∨
        x ∈ marked (total pre) (freeBefore 0 pre) mid' := by
  have hpre : x ∈ marked 0 0 pre → x ∉ marked (total pre) (freeBefore 0 pre) mid := by
    intro hx hmid
    have := lt_of_mem_marked (fun b hb => hpos b (by simp [hb])) hx
    have := le_of_mem_marked hmid
    omega
  have hpost : x ∈ marked (total pre + total mid) (freeBefore 0 (pre ++ mid)) post →
      x ∉ marked (total pre) (freeBefore 0 pre) mid := by
    intro hx hmid
    have := lt_of_mem_marked (fun b hb => hpos b (by simp [hb])) hmid
    have := le_of_mem_marked hx
    omega
  simp only [marked_append, total_append, htotal, hfree, mem_append, zero_add]
  tauto

lemma allocated_bounds (h : (x, n) ∈ allocated a bs) : a ≤ x ∧ x + n ≤ a + total bs := by
  obtain ⟨pre, post, rfl, rfl⟩ := exists_of_mem_allocated h
  simp only [total_append, total_cons]
  omega

/-- The allocated blocks follow each other. -/
lemma pairwise_allocated (a : Nat) (bs : List Block) :
    (allocated a bs).Pairwise fun x y => x.1 + x.2 ≤ y.1 := by
  induction bs generalizing a with
  | nil => simp [allocated]
  | cons b bs ih =>
    refine pairwise_append.2 ⟨by split <;> simp, ih _, ?_⟩
    rintro ⟨x, n⟩ hx ⟨y, m⟩ hy
    split at hx
    · simp at hx
    · obtain ⟨rfl, rfl⟩ := Prod.mk.inj (mem_singleton.1 hx)
      exact (allocated_bounds hy).1

lemma sum_allocated_le (a : Nat) (bs : List Block) : ((allocated a bs).map Prod.snd).sum ≤ total bs := by
  induction bs generalizing a with
  | nil => simp [allocated]
  | cons b bs ih =>
    have := ih (a + b.size)
    cases hb : b.free <;> simp [allocated, hb] <;> omega

lemma Coalesced.eq_nil (h : Coalesced bs) (hnil : allocated a bs = []) : bs = [] := by
  cases bs with
  | nil => rfl
  | cons b bs =>
    cases hb : b.free with
    | false => simp [allocated, hb] at hnil
    | true =>
      obtain ⟨n, rest, rfl⟩ := h.exists_next hb
      simp [allocated, hb] at hnil

/-- A coalesced list is determined by its allocated blocks. -/
lemma Coalesced.eq_of_allocated (h : Coalesced bs) (hcs : Coalesced cs)
    (heq : allocated a bs = allocated a cs) : bs = cs := by
  induction bs generalizing a cs with
  | nil => exact (hcs.eq_nil heq.symm).symm
  | cons b bs ih =>
    cases cs with
    | nil => exact h.eq_nil heq
    | cons c cs =>
      suffices b = c by
        subst this
        rw [ih h.tail hcs.tail (append_cancel_left heq)]
      have hb := h.head_pos
      have hc := hcs.head_pos
      obtain ⟨n, _ | _⟩ := b <;> obtain ⟨m, _ | _⟩ := c
      · simp_all [allocated]
      · obtain ⟨k, cs, rfl⟩ := hcs.exists_next rfl
        simp_all [allocated]
      · obtain ⟨k, bs, rfl⟩ := h.exists_next rfl
        simp_all [allocated]
      · obtain ⟨k, bs, rfl⟩ := h.exists_next rfl
        obtain ⟨l, cs, rfl⟩ := hcs.exists_next rfl
        simp_all [allocated]

/-- Where blocks are measured in units of length `c` from `o` on, a range longer
    than every free block and than the free end meets an allocated block. -/
lemma Coalesced.exists_overlap (h : Coalesced bs) {o c k u : Nat}
    (hfree : ∀ b ∈ bs, b.free = true → b.size * c < k) (hend : n < k) (hu : o + a * c ≤ u)
    (huk : u + k ≤ o + (a + total bs) * c + n) :
    ∃ x ∈ allocated a bs, u < o + (x.1 + x.2) * c ∧ o + x.1 * c < u + k := by
  induction bs generalizing a with
  | nil =>
    simp only [total_nil, add_zero] at huk
    omega
  | cons b bs ih =>
    have hrest : ∀ b ∈ bs, b.free = true → b.size * c < k := fun d hd => hfree d (by simp [hd])
    rw [total_cons, ← add_assoc] at huk
    by_cases hub : o + (a + b.size) * c ≤ u
    · obtain ⟨x, hx, hover⟩ := ih h.tail hrest hub huk
      exact ⟨x, mem_append.2 (.inr hx), hover⟩
    · cases hb : b.free with
      | false => exact ⟨(a, b.size), by simp [allocated, hb], by dsimp only; omega, by dsimp only; omega⟩
      | true =>
        -- The range starts in this free block, too short for it.
        obtain ⟨m, rest, rfl⟩ := h.exists_next hb
        have hshort := hfree b (by simp) hb
        refine ⟨(a + b.size, m), by simp [allocated, hb], ?_, ?_⟩ <;>
          simp only [add_mul] at hub ⊢ <;> omega

end Block
