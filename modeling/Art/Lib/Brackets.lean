import Mathlib.Algebra.Order.Ring.Nat

/-!
# Matching brackets

The position of the bracket that closes `d + 1` open ones, in a list some of whose elements are
opening or closing brackets. A list is balanced if a search passes over it.

* `Balanced.append`, `Balanced.brackets` and `balanced_of_forall` build balanced lists;
* `closeIdx_balanced` finds the bracket behind one.
-/

namespace Brackets

variable {α : Type} (isOpen isClose : α → Bool)

/-- The index of the bracket that closes the innermost of the brackets before the list and the `d`
    around it. -/
def closeIdx : ℕ → List α → Option ℕ
  | _, [] => none
  | d, a :: l =>
    if isClose a then if d = 0 then some 0 else (closeIdx (d - 1) l).map (· + 1)
    else if isOpen a then (closeIdx (d + 1) l).map (· + 1)
    else (closeIdx d l).map (· + 1)

/-- A search passes over the list. -/
def Balanced (l : List α) : Prop :=
  ∀ d r, closeIdx isOpen isClose d (l ++ r) = (closeIdx isOpen isClose d r).map (· + l.length)

variable {isOpen isClose} {l l' : List α}

lemma balanced_nil : Balanced isOpen isClose [] := fun d r => by simp

lemma Balanced.append (h : Balanced isOpen isClose l) (h' : Balanced isOpen isClose l') :
    Balanced isOpen isClose (l ++ l') := fun d r => by
  rw [List.append_assoc, h, h', Option.map_map, List.length_append]
  congr 1
  funext n
  simp only [Function.comp_apply]
  omega

/-- A search passes over what is not a bracket. -/
lemma closeIdx_append_of_forall (h : ∀ a ∈ l, isOpen a = false ∧ isClose a = false) (d : ℕ) (r : List α) :
    closeIdx isOpen isClose d (l ++ r) = (closeIdx isOpen isClose d r).map (· + l.length) := by
  induction l with
  | nil => simp
  | cons a l ih =>
    obtain ⟨ho, hc⟩ := h a List.mem_cons_self
    rw [List.cons_append, closeIdx, hc, ho, ih fun b hb => h b (List.mem_cons_of_mem _ hb)]
    rw [if_neg (by simp), if_neg (by simp), Option.map_map]
    rfl

lemma balanced_of_forall (h : ∀ a ∈ l, isOpen a = false ∧ isClose a = false) :
    Balanced isOpen isClose l := closeIdx_append_of_forall h

lemma Balanced.brackets (h : Balanced isOpen isClose l) {o c : α} (ho : isOpen o = true)
    (ho' : isClose o = false) (hc : isClose c = true) :
    Balanced isOpen isClose (o :: (l ++ [c])) := fun d r => by
  rw [List.cons_append, closeIdx, ho', ho, if_neg (by simp), if_pos rfl, List.append_assoc, h,
    List.singleton_append, closeIdx, hc, if_pos rfl, if_neg (Nat.succ_ne_zero d),
    Nat.add_sub_cancel, Option.map_map, Option.map_map]
  congr 1
  funext n
  simp only [Function.comp_apply, List.length_cons, List.length_append, List.length_nil]
  omega

lemma closeIdx_balanced (h : Balanced isOpen isClose l) {c : α} (hc : isClose c = true)
    (r : List α) : closeIdx isOpen isClose 0 (l ++ c :: r) = some l.length := by
  rw [h, closeIdx, hc, if_pos rfl, if_pos rfl, Option.map_some, zero_add]

end Brackets
