import Mathlib.Data.List.TakeWhile

/-!
# Loops with early exits

A loop over a list changes a state in place, and a round may give up: the loop ends there, and the state
is left as that round left it. Such a loop has done all the work for a part of the list, which is the
list up to the item that failed and a part of this item.

* `foldlM_eq_ite`: the loop without exits over the whole list fails exactly if an item does;
* `foldlM_done`: the case of rounds that change nothing if they give up.
-/

namespace EarlyExit

open List

variable {σ α β : Type}

/-- The rounds of a loop, until one gives up. -/
def each (f : σ → α → σ × Bool) (s : σ) : List α → σ × Bool
  | [] => (s, true)
  | a :: l => if (f s a).2 then each f (f s a).1 l else f s a

lemma each_cons (f : σ → α → σ × Bool) (s : σ) (a : α) (l : List α) :
    each f s (a :: l) = if (f s a).2 then each f (f s a).1 l else f s a := rfl

/-! ## Items that are handled in part -/

/-- The items up to the first one that fails, and what is handled of this one. -/
def handled (ok : α → Bool) (part : α → Option α) : List α → List α
  | [] => []
  | a :: l => if ok a then a :: handled ok part l else (part a).toList

lemma handled_cons (ok : α → Bool) (part : α → Option α) (a : α) (l : List α) :
    handled ok part (a :: l) = if ok a then a :: handled ok part l else (part a).toList := rfl

variable {ok : α → Bool} {part : α → Option α} {l : List α}

lemma mem_handled {b : α} (h : b ∈ handled ok part l) :
    b ∈ l ∨ ∃ a ∈ l, ok a = false ∧ part a = some b := by
  induction l with
  | nil => cases h
  | cons a l ih =>
    rw [handled_cons] at h
    split_ifs at h with ha
    · rcases mem_cons.1 h with rfl | h
      · exact .inl mem_cons_self
      · rcases ih h with h | ⟨c, hc, hpart⟩
        · exact .inl (mem_cons_of_mem a h)
        · exact .inr ⟨c, mem_cons_of_mem a hc, hpart⟩
    · exact .inr ⟨a, mem_cons_self, eq_false_of_ne_true ha, Option.mem_toList.1 h⟩

/-- The keys of the items that are handled are the first ones. -/
lemma map_handled_sublist {key : α → β} (hkey : ∀ a b, part a = some b → key b = key a)
    (l : List α) : ((handled ok part l).map key).Sublist (l.map key) := by
  induction l with
  | nil => exact List.Sublist.slnil
  | cons a l ih =>
    rw [handled_cons]
    split_ifs with ha
    · exact ih.cons_cons (key a)
    · cases hpart : part a with
      | none => exact nil_sublist _
      | some b =>
        rw [Option.toList_some, map_singleton, hkey a b hpart, map_cons]
        exact (nil_sublist _).cons_cons _

lemma handled_none (ok : α → Bool) (l : List α) : handled ok (fun _ => none) l = l.takeWhile ok := by
  induction l with
  | nil => rfl
  | cons a l ih =>
    rw [handled_cons, takeWhile_cons, ih]
    rfl

/-- The round `f` of a loop in place is the round `g` without exits: for the item, if the item does not
    fail, and otherwise for a part of it. -/
structure Handles (f : σ → α → σ × Bool) (g : σ → α → Option σ) (ok : α → Bool)
    (part : α → Option α) (a : α) : Prop where
  snd_eq (s : σ) : (f s a).2 = ok a
  eq_ite (s : σ) : g s a = if ok a then some (f s a).1 else none
  of_part (s : σ) : ok a = false → (part a).elim (some s) (g s) = some (f s a).1

section

variable {f : σ → α → σ × Bool} {g : σ → α → Option σ} {ok : α → Bool} {part : α → Option α}
  {l : List α} {a : α}

lemma Handles.of_true (step : σ → σ) (hok : ok a = true) (hf : ∀ s, f s a = (step s, true))
    (hg : ∀ s, g s a = some (step s)) : Handles f g ok part a where
  snd_eq s := by rw [hf, hok]
  eq_ite s := by rw [hf, hg, if_pos hok]
  of_part s h := by rw [hok] at h; cases h

/-- A round that changes nothing if it gives up. -/
lemma Handles.of_false (hok : ok a = false) (hpart : part a = none) (hf : ∀ s, f s a = (s, false))
    (hg : ∀ s, g s a = none) : Handles f g ok part a where
  snd_eq s := by rw [hf, hok]
  eq_ite s := by rw [hg, hok]; rfl
  of_part s _ := by rw [hf, hpart]; rfl

lemma Handles.of_option {β : Type*} {r : Option β} (step : β → σ → σ) (hok : ok a = r.isSome)
    (hpart : part a = none) (hf : ∀ s, f s a = r.elim (s, false) fun b => (step b s, true))
    (hg : ∀ s, g s a = r.map (step · s)) : Handles f g ok part a := by
  cases r with
  | none => exact .of_false hok hpart hf hg
  | some b => exact .of_true (step b) hok hf hg

variable (h : ∀ a ∈ l, Handles f g ok part a)

include h in
lemma snd_each (s : σ) : (each f s l).2 = l.all ok := by
  induction l generalizing s with
  | nil => rfl
  | cons a l ih =>
    have ha := (h a mem_cons_self).snd_eq s
    rw [each_cons, all_cons, ha]
    cases hok : ok a with
    | true => exact ih (fun b hb => h b (mem_cons_of_mem a hb)) _
    | false => exact ha.trans hok

include h in
lemma foldlM_eq_ite (s : σ) : l.foldlM g s = if l.all ok then some (each f s l).1 else none := by
  induction l generalizing s with
  | nil => rfl
  | cons a l ih =>
    have ha := h a mem_cons_self
    rw [foldlM_cons, ha.eq_ite s, each, all_cons, ha.snd_eq s]
    cases hok : ok a with
    | true => exact ih (fun b hb => h b (mem_cons_of_mem a hb)) _
    | false => rfl

include h in
/-- A loop with early exits does all the work for what it has handled. -/
lemma foldlM_handled (s : σ) : (handled ok part l).foldlM g s = some (each f s l).1 := by
  induction l generalizing s with
  | nil => rfl
  | cons a l ih =>
    have ha := h a mem_cons_self
    rw [handled_cons, each_cons, ha.snd_eq s]
    cases hok : ok a with
    | true =>
      rw [if_pos rfl, if_pos rfl, foldlM_cons, ha.eq_ite s, hok]
      exact ih (fun b hb => h b (mem_cons_of_mem a hb)) _
    | false =>
      have hpart := ha.of_part s hok
      cases hb : part a with
      | none => rwa [hb] at hpart
      | some b =>
        rw [hb] at hpart
        exact (congrArg (· >>= pure) hpart)

end

/-! ## Items that are handled as a whole or not at all -/

variable (g : σ → α → Option σ) (s : σ)

/-- A round that changes nothing if it gives up. -/
def attempt (a : α) : σ × Bool :=
  match g s a with
  | some s' => (s', true)
  | none => (s, false)

/-- The items that a loop of such rounds has handled. -/
def done (g : σ → α → Option σ) (s : σ) : List α → List α
  | [] => []
  | a :: l =>
    match g s a with
    | some s' => a :: done g s' l
    | none => []

variable (l : List α)

lemma foldlM_done : (done g s l).foldlM g s = some (each (attempt g) s l).1 := by
  induction l generalizing s with
  | nil => rfl
  | cons a l ih =>
    rw [done, each_cons, attempt]
    cases hg : g s a with
    | none => rfl
    | some s' =>
      rw [foldlM_cons, hg]
      exact ih s'

/-- If no round gives up, all items are done, and otherwise the loop without exits fails. -/
lemma done_spec : if (each (attempt g) s l).2 then done g s l = l else l.foldlM g s = none := by
  induction l generalizing s with
  | nil => rfl
  | cons a l ih =>
    rw [foldlM_cons, each_cons, attempt, done]
    cases hg : g s a with
    | none => rfl
    | some s' => simpa using ih s'

lemma done_isPrefix : done g s l <+: l := by
  induction l generalizing s with
  | nil => exact prefix_rfl
  | cons a l ih =>
    rw [done]
    cases g s a with
    | none => exact nil_prefix
    | some s' => exact (prefix_cons_inj a).2 (ih s')

end EarlyExit
