import Mathlib.Data.List.Nodup

/-!
# Undo logs

A memory with a log of what was in its locations: before a location is written, a record for it is made,
and only the first record of a location is kept. Some locations may be left out when the log is undone.
-/

namespace UndoLog

open List

variable {κ ρ : Type} [DecidableEq κ] {V : κ → Type} (log : List (κ × ρ))

/-- The record of a location. -/
abbrev find (l : κ) : Option ρ := log.lookup l

/-- The log with a record for a location, unless it has one. -/
def record (l : κ) (r : ρ) : List (κ × ρ) :=
  if (log.lookup l).isSome then log else log ++ [(l, r)]

/-- The memory after the records of a log are written back; `restore` gives what a record stands for, if its
    location is restored. -/
def undo (restore : (l : κ) → ρ → Option (V l)) (memory : (l : κ) → V l) : List (κ × ρ) → (l : κ) → V l
  | [] => memory
  | e :: log =>
    undo restore
      (match restore e.1 e.2 with
        | some v => Function.update memory e.1 v
        | none => memory) log

/-! ## Lookups -/

lemma lookup_append (e : κ × ρ) (l : κ) :
    (log ++ [e]).lookup l = (log.lookup l).or (if l = e.1 then some e.2 else none) := by
  induction log with
  | nil =>
    rw [nil_append, lookup_cons, lookup_nil, Option.none_or]
    by_cases h : l = e.1
    · simp [h]
    · have hbeq : (l == e.1) = false := by simpa using h
      rw [hbeq, if_neg h]
  | cons f log ih =>
    rw [cons_append, lookup_cons, lookup_cons, ih]
    cases l == f.1 <;> rfl

lemma lookup_record (l l' : κ) (r : ρ) : (record log l r).lookup l' =
      if l' = l ∧ log.lookup l = none then some r else log.lookup l' := by
  rw [record]
  cases hl : log.lookup l with
  | some r' => rw [Option.isSome_some, if_pos rfl, if_neg (by simp)]
  | none =>
    rw [Option.isSome_none, if_neg Bool.false_ne_true, lookup_append]
    by_cases h : l' = l
    · rw [h, hl, if_pos rfl, if_pos ⟨rfl, rfl⟩, Option.none_or]
    · rw [if_neg h, if_neg fun h' => h h'.1, Option.or_none]

variable {log : List (κ × ρ)} {l : κ}

lemma not_mem_keys_of_lookup_eq_none (h : log.lookup l = none) : l ∉ log.map Prod.fst := by
  rintro hmem
  obtain ⟨e, he, rfl⟩ := mem_map.1 hmem
  exact absurd (lookup_eq_none_iff.1 h e he) (by simp)

lemma lookup_eq_none_of_not_mem_keys (h : l ∉ log.map Prod.fst) : log.lookup l = none := by
  refine lookup_eq_none_iff.2 fun e he => ?_
  rw [bne_iff_ne]
  rintro rfl
  exact h (mem_map_of_mem he)

lemma nodup_record (h : (log.map Prod.fst).Nodup) (l : κ) (r : ρ) :
    ((record log l r).map Prod.fst).Nodup := by
  rw [record]
  split
  · exact h
  · next hnone =>
    rw [Option.not_isSome_iff_eq_none] at hnone
    rw [map_append, map_singleton, nodup_append]
    refine ⟨h, nodup_singleton _, fun a ha b hb => ?_⟩
    rw [mem_singleton.1 hb]
    rintro rfl
    exact not_mem_keys_of_lookup_eq_none hnone ha

/-! ## Undoing -/

variable {restore : (l : κ) → ρ → Option (V l)} {start memory : (l : κ) → V l} {log : List (κ × ρ)}

/-- Undoing acts at each location on its own. -/
lemma undo_apply (h : (log.map Prod.fst).Nodup) (l : κ) :
    undo restore memory log l = ((log.lookup l).bind (restore l)).getD (memory l) := by
  induction log generalizing memory with
  | nil => rfl
  | cons e log ih =>
    rw [map_cons, nodup_cons] at h
    rw [undo, ih h.2, lookup_cons]
    by_cases hl : l = e.1
    · subst hl
      rw [lookup_eq_none_of_not_mem_keys h.1, beq_self_eq_true]
      cases hrestore : restore e.1 e.2 with
      | none => simp [hrestore]
      | some v => simp [hrestore]
    · have hbeq : (l == e.1) = false := by simpa using hl
      have hmemory : (match restore e.1 e.2 with
          | some v => Function.update memory e.1 v
          | none => memory) l = memory l := by
        cases restore e.1 e.2 with
        | none => rfl
        | some v => exact Function.update_of_ne hl v memory
      rw [hbeq, hmemory]

/-- Each location has at most one record, and one without a record has not been changed. -/
structure Tracks (start memory : (l : κ) → V l) (log : List (κ × ρ)) : Prop where
  nodup : (log.map Prod.fst).Nodup
  unchanged : ∀ l, log.lookup l = none → memory l = start l

lemma Tracks.nil : Tracks start start ([] : List (κ × ρ)) := ⟨nodup_nil, fun _ _ => rfl⟩

/-- A record is made and the location is written. -/
lemma Tracks.write (h : Tracks start memory log) (l : κ) (r : ρ) (v : V l) :
    Tracks start (Function.update memory l v) (record log l r) := by
  refine ⟨nodup_record h.nodup l r, fun l' hl' => ?_⟩
  rw [lookup_record] at hl'
  split at hl'
  next => cases hl'
  next hnot =>
    by_cases heq : l' = l
    · exact absurd ⟨heq, heq ▸ hl'⟩ hnot
    · rw [Function.update_of_ne heq]
      exact h.unchanged l' hl'

/-- The records stand for what was in the memory. -/
def Exact (restore : (l : κ) → ρ → Option (V l)) (start : (l : κ) → V l) (log : List (κ × ρ)) : Prop :=
  ∀ l r v, log.lookup l = some r → restore l r = some v → v = start l

lemma Exact.nil : Exact restore start [] := fun _ _ _ h => by cases h

/-- A new record stands for what is there now. -/
lemma Tracks.exact_record_iff (h : Tracks start memory log)
    (restore : (l : κ) → ρ → Option (V l)) (l : κ) (r : ρ) :
    Exact restore start (record log l r) ↔ Exact restore start log ∧
        (log.lookup l = none → ∀ v, restore l r = some v → v = memory l) := by
  constructor
  · intro hexact
    refine ⟨fun l' r' v hl' hv => hexact l' r' v ?_ hv, fun hnone v hv => ?_⟩
    · rw [lookup_record, if_neg, hl']
      rintro ⟨rfl, hnone⟩
      rw [hnone] at hl'
      cases hl'
    · rw [h.unchanged l hnone]
      exact hexact l r v (by rw [lookup_record, if_pos ⟨rfl, hnone⟩]) hv
  · rintro ⟨hexact, hnew⟩ l' r' v hl' hv
    rw [lookup_record] at hl'
    split at hl'
    next hcond =>
      obtain ⟨rfl, hnone⟩ := hcond
      cases hl'
      rw [hnew hnone v hv, h.unchanged _ hnone]
    next => exact hexact l' r' v hl' hv

/-- The log restores the locations that are not left out if and only if its records stand for what was
    there. -/
lemma Tracks.forall_undo_eq_iff (h : Tracks start memory log) (skipped : κ → Prop)
    (hskipped : ∀ l r, restore l r = none ↔ skipped l) :
    (∀ l, ¬ skipped l → undo restore memory log l = start l) ↔ Exact restore start log := by
  constructor
  · intro hundo l r v hl hv
    have hnot : ¬ skipped l := fun hskip => by
      rw [(hskipped l r).2 hskip] at hv
      cases hv
    have heq := hundo l hnot
    rw [undo_apply h.nodup, hl, Option.bind_some, hv] at heq
    exact heq
  · intro hexact l hnot
    rw [undo_apply h.nodup]
    cases hl : log.lookup l with
    | none => exact h.unchanged l hl
    | some r =>
      rw [Option.bind_some]
      cases hv : restore l r with
      | none => exact absurd ((hskipped l r).1 hv) hnot
      | some v => exact hexact l r v hl hv

end UndoLog
