import Mathlib.Data.List.Nodup
import Mathlib.Data.List.Perm.Basic

/-!
# Interned strings

The strong and the weak table of `runtime/intern_table.cc`, the log of `runtime/transaction.cc` for their
changes, and how it is undone. A table is a sequence of sets; strings are inserted in the last one. Strings
are objects, and they are compared by their contents.
-/

namespace Art

open List

/-- `InternTable::Table`: the last table, and the ones before it. -/
structure Table (σ : Type) where
  frozen : List (List σ)
  last : List σ

variable {σ γ : Type} [DecidableEq γ] (content : σ → γ)

namespace Table

variable (t : Table σ)

/-- All strings, in the order of the tables. -/
def strings : List σ := t.frozen.flatten ++ t.last

/-- `Table::Find`: the tables are searched from the last one on. -/
def find (t : Table σ) (s : σ) : Option σ := (t.last :: t.frozen.reverse).findSome? fun table =>
    table.find? fun x => decide (content x = content s)

def insert (s : σ) : Table σ := { t with last := t.last ++ [s] }

/-- The search of `Table::Remove` in the tables before the last one. -/
def removeFrozen (s : σ) : List (List σ) → Option (List (List σ))
  | [] => none
  | table :: rest =>
    if table.any fun x => decide (content x = content s) then
      some (table.eraseP (fun x => decide (content x = content s)) :: rest)
    else (removeFrozen s rest).map (table :: ·)

/-- `Table::Remove`; it is fatal if there is no such string. -/
def remove (s : σ) : Option (Table σ) :=
  match removeFrozen content s t.frozen with
  | some frozen => some { t with frozen := frozen }
  | none =>
    if t.last.any fun x => decide (content x = content s) then
      some { t with last := t.last.eraseP fun x => decide (content x = content s) }
    else none

end Table

inductive StringKind
  | strong
  | weak

inductive StringOp
  | insert
  | remove

structure InternStringLog (σ : Type) where
  str : σ
  stringKind : StringKind
  stringOp : StringOp

/-- `InternTable`, with the log of an active transaction; the most recent change is the first one. -/
structure InternTable (σ : Type) where
  strongInterns : Table σ
  weakInterns : Table σ
  internStringLogs : List (InternStringLog σ)

namespace InternTable

variable (i : InternTable σ) (s : σ)

/-- `InsertStrong` in a transaction. -/
def insertStrong : InternTable σ :=
  { i with
    strongInterns := i.strongInterns.insert s
    internStringLogs := ⟨s, .strong, .insert⟩ :: i.internStringLogs }

/-- `InsertWeak` in a transaction. -/
def insertWeak : InternTable σ :=
  { i with
    weakInterns := i.weakInterns.insert s
    internStringLogs := ⟨s, .weak, .insert⟩ :: i.internStringLogs }

/-- `RemoveWeak` in a transaction. -/
def removeWeak : Option (InternTable σ) := do
  let weakInterns ← i.weakInterns.remove content s
  return { i with
    weakInterns := weakInterns
    internStringLogs := ⟨s, .weak, .remove⟩ :: i.internStringLogs }

/-- `Insert`, which `InternStrong` and `InternWeak` call. -/
def intern (isStrong : Bool) : Option (InternTable σ) :=
  match i.strongInterns.find content s with
  | some _ => some i
  | none =>
    match i.weakInterns.find content s with
    | some weak =>
      if isStrong then do
        let i ← i.removeWeak content weak
        return i.insertStrong weak
      else some i
    | none => some (if isStrong then i.insertStrong s else i.insertWeak s)

/-- `InternStringLog::Undo`; the transaction is not active, and nothing is recorded. -/
def undo (log : InternStringLog σ) : Option (InternTable σ) :=
  match log.stringOp, log.stringKind with
  | .insert, .strong => do
    return { i with strongInterns := ← i.strongInterns.remove content log.str }
  | .insert, .weak => do
    return { i with weakInterns := ← i.weakInterns.remove content log.str }
  | .remove, .strong => some { i with strongInterns := i.strongInterns.insert log.str }
  | .remove, .weak => some { i with weakInterns := i.weakInterns.insert log.str }

/-- `UndoInternStringTableModifications`. -/
def undoAll : Option (InternTable σ) := do
  let i' ← i.internStringLogs.foldlM (undo content) i
  return { i' with internStringLogs := [] }

end InternTable

/-! ## Tables -/

/-- The strings have different contents. -/
def Distinct (l : List σ) : Prop := (l.map content).Nodup

variable {content} {l : List σ}

omit [DecidableEq γ] in
lemma Distinct.perm {l' : List σ} (h : Distinct content l) (hperm : l.Perm l') : Distinct content l' :=
  (hperm.map content).nodup_iff.1 h

namespace Table

variable {t : Table σ} {s x : σ}

lemma mem_of_find (h : t.find content s = some x) : x ∈ t.strings := by
  obtain ⟨table, htable, hx⟩ := exists_of_findSome?_eq_some h
  have hmem := mem_of_find?_eq_some hx
  rw [strings, mem_append, mem_flatten]
  rcases mem_cons.1 htable with rfl | htable
  · exact .inr hmem
  · exact .inl ⟨table, mem_reverse.1 htable, hmem⟩

lemma ne_of_find_eq_none (h : t.find content s = none) : ∀ x ∈ t.strings, content x ≠ content s := by
  intro x hx
  rw [find, findSome?_eq_none_iff] at h
  rw [strings, mem_append, mem_flatten] at hx
  rcases hx with ⟨table, htable, hx⟩ | hx
  · have hnone := h table (mem_cons_of_mem _ (mem_reverse.2 htable))
    simpa using find?_eq_none.1 hnone x hx
  · simpa using find?_eq_none.1 (h t.last mem_cons_self) x hx

lemma strings_insert (t : Table σ) (s : σ) : (t.insert s).strings.Perm (s :: t.strings) := by
  rw [strings, strings, insert, ← append_assoc]
  exact perm_append_singleton s _

/-- One string is removed from a list that has an equal one. -/
lemma perm_eraseP {l : List σ} (h : l.any (fun x => decide (content x = content s)) = true) :
    ∃ x ∈ l, content x = content s ∧ (x :: l.eraseP fun x => decide (content x = content s)).Perm l := by
  obtain ⟨y, hy, hys⟩ := any_eq_true.1 h
  obtain ⟨x, l1, l2, -, hx, hl, herase⟩ := exists_of_eraseP (p := fun x => decide (content x = content s)) hy hys
  rw [herase]
  refine ⟨x, ?_, of_decide_eq_true hx, ?_⟩
  · rw [hl]
    exact mem_append_right _ mem_cons_self
  · conv_rhs => rw [hl]
    exact perm_middle.symm

lemma removeFrozen_spec {tables : List (List σ)} :
    (∀ tables', removeFrozen content s tables = some tables' → ∃ x ∈ tables.flatten,
        content x = content s ∧ (x :: tables'.flatten).Perm tables.flatten) ∧
      (removeFrozen content s tables = none → ∀ x ∈ tables.flatten, content x ≠ content s) := by
  induction tables with
  | nil => exact ⟨fun _ h => (by cases h), fun _ x hx => absurd hx not_mem_nil⟩
  | cons table rest ih =>
    rw [removeFrozen]
    split
    next hany =>
      refine ⟨fun tables' h => ?_, fun h => (by cases h)⟩
      cases h
      obtain ⟨x, hx, heq, hperm⟩ := perm_eraseP hany
      exact ⟨x, mem_append_left _ hx, heq, hperm.append_right _⟩
    next hany =>
      refine ⟨fun tables' h => ?_, fun h x hx => ?_⟩
      · obtain ⟨rest', hrest, rfl⟩ := Option.map_eq_some_iff.1 h
        obtain ⟨x, hx, heq, hperm⟩ := ih.1 rest' hrest
        refine ⟨x, mem_append_right _ hx, heq, ?_⟩
        exact perm_middle.symm.trans (hperm.append_left table)
      · rcases mem_append.1 hx with hx | hx
        · intro heq
          exact hany (any_eq_true.2 ⟨x, hx, decide_eq_true heq⟩)
        · exact ih.2 (Option.map_eq_none_iff.1 h) x hx

/-- A string of a table with different contents can be removed, and it is the one that is removed. -/
lemma remove_spec (hdistinct : Distinct content t.strings) (hs : s ∈ t.strings) :
    ∃ t', t.remove content s = some t' ∧ (s :: t'.strings).Perm t.strings := by
  rw [remove]
  cases hfrozen : removeFrozen content s t.frozen with
  | some frozen =>
    obtain ⟨x, hx, heq, hperm⟩ := removeFrozen_spec.1 frozen hfrozen
    obtain rfl := inj_on_of_nodup_map hdistinct (mem_append_left _ hx) hs heq
    exact ⟨_, rfl, hperm.append_right t.last⟩
  | none =>
    -- the string is in the last table
    have hlast : s ∈ t.last := by
      rcases mem_append.1 hs with hs | hs
      · exact absurd rfl (removeFrozen_spec.2 hfrozen s hs)
      · exact hs
    have hany : t.last.any (fun x => decide (content x = content s)) = true :=
      any_eq_true.2 ⟨s, hlast, decide_eq_true rfl⟩
    obtain ⟨x, hx, heq, hperm⟩ := perm_eraseP hany
    obtain rfl := inj_on_of_nodup_map hdistinct (mem_append_right _ hx) hs heq
    refine ⟨_, if_pos hany, ?_⟩
    exact perm_middle.symm.trans (hperm.append_left _)

end Table

/-! ## The log -/

/-- What a log stands for, from the most recent change on: from strings of the strong and the weak table,
    undoing the changes gives those of the start. -/
inductive Undoes (content : σ → γ) (start : List σ × List σ) :
    List (InternStringLog σ) → List σ → List σ → Prop
  | nil {strong weak : List σ} : strong.Perm start.1 → weak.Perm start.2 → Undoes content start [] strong weak
  | insertStrong {s : σ} {logs : List (InternStringLog σ)} {strong strong' weak : List σ} :
    Distinct content strong → (s :: strong').Perm strong → Undoes content start logs strong' weak →
    Undoes content start (⟨s, .strong, .insert⟩ :: logs) strong weak
  | insertWeak {s : σ} {logs : List (InternStringLog σ)} {strong weak weak' : List σ} :
    Distinct content weak → (s :: weak').Perm weak → Undoes content start logs strong weak' →
    Undoes content start (⟨s, .weak, .insert⟩ :: logs) strong weak
  | removeWeak {s : σ} {logs : List (InternStringLog σ)} {strong weak weak' : List σ} :
    (s :: weak).Perm weak' → Undoes content start logs strong weak' →
    Undoes content start (⟨s, .weak, .remove⟩ :: logs) strong weak

/-- Undoing a log, step by step. -/
lemma Undoes.foldlM_undo {start : List σ × List σ} {logs : List (InternStringLog σ)}
    {strong weak : List σ} (h : Undoes content start logs strong weak) {i : InternTable σ}
    (hstrong : i.strongInterns.strings.Perm strong) (hweak : i.weakInterns.strings.Perm weak) :
    ∃ i', logs.foldlM (InternTable.undo content) i = some i' ∧
      i'.strongInterns.strings.Perm start.1 ∧ i'.weakInterns.strings.Perm start.2 := by
  induction h generalizing i with
  | nil hs hw => exact ⟨i, rfl, hstrong.trans hs, hweak.trans hw⟩
  | @insertStrong s logs strong strong' weak hdistinct hperm _ ih =>
    obtain ⟨t, ht, ht'⟩ := Table.remove_spec (hdistinct.perm hstrong.symm)
      (hstrong.symm.subset (hperm.subset mem_cons_self))
    obtain ⟨i', hi', hresult⟩ := ih (i := { i with strongInterns := t })
      (List.Perm.cons_inv (ht'.trans (hstrong.trans hperm.symm))) hweak
    refine ⟨i', ?_, hresult⟩
    rw [foldlM_cons, InternTable.undo]
    rw [ht]
    exact hi'
  | @insertWeak s logs strong weak weak' hdistinct hperm _ ih =>
    obtain ⟨t, ht, ht'⟩ := Table.remove_spec (hdistinct.perm hweak.symm)
      (hweak.symm.subset (hperm.subset mem_cons_self))
    obtain ⟨i', hi', hresult⟩ := ih (i := { i with weakInterns := t }) hstrong
      (List.Perm.cons_inv (ht'.trans (hweak.trans hperm.symm)))
    refine ⟨i', ?_, hresult⟩
    rw [foldlM_cons, InternTable.undo]
    rw [ht]
    exact hi'
  | @removeWeak s logs strong weak weak' hperm _ ih =>
    obtain ⟨i', hi', hresult⟩ := ih (i := { i with weakInterns := i.weakInterns.insert s }) hstrong
      ((Table.strings_insert _ s).trans ((hweak.cons s).trans hperm))
    exact ⟨i', hi', hresult⟩

namespace InternTable

/-- The tables of a transaction: contents are different in each, and the log stands for the start. -/
structure Logged (content : σ → γ) (start : List σ × List σ) (i : InternTable σ) : Prop where
  strong : Distinct content i.strongInterns.strings
  weak : Distinct content i.weakInterns.strings
  undoes : Undoes content start i.internStringLogs i.strongInterns.strings i.weakInterns.strings

variable {s : σ}

omit [DecidableEq γ] in
lemma distinct_insert {t : Table σ} (h : Distinct content t.strings)
    (hne : ∀ x ∈ t.strings, content x ≠ content s) : Distinct content (t.insert s).strings := by
  refine Distinct.perm ?_ (Table.strings_insert t s).symm
  refine nodup_cons.2 ⟨fun hmem => ?_, h⟩
  obtain ⟨x, hx, heq⟩ := mem_map.1 hmem
  exact hne x hx heq

variable {start : List σ × List σ} {i : InternTable σ}

omit [DecidableEq γ] in
lemma Logged.insertStrong (h : Logged content start i)
    (hne : ∀ x ∈ i.strongInterns.strings, content x ≠ content s) : Logged content start (i.insertStrong s) :=
  ⟨distinct_insert h.strong hne, h.weak, .insertStrong (distinct_insert h.strong hne)
    (Table.strings_insert _ s).symm h.undoes⟩

omit [DecidableEq γ] in
lemma Logged.insertWeak (h : Logged content start i)
    (hne : ∀ x ∈ i.weakInterns.strings, content x ≠ content s) : Logged content start (i.insertWeak s) :=
  ⟨h.strong, distinct_insert h.weak hne, .insertWeak (distinct_insert h.weak hne)
    (Table.strings_insert _ s).symm h.undoes⟩

lemma Logged.removeWeak (h : Logged content start i) (hs : s ∈ i.weakInterns.strings) :
    ∃ i', i.removeWeak content s = some i' ∧ Logged content start i' ∧
      i'.strongInterns = i.strongInterns := by
  obtain ⟨t, ht, hperm⟩ := Table.remove_spec h.weak hs
  refine ⟨{ i with weakInterns := t, internStringLogs := ⟨s, .weak, .remove⟩ :: i.internStringLogs },
    by rw [InternTable.removeWeak, ht]; rfl, ⟨h.strong, ?_, .removeWeak hperm h.undoes⟩, rfl⟩
  exact (nodup_cons.1 (h.weak.perm hperm.symm)).2

/-- Each call keeps what the log stands for. -/
lemma Logged.intern (h : Logged content start i) (s : σ) (isStrong : Bool) :
    ∃ i', i.intern content s isStrong = some i' ∧ Logged content start i' := by
  rw [InternTable.intern]
  cases hstrong : i.strongInterns.find content s with
  | some x => exact ⟨i, rfl, h⟩
  | none =>
    have hne := Table.ne_of_find_eq_none hstrong
    cases hweak : i.weakInterns.find content s with
    | some w =>
      cases isStrong with
      | false => exact ⟨i, rfl, h⟩
      | true =>
        obtain ⟨i', hi', hlogged, hsame⟩ := h.removeWeak (Table.mem_of_find hweak)
        refine ⟨_, by dsimp only; rw [if_pos rfl, hi']; rfl, hlogged.insertStrong ?_⟩
        obtain ⟨table, -, hx⟩ := exists_of_findSome?_eq_some hweak
        rw [hsame, show content w = _ by simpa using find?_some hx]
        exact hne
    | none =>
      have hne' := Table.ne_of_find_eq_none hweak
      cases isStrong with
      | false => exact ⟨_, rfl, h.insertWeak hne'⟩
      | true => exact ⟨_, rfl, h.insertStrong hne⟩

/-- Undoing the log gives tables with the strings of the start. -/
lemma Logged.undoAll (h : Logged content start i) :
    ∃ i', i.undoAll content = some i' ∧ i'.strongInterns.strings.Perm start.1 ∧
      i'.weakInterns.strings.Perm start.2 := by
  obtain ⟨i', hi', hresult⟩ := h.undoes.foldlM_undo (i := i) (List.Perm.refl _) (List.Perm.refl _)
  exact ⟨{ i' with internStringLogs := [] }, by rw [InternTable.undoAll, hi']; rfl, hresult⟩

end InternTable

end Art
