import Art.InductionVar.Scc

/-!
# The components that the search finds

The search of `TryVisitNodes` finds strongly connected components, those that are used first.

* `Search.components_pop`: a part of the stack that leads to nothing below it is a component;
-/

namespace Art

open Option (bind_eq_bind bind_some isSome not_isSome some_ne_none isSome_iff_exists some)

namespace LoopInstructions

open Relation Function List Classified Nat StackEntry

variable {n : ℕ} (g : LoopInstructions n)

/-- The instruction uses the other one, which is in the loop. -/
def Uses (u v : Fin n) : Prop := v ∈ g.inputs u ∧ g.inLoop v = true

/-- The instruction depends on the other one, along uses in the loop. -/
abbrev Reaches : Fin n → Fin n → Prop := ReflTransGen g.Uses

/-! ## Components -/

/-- Strongly connected components, each after those it uses. -/
structure Components (comps : List (List (Fin n))) : Prop where
  ne_nil : ∀ c ∈ comps, c ≠ []
  nodup : comps.flatten.Nodup
  mem_iff : ∀ c ∈ comps, ∀ x ∈ c, ∀ y, y ∈ c ↔ g.Reaches x y ∧ g.Reaches y x
  used : ∀ before c after, comps = before ++ c :: after → ∀ x ∈ c, ∀ y, g.Uses x y →
    y ∈ c ∨ y ∈ before.flatten

variable {g}

lemma Components.nil : g.Components [] :=
  ⟨fun _ hc => absurd hc not_mem_nil, nodup_nil, fun _ hc => absurd hc not_mem_nil, fun before _ _ heq => by
    cases before <;> cases heq⟩

variable {comps : List (List (Fin n))}

lemma Components.mem_of_reaches (h : g.Components comps) {x y : Fin n} (hx : x ∈ comps.flatten)
    (hxy : g.Reaches x y) : y ∈ comps.flatten := by
  induction hxy with
  | refl => exact hx
  | tail _ huse ih =>
    obtain ⟨c, hc, hmem⟩ := mem_flatten.1 ih
    obtain ⟨before, after, rfl⟩ := append_of_mem hc
    rw [flatten_append, flatten_cons, mem_append, mem_append]
    rcases h.used before c after rfl _ hmem _ huse with hy | hy
    · exact .inr (.inl hy)
    · exact .inl hy

/-- One more component: instructions that lead to each other, and else only to earlier components. -/
lemma Components.snoc (h : g.Components comps) {c : List (Fin n)} (hnil : c ≠ [])
    (hnodup : c.Nodup) (hnew : ∀ x ∈ c, x ∉ comps.flatten)
    (hreaches : ∀ x ∈ c, ∀ y ∈ c, g.Reaches x y)
    (hused : ∀ x ∈ c, ∀ y, g.Uses x y → y ∈ c ∨ y ∈ comps.flatten) : g.Components (comps ++ [c]) := by
  have hclosed : ∀ x ∈ c, ∀ y, g.Reaches x y → y ∈ c ∨ y ∈ comps.flatten := by
    intro x hx y hxy
    induction hxy with
    | refl => exact .inl hx
    | tail _ huse ih =>
      rcases ih with hmem | hmem
      · exact hused _ hmem _ huse
      · exact .inr (h.mem_of_reaches hmem (.single huse))
  refine ⟨?_, ?_, ?_, ?_⟩
  · intro d hd
    rcases mem_append.1 hd with hd | hd
    · exact h.ne_nil d hd
    · rwa [mem_singleton.1 hd]
  · rw [flatten_append, flatten_cons, flatten_nil, append_nil]
    exact nodup_append.2 ⟨h.nodup, hnodup, fun x hx y hy heq => hnew y hy (heq ▸ hx)⟩
  · intro d hd x hx y
    rcases mem_append.1 hd with hd | hd
    · exact h.mem_iff d hd x hx y
    · obtain rfl := mem_singleton.1 hd
      refine ⟨fun hy => ⟨hreaches x hx y hy, hreaches y hy x hx⟩, fun ⟨hxy, hyx⟩ => ?_⟩
      exact (hclosed x hx y hxy).resolve_right fun hy => hnew x hx (h.mem_of_reaches hy hyx)
  · intro before d after heq x hx y huse
    rcases eq_nil_or_concat after with rfl | ⟨after, z, rfl⟩
    · obtain ⟨rfl, hd⟩ := append_inj' heq rfl
      obtain rfl := (cons.inj hd).1
      exact hused x hx y huse
    · rw [concat_eq_append, ← cons_append, ← append_assoc] at heq
      obtain ⟨rfl, -⟩ := append_inj' heq rfl
      exact h.used before d after rfl x hx y huse

/-! ## The stack -/

/-- The entry at a position of the stack. -/
def At (stack : List (StackEntry n)) (i : ℕ) (e : StackEntry n) : Prop := stack[i]? = some e

variable {stack : List (StackEntry n)} {i : ℕ} {e : StackEntry n} {x : Fin n} {f : StackEntry n}

lemma At.unique (he : At stack i e) (hf : At stack i f) : e = f := some.inj (he.symm.trans hf)

lemma At.lt (he : At stack i e) : i < stack.length := (List.getElem?_eq_some_iff.1 he).1

lemma exists_at (hi : i < stack.length) : ∃ e, At stack i e := ⟨_, List.getElem?_eq_getElem hi⟩

variable {p : ℕ} {e' : StackEntry n}

lemma at_set_iff (he : At stack p e) (i : ℕ) (f : StackEntry n) :
    At (stack.set p e') i f ↔ i = p ∧ f = e' ∨ i ≠ p ∧ At stack i f := by
  unfold At
  rcases eq_or_ne i p with rfl | hne
  · rw [getElem?_set_self he.lt]
    simp [eq_comm]
  · rw [getElem?_set_ne hne.symm]
    simp [hne]

lemma at_concat_iff (i : ℕ) (f : StackEntry n) :
    At (stack ++ [e]) i f ↔ At stack i f ∨ i = stack.length ∧ f = e := by
  unfold At
  rcases lt_trichotomy i stack.length with hi | rfl | hi
  · rw [getElem?_append_left hi]
    simp [hi.ne]
  · simp [eq_comm]
  · rw [getElem?_eq_none (by rw [length_append]; exact hi), getElem?_eq_none hi.le]
    simp [hi.ne']

lemma at_take_iff {k : ℕ} (i : ℕ) (f : StackEntry n) : At (stack.take k) i f ↔ i < k ∧ At stack i f := by
  unfold At
  rw [getElem?_take]
  split <;> simp_all

/-- The positions of the entries that are being visited, from that of the current entry down. -/
inductive UserPath (stack : List (StackEntry n)) : ℕ → List ℕ → Prop
  | start : UserPath stack 0 [0]
  | user {i : ℕ} {e : StackEntry n} {l : List ℕ} : At stack i e → e.userLink < i →
    UserPath stack e.userLink l → UserPath stack i (i :: l)

variable {l : List ℕ}

lemma UserPath.le (h : UserPath stack i l) : ∀ c ∈ l, c ≤ i := by
  induction h with
  | start => exact fun c hc => (mem_singleton.1 hc).le
  | user _ hlt _ ih =>
    intro c hc
    rcases mem_cons.1 hc with rfl | hc
    · exact le_rfl
    · exact (ih c hc).trans hlt.le

lemma UserPath.mem (h : UserPath stack i l) : i ∈ l := by
  cases h <;> exact mem_cons_self

lemma UserPath.zero_mem (h : UserPath stack i l) : 0 ∈ l := by
  induction h with
  | start => exact mem_cons_self
  | user _ _ _ ih => exact mem_cons_of_mem _ ih

/-- Only the links matter. -/
lemma UserPath.congr {stack' : List (StackEntry n)} (h : UserPath stack i l)
    (hlinks : ∀ j ≤ i, ∀ e, At stack j e → ∃ e', At stack' j e' ∧ e'.userLink = e.userLink) :
    UserPath stack' i l := by
  induction h with
  | start => exact .start
  | @user i e l he hlt _ ih =>
    obtain ⟨e', he', hlink⟩ := hlinks i le_rfl e he
    refine .user he' (hlink ▸ hlt) ?_
    rw [hlink]
    exact ih fun j hj => hlinks j (hj.trans hlt.le)

variable (g)

/-- The invariant of the search. `num` are the numbers in which the instructions were found, and `path` are
    the positions of the entries that are being visited. -/
structure Search (s : SccSearch n) (num : Fin n → ℕ) (path : List ℕ) : Prop where
  path_eq : s.stack = [] ∧ path = [] ∨ UserPath s.stack s.currentEntry path ∧ s.currentEntry < s.stack.length
  visiting : ∀ i e, At s.stack i e → i ∈ path → s.visited e.instruction = some ⟨num e.instruction, false⟩
  finished : ∀ i e, At s.stack i e → i ∉ path →
    s.visited e.instruction = some ⟨e.lowDepth, false⟩ ∧ e.lowDepth < num e.instruction ∧
      (g.inputs e.instruction).length ≤ e.numVisitedInputs
  num_lt : ∀ i j e f, i < j → At s.stack i e → At s.stack j f → num e.instruction < num f.instruction
  num_le : ∀ i e, At s.stack i e → num e.instruction ≤ s.globalDepth
  low_le : ∀ i e, At s.stack i e → e.lowDepth ≤ num e.instruction
  low : ∀ i e, At s.stack i e → ∃ j f, At s.stack j f ∧
    num f.instruction = e.lowDepth ∧ g.Reaches e.instruction f.instruction
  link : ∀ i e, At s.stack i e → 0 < i → e.userLink < i ∧
    ∀ f, At s.stack e.userLink f → g.Uses f.instruction e.instruction
  tree : ∀ c ∈ path, ∀ i e, At s.stack i e → c < i → c ≤ e.userLink
  propagated : ∀ i e f, At s.stack i e → i ∉ path → At s.stack e.userLink f → f.lowDepth ≤ e.lowDepth
  seen : ∀ i e, At s.stack i e → ∀ x ∈ (g.inputs e.instruction).take e.numVisitedInputs,
    g.inLoop x = true → ∃ info, s.visited x = some info ∧ (info.done = false → e.lowDepth ≤ num x)
  mem_stack : ∀ x info, s.visited x = some info → info.done = false →
    ∃ i e, At s.stack i e ∧ e.instruction = x
  done_iff : ∀ x, x ∈ (s.classified.map members).flatten ↔
    ∃ info, s.visited x = some info ∧ info.done = true
  inLoop : ∀ x info, s.visited x = some info → g.inLoop x = true
  components : g.Components (s.classified.map members)

variable {g} {s : SccSearch n} {num : Fin n → ℕ} {path : List ℕ}

/-- A change of what is known of an entry that is being visited: more inputs have been seen, or a lower
    entry can be reached. -/
lemma Search.setEntry (h : g.Search s num path) (hp : p ∈ path) (he : At s.stack p e)
    (hinstr : e'.instruction = e.instruction) (hlink : e'.userLink = e.userLink)
    (hle : e'.lowDepth ≤ e.lowDepth)
    (hlow : ∃ j f, At s.stack j f ∧ num f.instruction = e'.lowDepth ∧ g.Reaches e.instruction f.instruction)
    (hseen : ∀ x ∈ (g.inputs e.instruction).take e'.numVisitedInputs, g.inLoop x = true →
      ∃ info, s.visited x = some info ∧ (info.done = false → e'.lowDepth ≤ num x)) :
    g.Search { s with stack := s.stack.set p e' } num path := by
  -- each new entry has the instruction and the link of the old one at its position
  have hold : ∀ i f, At (s.stack.set p e') i f → ∃ f0, At s.stack i f0 ∧
      f.instruction = f0.instruction ∧ f.userLink = f0.userLink ∧ f.lowDepth ≤ f0.lowDepth ∧
      (i ≠ p → f = f0) := by
    intro i f hf
    rcases (at_set_iff he i f).1 hf with ⟨rfl, rfl⟩ | ⟨hne, hf⟩
    · exact ⟨e, he, hinstr, hlink, hle, absurd rfl⟩
    · exact ⟨f, hf, rfl, rfl, le_rfl, fun _ => rfl⟩
  have hnew : ∀ i f0, At s.stack i f0 → ∃ f, At (s.stack.set p e') i f ∧
      f.instruction = f0.instruction ∧ f.userLink = f0.userLink := by
    intro i f0 hf0
    rcases eq_or_ne i p with rfl | hne
    · obtain rfl := some.inj (he.symm.trans hf0)
      exact ⟨e', (at_set_iff he _ _).2 (.inl ⟨rfl, rfl⟩), hinstr, hlink⟩
    · exact ⟨f0, (at_set_iff he _ _).2 (.inr ⟨hne, hf0⟩), rfl, rfl⟩
  have hnot : ∀ i, i ∉ path → i ≠ p := fun i hi heq => hi (heq ▸ hp)
  refine ⟨?_, ?_, ?_, ?_, ?_, ?_, ?_, ?_, ?_, ?_, ?_, ?_, h.done_iff, h.inLoop, h.components⟩
  · rcases h.path_eq with ⟨hnil, -⟩ | ⟨hpath, hlt⟩
    · exact absurd he.lt (by rw [hnil]; exact not_lt_zero p)
    · refine .inr ⟨hpath.congr fun j _ f hf => ?_, by simpa using hlt⟩
      obtain ⟨f', hf', -, hlink'⟩ := hnew j f hf
      exact ⟨f', hf', hlink'⟩
  · intro i f hf hi
    obtain ⟨f0, hf0, hinstr0, -⟩ := hold i f hf
    rw [hinstr0]
    exact h.visiting i f0 hf0 hi
  · intro i f hf hi
    obtain ⟨f0, hf0, -, -, -, heq⟩ := hold i f hf
    rw [heq (hnot i hi)]
    exact h.finished i f0 hf0 hi
  · intro i j f k hij hf hk
    obtain ⟨f0, hf0, hinstr0, -⟩ := hold i f hf
    obtain ⟨k0, hk0, hinstr1, -⟩ := hold j k hk
    rw [hinstr0, hinstr1]
    exact h.num_lt i j f0 k0 hij hf0 hk0
  · intro i f hf
    obtain ⟨f0, hf0, hinstr0, -⟩ := hold i f hf
    rw [hinstr0]
    exact h.num_le i f0 hf0
  · intro i f hf
    obtain ⟨f0, hf0, hinstr0, -, hle0, -⟩ := hold i f hf
    rw [hinstr0]
    exact hle0.trans (h.low_le i f0 hf0)
  · intro i f hf
    have hmove : ∀ j k, At s.stack j k → num k.instruction = f.lowDepth →
        g.Reaches f.instruction k.instruction → ∃ j k, At (s.stack.set p e') j k ∧
          num k.instruction = f.lowDepth ∧ g.Reaches f.instruction k.instruction := by
      intro j k hk hnum hreach
      obtain ⟨k', hk', hinstr', -⟩ := hnew j k hk
      exact ⟨j, k', hk', by rw [hinstr', hnum], by rw [hinstr']; exact hreach⟩
    rcases (at_set_iff he i f).1 hf with ⟨rfl, rfl⟩ | ⟨hne, hf⟩
    · obtain ⟨j, k, hk, hnum, hreach⟩ := hlow
      exact hmove j k hk hnum (by rw [hinstr]; exact hreach)
    · obtain ⟨j, k, hk, hnum, hreach⟩ := h.low i f hf
      exact hmove j k hk hnum hreach
  · intro i f hf hi
    obtain ⟨f0, hf0, hinstr0, hlink0, -⟩ := hold i f hf
    obtain ⟨hlt, huses⟩ := h.link i f0 hf0 hi
    rw [hinstr0, hlink0]
    refine ⟨hlt, fun k hk => ?_⟩
    obtain ⟨k0, hk0, hinstr1, -⟩ := hold _ k hk
    rw [hinstr1]
    exact huses k0 hk0
  · intro c hc i f hf hlt
    obtain ⟨f0, hf0, -, hlink0, -⟩ := hold i f hf
    rw [hlink0]
    exact h.tree c hc i f0 hf0 hlt
  · intro i f k hf hi hk
    obtain ⟨f0, hf0, -, -, -, heq⟩ := hold i f hf
    obtain rfl := heq (hnot i hi)
    obtain ⟨k0, hk0, -, -, hle0, -⟩ := hold _ k hk
    exact hle0.trans (h.propagated i f k0 hf0 hi hk0)
  · intro i f hf
    rcases (at_set_iff he i f).1 hf with ⟨rfl, rfl⟩ | ⟨hne, hf⟩
    · rw [hinstr]
      exact hseen
    · exact h.seen i f hf
  · intro x info hx hdone
    obtain ⟨i, f0, hf0, hinstr0⟩ := h.mem_stack x info hx hdone
    obtain ⟨f, hf, hinstr', -⟩ := hnew i f0 hf0
    exact ⟨i, f, hf, by rw [hinstr', hinstr0]⟩

variable {userLink : ℕ}

/-- A new entry, for an instruction that is used by that of the current entry. -/
lemma Search.push (h : g.Search s num path) (hx : s.visited x = none) (hloop : g.inLoop x = true)
    (hlink : s.stack = [] ∨ userLink = s.currentEntry ∧
      ∀ e, At s.stack s.currentEntry e → g.Uses e.instruction x) :
    g.Search (pushEntry s x userLink) (update num x (s.globalDepth + 1)) (s.stack.length :: path) := by
  have hne : ∀ i e, At s.stack i e → e.instruction ≠ x := by
    intro i e he heq
    by_cases hi : i ∈ path
    · have := h.visiting i e he hi
      rw [heq, hx] at this
      cases this
    · have := (h.finished i e he hi).1
      rw [heq, hx] at this
      cases this
  have hnum : ∀ i e, At s.stack i e → update num x (s.globalDepth + 1) e.instruction = num e.instruction :=
    fun i e he => update_of_ne (hne i e he) _ _
  have hvisited : ∀ y, y ≠ x → (pushEntry s x userLink).visited y = s.visited y :=
    fun y hy => update_of_ne hy _ _
  have hself : (pushEntry s x userLink).visited x = some ⟨s.globalDepth + 1, false⟩ := update_self _ _ _
  have hnumself : update num x (s.globalDepth + 1) x = s.globalDepth + 1 := update_self _ _ _
  have hat : ∀ i f, At (pushEntry s x userLink).stack i f ↔ At s.stack i f ∨
      i = s.stack.length ∧ f = ⟨x, userLink, 0, s.globalDepth + 1⟩ := at_concat_iff
  have hpath : ∀ i e, At s.stack i e → (i ∈ s.stack.length :: path ↔ i ∈ path) := fun i e he => by
    rw [mem_cons]
    exact or_iff_right he.lt.ne
  refine ⟨.inr ⟨?_, ?_⟩, ?_, ?_, ?_, ?_, ?_, ?_, ?_, ?_, ?_, ?_, ?_, ?_, ?_, h.components⟩
  · change UserPath (pushEntry s x userLink).stack s.stack.length _
    rcases h.path_eq with ⟨hnil, rfl⟩ | ⟨hp, hlt⟩
    · rw [hnil]
      exact .start
    · have hcurrent : userLink = s.currentEntry := by
        refine (hlink.resolve_left fun hnil => ?_).1
        rw [hnil] at hlt
        exact not_lt_zero _ hlt
      subst hcurrent
      refine .user ((hat _ _).2 (.inr ⟨rfl, rfl⟩)) hlt (hp.congr fun j hj e he => ?_)
      exact ⟨e, (hat j e).2 (.inl he), rfl⟩
  · change s.stack.length < (s.stack ++ [_]).length
    simp
  · intro i e he hi
    rcases (hat i e).1 he with he | ⟨-, rfl⟩
    · rw [hvisited _ (hne i e he), hnum i e he]
      exact h.visiting i e he ((hpath i e he).1 hi)
    · rw [hself, hnumself]
  · intro i e he hi
    rcases (hat i e).1 he with he | ⟨rfl, -⟩
    · rw [hvisited _ (hne i e he), hnum i e he]
      exact h.finished i e he fun hmem => hi ((hpath i e he).2 hmem)
    · exact absurd mem_cons_self hi
  · intro i j e f hij he hf
    rcases (hat i e).1 he with he | ⟨rfl, rfl⟩ <;> rcases (hat j f).1 hf with hf | ⟨rfl, rfl⟩
    · rw [hnum i e he, hnum j f hf]
      exact h.num_lt i j e f hij he hf
    · rw [hnum i e he, hnumself]
      exact lt_succ_of_le (h.num_le i e he)
    · exact absurd hf.lt hij.not_gt
    · exact absurd hij (lt_irrefl _)
  · intro i e he
    rcases (hat i e).1 he with he | ⟨-, rfl⟩
    · rw [hnum i e he]
      exact (h.num_le i e he).trans (le_succ _)
    · rw [hnumself]
      exact le_rfl
  · intro i e he
    rcases (hat i e).1 he with he | ⟨-, rfl⟩
    · rw [hnum i e he]
      exact h.low_le i e he
    · rw [hnumself]
  · intro i e he
    rcases (hat i e).1 he with he | ⟨rfl, rfl⟩
    · obtain ⟨j, f, hf, hlow, hreach⟩ := h.low i e he
      exact ⟨j, f, (hat j f).2 (.inl hf), (hnum j f hf).trans hlow, hreach⟩
    · exact ⟨_, _, he, hnumself, .refl⟩
  · intro i e he hi
    rcases (hat i e).1 he with he | ⟨rfl, rfl⟩
    · obtain ⟨hlt, huses⟩ := h.link i e he hi
      refine ⟨hlt, fun f hf => ?_⟩
      rcases (hat _ f).1 hf with hf | ⟨heq, -⟩
      · exact huses f hf
      · exact absurd (heq ▸ hlt) he.lt.not_gt
    · have hstack : s.stack ≠ [] := ne_nil_of_length_pos hi
      obtain ⟨rfl, huses⟩ := hlink.resolve_left hstack
      have hlt := (h.path_eq.resolve_left fun hnil => hstack hnil.1).2
      refine ⟨hlt, fun f hf => ?_⟩
      rcases (hat _ f).1 hf with hf | ⟨heq, -⟩
      · exact huses f hf
      · exact absurd heq hlt.ne
  · intro c hc i e he hlt
    rcases (hat i e).1 he with he | ⟨rfl, rfl⟩
    · rcases mem_cons.1 hc with rfl | hc
      · exact absurd he.lt hlt.not_gt
      · exact h.tree c hc i e he hlt
    · rcases mem_cons.1 hc with rfl | hc
      · exact absurd hlt (lt_irrefl _)
      · rcases h.path_eq with ⟨-, rfl⟩ | ⟨hp, hlt'⟩
        · exact absurd hc not_mem_nil
        · obtain ⟨rfl, -⟩ := hlink.resolve_left (ne_nil_of_length_pos (by omega))
          exact hp.le c hc
  · intro i e f he hi hf
    rcases (hat i e).1 he with he | ⟨rfl, -⟩
    · have hi' : i ∉ path := fun hmem => hi ((hpath i e he).2 hmem)
      rcases (hat _ f).1 hf with hf | ⟨heq, -⟩
      · exact h.propagated i e f he hi' hf
      · -- the link of an entry is below it
        exfalso
        rcases Nat.eq_zero_or_pos i with rfl | hpos
        · rcases h.path_eq with ⟨hnil, -⟩ | ⟨hp, -⟩
          · rw [hnil] at he
            cases he
          · exact hi' hp.zero_mem
        · exact absurd (heq ▸ (h.link i e he hpos).1) he.lt.not_gt
    · exact absurd mem_cons_self hi
  · intro i e he y hy hyloop
    rcases (hat i e).1 he with he | ⟨-, rfl⟩
    · obtain ⟨info, hinfo, hle⟩ := h.seen i e he y hy hyloop
      have hyx : y ≠ x := by
        rintro rfl
        rw [hx] at hinfo
        cases hinfo
      refine ⟨info, (hvisited y hyx).trans hinfo, fun hdone => ?_⟩
      rw [update_of_ne hyx]
      exact hle hdone
    · exact absurd hy not_mem_nil
  · intro y info hy hdone
    rcases eq_or_ne y x with rfl | hyx
    · exact ⟨_, _, (hat _ _).2 (.inr ⟨rfl, rfl⟩), rfl⟩
    · obtain ⟨i, e, he, hinstr⟩ := h.mem_stack y info ((hvisited y hyx).symm.trans hy) hdone
      exact ⟨i, e, (hat i e).2 (.inl he), hinstr⟩
  · intro y
    refine (h.done_iff y).trans (exists_congr fun info => ?_)
    rcases eq_or_ne y x with rfl | hyx
    · rw [hx, hself]
      refine iff_of_false (fun hh => by cases hh.1) ?_
      rintro ⟨hinfo, hdone⟩
      rw [← some.inj hinfo] at hdone
      cases hdone
    · rw [hvisited y hyx]
  · intro y info hy
    rcases eq_or_ne y x with rfl | hyx
    · exact hloop
    · exact h.inLoop y info ((hvisited y hyx).symm.trans hy)

lemma Search.userPath (h : g.Search s num path) (he : At s.stack i e) :
    UserPath s.stack s.currentEntry path := by
  refine (h.path_eq.resolve_left fun hnil => ?_).1
  have := he.lt
  rw [hnil.1] at this
  exact not_lt_zero i this

lemma Search.path_cases (h : g.Search s num path) (he : At s.stack s.currentEntry e) :
    ∃ rest, path = s.currentEntry :: rest ∧ (s.currentEntry = 0 ∧ rest = [] ∨
        e.userLink < s.currentEntry ∧ UserPath s.stack e.userLink rest) := by
  have hpath := h.userPath he
  generalize s.currentEntry = c at he hpath
  cases hpath with
  | start => exact ⟨[], rfl, .inl ⟨rfl, rfl⟩⟩
  | user he' hlink hrest =>
    obtain rfl := he.unique he'
    exact ⟨_, rfl, .inr ⟨hlink, hrest⟩⟩

variable {j : ℕ}

/-- Positions are ordered by the numbers of their instructions. -/
lemma Search.le_of_num_le (h : g.Search s num path) (he : At s.stack i e) (hf : At s.stack j f)
    (hle : num e.instruction ≤ num f.instruction) : i ≤ j :=
  not_lt.1 fun hlt => (h.num_lt j i f e hlt hf he).not_ge hle

lemma Search.ne_of_ne (h : g.Search s num path) (he : At s.stack i e) (hf : At s.stack j f)
    (hne : i ≠ j) : e.instruction ≠ f.instruction := by
  intro heq
  exact hne (le_antisymm (h.le_of_num_le he hf (by rw [heq])) (h.le_of_num_le hf he (by rw [heq])))

/-- What is on the stack has been visited, and is not done. -/
lemma Search.visited_of_at (h : g.Search s num path) (he : At s.stack i e) :
    ∃ info, s.visited e.instruction = some info ∧ info.done = false := by
  by_cases hi : i ∈ path
  · exact ⟨_, h.visiting i e he hi, rfl⟩
  · exact ⟨_, (h.finished i e he hi).1, rfl⟩

/-- All inputs of the current entry have been looked at. -/
structure Search.Finished (g : LoopInstructions n) (s : SccSearch n) (num : Fin n → ℕ)
    (path : List ℕ) (e : StackEntry n) : Prop extends g.Search s num path where
  at_current : At s.stack s.currentEntry e
  le_numVisitedInputs : (g.inputs e.instruction).length ≤ e.numVisitedInputs

/-- An entry that leads to a lower one has a user. -/
lemma Search.Finished.userLink_lt (h : Search.Finished g s num path e)
    (hlt : e.lowDepth < num e.instruction) : e.userLink < s.currentEntry ∧
      ∃ rest, path = s.currentEntry :: rest ∧ UserPath s.stack e.userLink rest := by
  obtain ⟨rest, rfl, ⟨hzero, -⟩ | ⟨hlink, hrest⟩⟩ := h.path_cases h.at_current
  · obtain ⟨j, f, hf, hnum, -⟩ := h.low _ e h.at_current
    have hj : j ≤ s.currentEntry := h.le_of_num_le hf h.at_current (by omega)
    obtain rfl : j = s.currentEntry := by omega
    rw [hf.unique h.at_current] at hnum
    omega
  · exact ⟨hlink, rest, rfl, hrest⟩

/-- An entry that leads to a lower one stays on the stack, and the search goes back to its user. -/
lemma Search.Finished.keep {prev : StackEntry n} (h : Search.Finished g s num path e)
    (hlt : e.lowDepth < num e.instruction) (hprev : At s.stack e.userLink prev)
    (hle : prev.lowDepth ≤ e.lowDepth) : ∃ rest, path = s.currentEntry :: rest ∧ g.Search { s with
        visited := update s.visited e.instruction (some ⟨e.lowDepth, false⟩)
        currentEntry := e.userLink } num rest := by
  have he := h.at_current
  obtain ⟨hlink, rest, rfl, hrest⟩ := h.userLink_lt hlt
  have hcurrent : s.currentEntry ∉ rest := fun hmem => absurd (hrest.le _ hmem) hlink.not_ge
  have hne : ∀ i f, At s.stack i f → i ≠ s.currentEntry → f.instruction ≠ e.instruction :=
    fun i f hf => h.ne_of_ne hf he
  have hpath : ∀ i, i ≠ s.currentEntry → (i ∈ s.currentEntry :: rest ↔ i ∈ rest) := fun i hi => by
    rw [mem_cons]
    exact or_iff_right hi
  have hold := h.visiting _ e he mem_cons_self
  refine ⟨rest, rfl, .inr ⟨hrest, hprev.lt⟩, ?_, ?_, h.num_lt, h.num_le, h.low_le, h.low, h.link,
    fun c hc => h.tree c (mem_cons_of_mem _ hc), ?_, ?_, ?_, ?_, ?_, h.components⟩
  · intro i f hf hi
    have hicur : i ≠ s.currentEntry := fun heq => hcurrent (heq ▸ hi)
    exact (update_of_ne (hne i f hf hicur) _ _).trans (h.visiting i f hf (mem_cons_of_mem _ hi))
  · intro i f hf hi
    by_cases hicur : i = s.currentEntry
    · subst hicur
      obtain rfl := he.unique hf
      exact ⟨update_self _ _ _, hlt, h.le_numVisitedInputs⟩
    · obtain ⟨hvisited, hfin⟩ := h.finished i f hf fun hmem => hi ((hpath i hicur).1 hmem)
      exact ⟨(update_of_ne (hne i f hf hicur) _ _).trans hvisited, hfin⟩
  · intro i f k hf hi hk
    by_cases hicur : i = s.currentEntry
    · subst hicur
      obtain rfl := he.unique hf
      rw [hk.unique hprev]
      exact hle
    · exact h.propagated i f k hf (fun hmem => hi ((hpath i hicur).1 hmem)) hk
  · intro i f hf x hx hxloop
    obtain ⟨info, hinfo, hlow⟩ := h.seen i f hf x hx hxloop
    by_cases hxe : x = e.instruction
    · subst hxe
      obtain rfl := some.inj (hinfo.symm.trans hold)
      exact ⟨_, update_self _ _ _, fun _ => hlow rfl⟩
    · exact ⟨info, (update_of_ne hxe _ _).trans hinfo, hlow⟩
  · intro x info hx hdone
    by_cases hxe : x = e.instruction
    · exact ⟨_, e, he, hxe.symm⟩
    · exact h.mem_stack x info ((update_of_ne hxe _ _).symm.trans hx) hdone
  · intro x
    refine (h.done_iff x).trans (exists_congr fun info => ?_)
    by_cases hxe : x = e.instruction
    · subst hxe
      dsimp only
      rw [hold, update_self]
      constructor <;>
      · rintro ⟨hinfo, hdone⟩
        rw [← some.inj hinfo] at hdone
        cases hdone
    · dsimp only
      rw [update_of_ne hxe]
  · intro x info hx
    by_cases hxe : x = e.instruction
    · subst hxe
      exact h.inLoop _ _ hold
    · exact h.inLoop x info ((update_of_ne hxe _ _).symm.trans hx)

/-! ## A component on the stack -/

lemma mem_tail_iff {c : ℕ} : x ∈ (stack.drop c).map instruction ↔
      ∃ i f, At stack i f ∧ c ≤ i ∧ f.instruction = x := by
  rw [mem_map]
  constructor
  · rintro ⟨f, hf, rfl⟩
    obtain ⟨k, hk⟩ := mem_iff_getElem?.1 hf
    rw [getElem?_drop] at hk
    exact ⟨c + k, f, hk, le_add_right _ _, rfl⟩
  · rintro ⟨i, f, hf, hi, rfl⟩
    refine ⟨f, mem_iff_getElem?.2 ⟨i - c, ?_⟩, rfl⟩
    rw [getElem?_drop, Nat.add_sub_cancel' hi]
    exact hf

lemma Search.nodup (h : g.Search s num path) : (s.stack.map instruction).Nodup := by
  refine nodup_iff_getElem?_ne_getElem?.2 fun i j hij hj heq => ?_
  rw [length_map] at hj
  obtain ⟨e, he⟩ := exists_at (hij.trans hj)
  obtain ⟨f, hf⟩ := exists_at hj
  rw [getElem?_map, getElem?_map, he, hf] at heq
  exact h.ne_of_ne he hf hij.ne (some.inj heq)

section

variable (h : Search.Finished g s num path e)
include h

lemma Search.Finished.not_mem_path (hi : s.currentEntry < i) : i ∉ path :=
  fun hmem => ((h.userPath h.at_current).le i hmem).not_gt hi

lemma Search.Finished.mem_path : s.currentEntry ∈ path := (h.userPath h.at_current).mem

variable {f : StackEntry n}

/-- The entry of a user, for an entry above the current one. -/
lemma Search.Finished.exists_user (hf : At s.stack i f) (hi : s.currentEntry < i) :
    ∃ k, At s.stack f.userLink k ∧ s.currentEntry ≤ f.userLink ∧
      f.userLink < i ∧ g.Uses k.instruction f.instruction := by
  obtain ⟨hlt, huses⟩ := h.link i f hf (by omega)
  obtain ⟨k, hk⟩ := exists_at (hlt.trans hf.lt)
  exact ⟨k, hk, h.tree _ h.mem_path i f hf hi, hlt, huses k hk⟩

lemma Search.Finished.above (i : ℕ) : ∀ f, At s.stack i f → s.currentEntry ≤ i →
    g.Reaches e.instruction f.instruction ∧ e.lowDepth ≤ f.lowDepth := by
  induction i using Nat.strong_induction_on with
  | h i ih =>
    intro f hf hi
    rcases hi.eq_or_lt with rfl | hi
    · rw [hf.unique h.at_current]
      exact ⟨.refl, le_rfl⟩
    · obtain ⟨k, hk, hle, hlt, huses⟩ := h.exists_user hf hi
      obtain ⟨hreaches, hlow⟩ := ih _ hlt k hk hle
      exact ⟨hreaches.tail huses, hlow.trans (h.propagated i f k hf (h.not_mem_path hi) hk)⟩

variable (hlow : e.lowDepth = num e.instruction)

include hlow in
/-- By induction on the position: an entry that is finished leads to a lower one, which is not below the
    current entry. -/
lemma Search.Finished.reaches_current (i : ℕ) :
    ∀ f, At s.stack i f → s.currentEntry ≤ i → g.Reaches f.instruction e.instruction := by
  induction i using Nat.strong_induction_on with
  | h i ih =>
    intro f hf hi
    rcases hi.eq_or_lt with rfl | hlt
    · rw [hf.unique h.at_current]
    · obtain ⟨-, hnum, -⟩ := h.finished i f hf (h.not_mem_path hlt)
      obtain ⟨j, k, hk, hknum, hreach⟩ := h.low i f hf
      have hle := (h.above i f hf hi).2
      have hij : j ≤ i := h.le_of_num_le hk hf (by omega)
      have hne : j ≠ i := by
        rintro rfl
        rw [hk.unique hf] at hknum
        omega
      exact hreach.trans (ih j (by omega) k hk (h.le_of_num_le h.at_current hk (by omega)))

include hlow in
/-- What is used above the current entry is there too, or has been classified. -/
lemma Search.Finished.used_above (hf : At s.stack i f) (hi : s.currentEntry ≤ i)
    (hx : g.Uses f.instruction x) : x ∈ (s.stack.drop s.currentEntry).map instruction ∨
      x ∈ (s.classified.map members).flatten := by
  have hall : (g.inputs f.instruction).length ≤ f.numVisitedInputs := by
    rcases hi.eq_or_lt with rfl | hlt
    · rw [hf.unique h.at_current]
      exact h.le_numVisitedInputs
    · exact (h.finished i f hf (h.not_mem_path hlt)).2.2
  obtain ⟨info, hinfo, hle⟩ := h.seen i f hf x (by rw [take_of_length_le hall]; exact hx.1) hx.2
  cases hdone : info.done with
  | true => exact .inr ((h.done_iff x).2 ⟨info, hinfo, hdone⟩)
  | false =>
    obtain ⟨j, k, hk, rfl⟩ := h.mem_stack x info hinfo hdone
    have hlef := (h.above i f hf hi).2
    have hlek := hle hdone
    exact .inl (mem_tail_iff.2 ⟨j, k, hk, h.le_of_num_le h.at_current hk (by omega), rfl⟩)

include hlow in
lemma Search.Finished.components_pop : g.Components (s.classified.map members ++
      [(s.stack.drop s.currentEntry).map instruction]) := by
  refine h.components.snoc ?_ ?_ ?_ ?_ ?_
  · exact ne_nil_of_mem (mem_tail_iff.2 ⟨_, e, h.at_current, le_rfl, rfl⟩)
  · rw [map_drop]
    exact h.nodup.sublist (drop_sublist _ _)
  · -- what is on the stack is not done
    intro x hx hmem
    obtain ⟨i, f, hf, -, rfl⟩ := mem_tail_iff.1 hx
    obtain ⟨info, hinfo, hdone⟩ := (h.done_iff _).1 hmem
    obtain ⟨info', hinfo', hdone'⟩ := h.visited_of_at hf
    obtain rfl := some.inj (hinfo.symm.trans hinfo')
    cases hdone.symm.trans hdone'
  · intro x hx y hy
    obtain ⟨i, f, hf, hi, rfl⟩ := mem_tail_iff.1 hx
    obtain ⟨j, k, hk, hj, rfl⟩ := mem_tail_iff.1 hy
    exact (h.reaches_current hlow i f hf hi).trans (h.above j k hk hj).1
  · intro x hx y huse
    obtain ⟨i, f, hf, hi, rfl⟩ := mem_tail_iff.1 hx
    exact h.used_above hlow hf hi huse

/-- Both calls are for the part of the stack from the current entry on. -/
lemma Search.Finished.members_pop : (g.popComponent s e).classified.map members =
    s.classified.map members ++ [(s.stack.drop s.currentEntry).map instruction] := by
  rw [popComponent, map_append]
  congr 1
  split
  next htrivial =>
    rw [Bool.and_eq_true, decide_eq_true_iff] at htrivial
    have hdrop := drop_eq_getElem_cons h.at_current.lt
    rw [drop_eq_nil_of_le htrivial.1.ge] at hdrop
    rw [hdrop, (List.getElem?_eq_some_iff.1 h.at_current).2]
    rfl
  next => rfl

include hlow in
lemma Search.Finished.pop :
    ∃ rest, path = s.currentEntry :: rest ∧ g.Search (g.popComponent s e) num rest := by
  obtain ⟨rest, rfl, hrest⟩ := h.path_cases h.at_current
  have hlen := h.at_current.lt
  -- the entries below the current one are those that stay
  have hat : ∀ i f, At (g.popComponent s e).stack i f ↔ i < s.currentEntry ∧ At s.stack i f :=
    fun i f => at_take_iff i f
  have hbelow : ∀ i f, At (g.popComponent s e).stack i f → At s.stack i f :=
    fun i f hf => ((hat i f).1 hf).2
  have hpath : ∀ i, i < s.currentEntry → (i ∈ s.currentEntry :: rest ↔ i ∈ rest) := fun i hi => by
    rw [mem_cons]
    exact or_iff_right hi.ne
  have hvisited : ∀ x, (g.popComponent s e).visited x =
      if x ∈ (s.stack.drop s.currentEntry).map instruction then
        (s.visited x).map fun info => { info with done := true } else s.visited x := fun x => rfl
  have hfresh : ∀ i f, At (g.popComponent s e).stack i f →
      f.instruction ∉ (s.stack.drop s.currentEntry).map instruction := by
    intro i f hf hmem
    obtain ⟨hi, hf⟩ := (hat i f).1 hf
    obtain ⟨j, k, hk, hj, heq⟩ := mem_tail_iff.1 hmem
    exact h.ne_of_ne hk hf (by omega) heq
  refine ⟨rest, rfl, ?_, ?_, ?_, ?_, ?_, ?_, ?_, ?_, ?_, ?_, ?_, ?_, ?_, ?_, ?_⟩
  · rcases hrest with ⟨hzero, rfl⟩ | ⟨hlink, hrest⟩
    · exact .inl ⟨by rw [popComponent, hzero]; rfl, rfl⟩
    · refine .inr ⟨hrest.congr fun j hj f hf => ⟨f, (hat j f).2 ⟨by omega, hf⟩, rfl⟩, ?_⟩
      change e.userLink < (s.stack.take s.currentEntry).length
      rw [length_take]
      omega
  · intro i f hf hi
    rw [hvisited, if_neg (hfresh i f hf)]
    exact h.visiting i f (hbelow i f hf) (mem_cons_of_mem _ hi)
  · intro i f hf hi
    rw [hvisited, if_neg (hfresh i f hf)]
    obtain ⟨hlt, hf⟩ := (hat i f).1 hf
    exact h.finished i f hf fun hmem => hi ((hpath i hlt).1 hmem)
  · exact fun i j f k hij hf hk => h.num_lt i j f k hij (hbelow i f hf) (hbelow j k hk)
  · exact fun i f hf => h.num_le i f (hbelow i f hf)
  · exact fun i f hf => h.low_le i f (hbelow i f hf)
  · intro i f hf
    obtain ⟨hi, hf⟩ := (hat i f).1 hf
    obtain ⟨j, k, hk, hnum, hreach⟩ := h.low i f hf
    have hle := h.low_le i f hf
    have hj := h.le_of_num_le hk hf (by omega)
    exact ⟨j, k, (hat j k).2 ⟨by omega, hk⟩, hnum, hreach⟩
  · intro i f hf hi
    obtain ⟨hlt, huses⟩ := h.link i f (hbelow i f hf) hi
    exact ⟨hlt, fun k hk => huses k (hbelow _ k hk)⟩
  · exact fun c hc i f hf => h.tree c (mem_cons_of_mem _ hc) i f (hbelow i f hf)
  · intro i f k hf hi hk
    obtain ⟨hlt, hf⟩ := (hat i f).1 hf
    exact h.propagated i f k hf (fun hmem => hi ((hpath i hlt).1 hmem)) (hbelow _ k hk)
  · intro i f hf x hx hxloop
    obtain ⟨info, hinfo, hle⟩ := h.seen i f (hbelow i f hf) x hx hxloop
    rw [hvisited, hinfo]
    split_ifs with hmem
    · exact ⟨_, rfl, nofun⟩
    · exact ⟨info, rfl, hle⟩
  · intro x info hx hdone
    rw [hvisited] at hx
    split_ifs at hx with hmem
    · obtain ⟨old, -, rfl⟩ := Option.map_eq_some_iff.1 hx
      cases hdone
    · obtain ⟨i, f, hf, rfl⟩ := h.mem_stack x info hx hdone
      refine ⟨i, f, (hat i f).2 ⟨not_le.1 fun hi => hmem ?_, hf⟩, rfl⟩
      exact mem_tail_iff.2 ⟨i, f, hf, hi, rfl⟩
  · intro x
    rw [h.members_pop, flatten_append, mem_append, flatten_cons, flatten_nil, append_nil, h.done_iff x, hvisited]
    split_ifs with hmem
    · obtain ⟨i, f, hf, -, rfl⟩ := mem_tail_iff.1 hmem
      obtain ⟨info, hinfo, -⟩ := h.visited_of_at hf
      rw [hinfo]
      exact iff_of_true (.inr hmem) ⟨_, rfl, rfl⟩
    · exact or_iff_left hmem
  · intro x info hx
    rw [hvisited] at hx
    split_ifs at hx with hmem
    · obtain ⟨old, hold, -⟩ := Option.map_eq_some_iff.1 hx
      exact h.inLoop x old hold
    · exact h.inLoop x info hx
  · rw [h.members_pop]
    exact h.components_pop hlow

end

/-! ## Rounds of the search -/

lemma length_inputs_le (x : Fin n) : (g.inputs x).length ≤ g.maxInputs :=
  Finset.le_sup (f := fun i => (g.inputs i).length) (Finset.mem_univ x)

lemma roundsBound_eq (he : At s.stack s.currentEntry e) :
    g.roundsBound s = unvisited s * ((n + 1) * (g.maxInputs + 1)) +
      ((s.currentEntry + 1) * (g.maxInputs + 1) +
        ((g.inputs e.instruction).length - e.numVisitedInputs)) := by
  rw [roundsBound, he]

variable {s' : SccSearch n}

/-- The search goes back to an entry below, or ends. -/
lemma roundsBound_lt_of_back (he : At s.stack s.currentEntry e) (hunvisited : unvisited s' = unvisited s)
    (hback : ∀ f, At s'.stack s'.currentEntry f → s'.currentEntry < s.currentEntry) :
    g.roundsBound s' < g.roundsBound s := by
  rw [roundsBound_eq he, succ_mul s.currentEntry]
  rcases lt_or_ge s'.currentEntry _ with hlt | hge
  · obtain ⟨f, hf⟩ := exists_at hlt
    have hmul : (s'.currentEntry + 1) * (g.maxInputs + 1) ≤ s.currentEntry * (g.maxInputs + 1) :=
      mul_le_mul_right _ (hback f hf)
    have hle := g.length_inputs_le f.instruction
    rw [roundsBound_eq hf, hunvisited]
    omega
  · rw [roundsBound, getElem?_eq_none hge, hunvisited]
    dsimp only
    omega

lemma unvisited_congr (h : ∀ x, (s'.visited x).isNone = (s.visited x).isNone) :
    unvisited s' = unvisited s := by
  simp only [unvisited, h]

lemma unvisited_pushEntry (hx : s.visited x = none) :
    unvisited (pushEntry s x userLink) + 1 = unvisited s := by
  have herase : (Finset.univ.filter fun i => ((pushEntry s x userLink).visited i).isNone) =
      (Finset.univ.filter fun i => (s.visited i).isNone).erase x := by
    ext i
    rw [Finset.mem_erase, pushEntry]
    rcases eq_or_ne i x with rfl | hne
    · simp
    · simp [hne]
  rw [unvisited, herase, unvisited]
  refine Finset.card_erase_add_one ?_
  simp [hx]

lemma Search.length_le (h : g.Search s num path) : s.stack.length ≤ n := by
  have hle := h.nodup.length_le_card
  rwa [length_map, Fintype.card_fin] at hle

/-- The depth of an instruction on the stack is the number of one that it leads to. -/
lemma Search.depth_spec (h : g.Search s num path) {info : NodeInfo} (hx : s.visited x = some info)
    (hdone : info.done = false) :
    info.depth ≤ num x ∧ ∃ j f, At s.stack j f ∧ num f.instruction = info.depth ∧
      g.Reaches x f.instruction := by
  obtain ⟨i, e, he, rfl⟩ := h.mem_stack x info hx hdone
  by_cases hi : i ∈ path
  · obtain rfl := some.inj (hx.symm.trans (h.visiting i e he hi))
    exact ⟨le_rfl, i, e, he, rfl, .refl⟩
  · obtain ⟨hvisited, hlt, -⟩ := h.finished i e he hi
    obtain rfl := some.inj (hx.symm.trans hvisited)
    exact ⟨hlt.le, h.low i e he⟩

variable {lowDepth : ℕ}

/-- One more input of an entry has been looked at. -/
lemma Search.see (h : g.Search s num path) (hp : p ∈ path) (he : At s.stack p e)
    (hget : (g.inputs e.instruction)[e.numVisitedInputs]? = some x) (hle : lowDepth ≤ e.lowDepth)
    (hlow : ∃ j f, At s.stack j f ∧ num f.instruction = lowDepth ∧ g.Reaches e.instruction f.instruction)
    (hx : g.inLoop x = true → ∃ info, s.visited x = some info ∧ (info.done = false → lowDepth ≤ num x)) :
    g.Search { s with
      stack := s.stack.set p ⟨e.instruction, e.userLink, e.numVisitedInputs + 1, lowDepth⟩ }
      num path := by
  refine h.setEntry hp he rfl rfl hle hlow fun y hy hyloop => ?_
  rw [take_add_one, hget, mem_append] at hy
  rcases hy with hy | hy
  · obtain ⟨info, hinfo, hnum⟩ := h.seen p e he y hy hyloop
    exact ⟨info, hinfo, fun hdone => hle.trans (hnum hdone)⟩
  · obtain rfl := mem_singleton.1 hy
    exact hx hyloop

/-- What a round of the search does: the invariant is kept, with some numbers and some path, the bound of
    the rounds decreases, and what has been visited stays so. -/
structure Advances (g : LoopInstructions n) (s s' : SccSearch n) : Prop where
  search : ∃ num path, g.Search s' num path
  roundsBound_lt : g.roundsBound s' < g.roundsBound s
  visited : ∀ x, (s.visited x).isSome → (s'.visited x).isSome

variable (he : At s.stack s.currentEntry e)
  (hget : (g.inputs e.instruction)[e.numVisitedInputs]? = some x)

include he hget in
lemma roundsBound_set_lt : g.roundsBound { s with
      stack := s.stack.set s.currentEntry
        ⟨e.instruction, e.userLink, e.numVisitedInputs + 1, lowDepth⟩ } < g.roundsBound s := by
  have hlt := (List.getElem?_eq_some_iff.1 hget).1
  have hat : At (s.stack.set s.currentEntry
      ⟨e.instruction, e.userLink, e.numVisitedInputs + 1, lowDepth⟩) s.currentEntry _ :=
    (at_set_iff he _ _).2 (.inl ⟨rfl, rfl⟩)
  rw [roundsBound_eq he, roundsBound_eq (s := { s with stack := s.stack.set s.currentEntry _ }) hat]
  change unvisited s * _ + _ < _
  dsimp only
  omega

include he in
lemma roundsBound_pushEntry_lt (hx : s.visited x = none)
    (hlen : s.stack.length ≤ n) : g.roundsBound (pushEntry s x userLink) < g.roundsBound s := by
  have hunvisited : unvisited (pushEntry s x userLink) + 1 = unvisited s := unvisited_pushEntry hx
  have hnew : At (pushEntry s x userLink).stack (pushEntry s x userLink).currentEntry _ :=
    (at_concat_iff _ _).2 (.inr ⟨rfl, rfl⟩)
  have hmul : (s.stack.length + 1) * (g.maxInputs + 1) ≤ (n + 1) * (g.maxInputs + 1) :=
    mul_le_mul_right _ (succ_le_succ hlen)
  have hinputs := g.length_inputs_le x
  have hcurrent := Nat.add_one_mul s.currentEntry (g.maxInputs + 1)
  rw [roundsBound_eq he, roundsBound_eq hnew, ← hunvisited, succ_mul (unvisited _)]
  change unvisited (pushEntry s x userLink) * _ + ((s.stack.length + 1) * _ + _) < _
  dsimp only
  omega

include he hget in
lemma Search.advances_push (h : g.Search s num path) (hloop : g.inLoop x = true)
    (hx : s.visited x = none) : Advances g s (pushEntry { s with
      stack := s.stack.set s.currentEntry { e with numVisitedInputs := e.numVisitedInputs + 1 } } x
      s.currentEntry) := by
  have huses : g.Uses e.instruction x := ⟨mem_of_getElem? hget, hloop⟩
  have hpush := h.push hx hloop (.inr ⟨rfl, fun f hf => hf.unique he ▸ huses⟩)
  have hat : At (pushEntry s x s.currentEntry).stack s.currentEntry e := (at_concat_iff _ _).2 (.inl he)
  have hmem : s.currentEntry ∈ s.stack.length :: path := mem_cons_of_mem _ (h.userPath he).mem
  have hsee := hpush.see hmem hat hget le_rfl (hpush.low _ e hat) fun _ =>
    ⟨_, update_self _ _ _, fun _ => by
      rw [update_self]
      exact (hpush.low_le _ e hat).trans (hpush.num_le _ e hat)⟩
  -- the source writes the entry before it pushes the new one
  simp only [pushEntry, set_append_left _ _ he.lt] at hsee
  refine ⟨⟨_, _, by rw [pushEntry, length_set]; exact hsee⟩, ?_, ?_⟩
  · have hset : At (s.stack.set s.currentEntry
        { e with numVisitedInputs := e.numVisitedInputs + 1 }) s.currentEntry _ :=
      (at_set_iff he _ _).2 (.inl ⟨rfl, rfl⟩)
    refine lt_trans (roundsBound_pushEntry_lt (s := { s with stack := s.stack.set _ _ }) hset hx ?_)
      (roundsBound_set_lt he hget)
    rw [length_set]
    exact h.length_le
  · intro y hy
    rcases eq_or_ne y x with rfl | hyx
    · exact isSome_iff_exists.2 ⟨_, update_self _ _ _⟩
    · exact (congrArg isSome (update_of_ne hyx _ s.visited)).trans hy

include he hget in
lemma Search.advances_visitInput (h : g.Search s num path) : Advances g s (g.visitInput s e x) := by
  have hmem := (h.userPath he).mem
  unfold visitInput
  dsimp only
  split
  next hloop =>
    rw [Bool.not_eq_true'] at hloop
    exact ⟨⟨_, _, h.see hmem he hget le_rfl (h.low _ e he) fun hx => by rw [hloop] at hx; cases hx⟩,
      roundsBound_set_lt he hget, fun _ hy => hy⟩
  next hloop =>
    rw [Bool.not_eq_true', Bool.not_eq_false] at hloop
    split
    next hx => exact h.advances_push he hget hloop hx
    next info hx =>
      split
      next hcond =>
        rw [Bool.and_eq_true, Bool.not_eq_true', decide_eq_true_iff] at hcond
        obtain ⟨hnum, j, f, hf, hdepth, hreach⟩ := h.depth_spec hx hcond.1
        have huses : g.Uses e.instruction x := ⟨mem_of_getElem? hget, hloop⟩
        exact ⟨⟨_, _, h.see hmem he hget hcond.2.le ⟨j, f, hf, hdepth, .head huses hreach⟩
          fun _ => ⟨info, hx, fun _ => hnum⟩⟩, roundsBound_set_lt he hget, fun _ hy => hy⟩
      next hcond =>
        refine ⟨⟨_, _, h.see hmem he hget le_rfl (h.low _ e he) fun _ => ⟨info, hx, fun hdone => ?_⟩⟩,
          roundsBound_set_lt he hget, fun _ hy => hy⟩
        have hnum := (h.depth_spec hx hdone).1
        rw [hdone, Bool.not_false, Bool.true_and, decide_eq_true_iff, not_lt] at hcond
        exact hcond.trans hnum

lemma Search.Finished.advances_keep (h : Search.Finished g s num path e)
    (hlt : e.lowDepth < num e.instruction) :
    ∃ s', keepEntry s e ⟨num e.instruction, false⟩ = some s' ∧ Advances g s s' := by
  obtain ⟨hlink, rest, rfl, hrest⟩ := h.userLink_lt hlt
  have he := h.at_current
  obtain ⟨prev, hprev⟩ := exists_at (hlink.trans he.lt)
  -- the low depth of the user, which is being visited, is lowered first
  have hset : Search.Finished g { s with
      stack := if e.lowDepth < prev.lowDepth then
          s.stack.set e.userLink { prev with lowDepth := e.lowDepth } else s.stack } num
      (s.currentEntry :: rest) e ∧ ∃ prev', At (if e.lowDepth < prev.lowDepth then
          s.stack.set e.userLink { prev with lowDepth := e.lowDepth } else s.stack) e.userLink prev' ∧
        prev'.lowDepth ≤ e.lowDepth := by
    split
    next hlow =>
      obtain ⟨j, f, hf, hnum, hreach⟩ := h.low _ e he
      have huses := (h.link _ e he (by omega)).2 prev hprev
      refine ⟨⟨h.setEntry (mem_cons_of_mem _ hrest.mem) hprev rfl rfl hlow.le
        ⟨j, f, hf, hnum, .head huses hreach⟩ fun x hx hloop => ?_, ?_, h.le_numVisitedInputs⟩,
        _, (at_set_iff hprev _ _).2 (.inl ⟨rfl, rfl⟩), le_rfl⟩
      · obtain ⟨info, hinfo, hle⟩ := h.seen _ prev hprev x hx hloop
        exact ⟨info, hinfo, fun hdone => hlow.le.trans (hle hdone)⟩
      · exact (at_set_iff hprev _ _).2 (.inr ⟨hlink.ne', he⟩)
    next hlow => exact ⟨h, prev, hprev, not_lt.1 hlow⟩
  obtain ⟨hset, prev', hprev', hle⟩ := hset
  obtain ⟨rest', -, hkeep⟩ := hset.keep hlt hprev' hle
  have hvisited := h.visiting _ e he mem_cons_self
  have hsome : ∀ x, (update s.visited e.instruction (some ⟨e.lowDepth, false⟩) x).isSome =
      (s.visited x).isSome := by
    intro x
    rcases eq_or_ne x e.instruction with rfl | hne
    · rw [update_self, hvisited]
      rfl
    · rw [update_of_ne hne]
  refine ⟨_, by rw [keepEntry, hprev]; rfl, ⟨num, rest', hkeep⟩, ?_, fun x hx => (hsome x).trans hx⟩
  refine roundsBound_lt_of_back he (unvisited_congr fun x => ?_) fun f _ => hlink
  rw [← not_isSome, ← not_isSome, ← hsome x]

lemma Search.Finished.advances_pop (h : Search.Finished g s num path e)
    (hlow : e.lowDepth = num e.instruction) : Advances g s (g.popComponent s e) := by
  obtain ⟨rest, rfl, hpop⟩ := h.pop hlow
  have he := h.at_current
  have hsome : ∀ x, ((g.popComponent s e).visited x).isSome = (s.visited x).isSome := by
    intro x
    change (markDone _ _ x).isSome = _
    unfold markDone
    split
    · exact Option.isSome_map
    · rfl
  refine ⟨⟨num, rest, hpop⟩, ?_, fun x hx => (hsome x).trans hx⟩
  refine roundsBound_lt_of_back he (unvisited_congr fun x => ?_) fun f hf => ?_
  · rw [← not_isSome, ← not_isSome, hsome x]
  · exact ((at_take_iff _ _).1 hf).1

/-- Each round of the search. -/
lemma Search.advances_step (h : g.Search s num path) (hne : s.stack ≠ []) :
    ∃ s', g.sccStep s = some s' ∧ Advances g s s' := by
  have hlt : s.currentEntry < s.stack.length := (h.path_eq.resolve_left fun hnil => hne hnil.1).2
  obtain ⟨e, he⟩ := exists_at hlt
  have hget := he
  rw [sccStep, hget, bind_eq_bind, bind_some]
  split
  next x hx => exact ⟨_, rfl, h.advances_visitInput he hx⟩
  next hx =>
    have hfinished : Search.Finished g s num path e := ⟨h, he, getElem?_eq_none_iff.1 hx⟩
    have hvisited := h.visiting _ e he (h.userPath he).mem
    rw [hvisited, bind_eq_bind, bind_some]
    split
    next hlow => exact hfinished.advances_keep hlow
    next hlow => exact ⟨_, rfl, hfinished.advances_pop (le_antisymm (h.low_le _ e he) (not_lt.1 hlow))⟩

/-! ## The whole search -/

variable (g)

/-- The state between two calls of `TryVisitNodes`. -/
structure Idle (s : SccSearch n) : Prop where
  search : ∃ num path, g.Search s num path
  stack_eq : s.stack = []

variable {g}

lemma Idle.start : g.Idle ⟨fun _ => none, 0, [], 0, []⟩ := by
  have hnot : ∀ {p : Prop} {i} {e : StackEntry n}, At [] i e → p := fun he => absurd he.lt (not_lt_zero _)
  refine ⟨⟨fun _ => 0, [], .inl ⟨rfl, rfl⟩, fun _ _ => hnot, fun _ _ => hnot, fun _ _ _ _ _ => hnot,
    fun _ _ => hnot, fun _ _ => hnot, fun _ _ => hnot, fun _ _ => hnot, ?_, fun _ _ _ => hnot,
    fun _ _ => hnot, ?_, ?_, ?_, Components.nil⟩, rfl⟩
  · exact fun c hc => absurd hc not_mem_nil
  · exact fun x info hx => absurd hx (some_ne_none info).symm
  · exact fun x => iff_of_false not_mem_nil fun ⟨info, hx, _⟩ => some_ne_none info hx.symm
  · exact fun x info hx => absurd hx (some_ne_none info).symm

/-- What has been visited is in one of the components. -/
lemma Idle.mem_iff (h : g.Idle s) (x : Fin n) :
    x ∈ (s.classified.map members).flatten ↔ (s.visited x).isSome := by
  obtain ⟨num, path, hsearch⟩ := h.search
  rw [hsearch.done_iff x, isSome_iff_exists]
  refine exists_congr fun info => and_iff_left_of_imp fun hinfo => ?_
  by_contra hdone
  obtain ⟨i, e, he, -⟩ := hsearch.mem_stack x info hinfo (Bool.eq_false_iff.2 hdone)
  have := he.lt
  rw [h.stack_eq] at this
  exact not_lt_zero i this

/-- Rounds are made until the stack is empty. -/
lemma Idle.tryVisitNodes_rule (h : g.Idle s) (hloop : g.inLoop x = true) {P : SccSearch n → Prop}
    (hdone : (s.visited x).isSome → P s) (hpush : s.visited x = none → P (pushEntry s x (2 ^ 64 - 1)))
    (hstep : ∀ t t' num path, g.Search t num path → g.sccStep t = some t' → g.Advances t t' → P t → P t') :
    ∃ s', g.tryVisitNodes s x = some s' ∧ g.Idle s' ∧ P s' := by
  obtain ⟨num, path, hsearch⟩ := h.search
  rw [LoopInstructions.tryVisitNodes]
  cases hx : s.visited x with
  | some info => exact ⟨s, rfl, h, hdone (by rw [hx]; rfl)⟩
  | none =>
    have heq : { s with stack := [] } = s := by rw [← h.stack_eq]
    rw [heq]
    have hstart : g.Search (pushEntry s x (2 ^ 64 - 1)) _ _ := hsearch.push hx hloop (.inl h.stack_eq)
    obtain ⟨s', hs', ⟨hsearch', hP⟩, hempty⟩ := Loop.whileM_rule
      (fun s : SccSearch n => !s.stack.isEmpty) g.sccStep
      (P := fun t => (∃ num path, g.Search t num path) ∧ P t) _
      (fun t ⟨⟨num, path, ht⟩, hP⟩ hne => by
        rw [Bool.not_eq_true', isEmpty_eq_false_iff] at hne
        obtain ⟨t', ht', hadv⟩ := ht.advances_step hne
        exact ⟨t', ht', ⟨hadv.search, hstep t t' num path ht ht' hadv hP⟩, hadv.roundsBound_lt⟩)
      ⟨⟨_, _, hstart⟩, hpush hx⟩ le_rfl
    rw [Bool.not_eq_false', List.isEmpty_iff] at hempty
    exact ⟨s', hs', ⟨hsearch', hempty⟩, hP⟩

lemma Idle.tryVisitNodes (h : g.Idle s) (hloop : g.inLoop x = true) :
    ∃ s', g.tryVisitNodes s x = some s' ∧ g.Idle s' ∧ (s'.visited x).isSome ∧
      ∀ y, (s.visited y).isSome → (s'.visited y).isSome := by
  have hself : ((pushEntry s x (2 ^ 64 - 1)).visited x).isSome :=
    isSome_iff_exists.2 ⟨_, update_self _ _ _⟩
  refine h.tryVisitNodes_rule hloop
    (P := fun t => (t.visited x).isSome ∧ ∀ y, (s.visited y).isSome → (t.visited y).isSome)
    (fun hx => ⟨hx, fun _ hy => hy⟩) (fun _ => ⟨hself, fun y hy => ?_⟩)
    fun t t' _ _ _ _ hadv hP => ⟨hadv.visited x hP.1, fun y hy => hadv.visited y (hP.2 y hy)⟩
  rcases eq_or_ne y x with rfl | hyx
  · exact hself
  · exact (congrArg isSome (update_of_ne hyx _ s.visited)).trans hy

lemma Idle.visitAll {l : List (Fin n)} (h : g.Idle s) (hloop : ∀ x ∈ l, g.inLoop x = true) :
    ∃ s', l.foldlM g.tryVisitNodes s = some s' ∧ g.Idle s' ∧ (∀ x ∈ l, (s'.visited x).isSome) ∧
      ∀ y, (s.visited y).isSome → (s'.visited y).isSome := by
  induction l generalizing s with
  | nil => exact ⟨s, rfl, h, fun x hx => absurd hx not_mem_nil, fun _ hy => hy⟩
  | cons x l ih =>
    obtain ⟨t, ht, hidle, hx, hmono⟩ := h.tryVisitNodes (hloop x mem_cons_self)
    obtain ⟨s', hs', hidle', hall, hmono'⟩ := ih hidle fun y hy => hloop y (mem_cons_of_mem _ hy)
    refine ⟨s', ?_, hidle', ?_, fun y hy => hmono' y (hmono y hy)⟩
    · rw [foldlM_cons, ht, bind_eq_bind, bind_some, hs']
    · intro y hy
      rcases mem_cons.1 hy with rfl | hy
      · exact hmono' y hx
      · exact hall y hy

variable (g)

/-- The calls that the search makes, when it is started at all instructions of the loop: each instruction is
    passed once, those that are passed together are a strongly connected component, each component
    comes after those it uses, and the order of a component is a rotation from its first loop phi on. -/
theorem visitLoop_components (instructions : List (Fin n))
    (h : ∀ i, i ∈ instructions ↔ g.inLoop i = true) : ∃ s, g.visitLoop instructions = some s ∧
      (s.classified.map Classified.members).flatten.Nodup ∧
      (∀ i, i ∈ (s.classified.map Classified.members).flatten ↔ g.inLoop i = true) ∧
      (∀ call ∈ s.classified, call.members ≠ [] ∧
        ∀ x ∈ call.members, ∀ y, y ∈ call.members ↔ g.Reaches x y ∧ g.Reaches y x) ∧
      (∀ before call after, s.classified = before ++ call :: after → ∀ x ∈ call.members, ∀ y,
        g.Uses x y → y ∈ call.members ∨ ∃ used ∈ before, y ∈ used.members) ∧
      ∀ stackTail, .nonTrivial stackTail ∈ s.classified → g.extractScc stackTail ~r stackTail.reverse ∧
        ((∃ i ∈ stackTail, g.isLoopHeaderPhi i = true) → ∃ phi ∈ stackTail,
          (g.extractScc stackTail).head? = some phi ∧ g.isLoopHeaderPhi phi = true ∧
          ∀ i ∈ stackTail, g.isLoopHeaderPhi i = true → g.phiPosition phi ≤ g.phiPosition i) := by
  obtain ⟨s, hs, hidle, hall, -⟩ := Idle.start.visitAll fun x hx => (h x).1 hx
  obtain ⟨num, path, hsearch⟩ := hidle.search
  have hcomponents := hsearch.components
  refine ⟨s, hs, hcomponents.nodup, fun i => ?_, fun call hcall => ?_, ?_, fun stackTail _ =>
    ⟨g.extractScc_isRotated stackTail, g.head_extractScc⟩⟩
  · rw [hidle.mem_iff i]
    refine ⟨fun hi => ?_, fun hi => hall i ((h i).2 hi)⟩
    obtain ⟨info, hinfo⟩ := isSome_iff_exists.1 hi
    exact hsearch.inLoop i info hinfo
  · have hmem := mem_map_of_mem (f := Classified.members) hcall
    exact ⟨hcomponents.ne_nil _ hmem, hcomponents.mem_iff _ hmem⟩
  · intro before call after heq x hx y huse
    have hused := hcomponents.used _ _ _ (by rw [heq, map_append, map_cons]) x hx y huse
    rw [mem_flatten] at hused
    simpa only [mem_map, exists_exists_and_eq_and] using hused

/-- A loop phi that an addition uses, and that uses it. -/
theorem visitLoop_components_phi : ∃ s,
    (⟨![[1], [0]], fun _ => true, ![true, false], fun _ => 0⟩ : LoopInstructions 2).visitLoop [0, 1] =
        some s ∧ (s.classified.map Classified.members).flatten.Nodup := by
  obtain ⟨s, hs, hnodup, -⟩ := visitLoop_components
    (⟨![[1], [0]], fun _ => true, ![true, false], fun _ => 0⟩ : LoopInstructions 2) [0, 1]
    (by decide)
  exact ⟨s, hs, hnodup⟩

end LoopInstructions

end Art
