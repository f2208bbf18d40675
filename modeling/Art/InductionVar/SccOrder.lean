import Art.InductionVar.SccRuns

/-!
# The order of a component

An instruction that the search pushes on the stack has been reached from a user that is on the stack. Hence
the instructions of a component that is nothing but a cycle are on the stack in the order of the cycle,
from wherever the search has entered it.
-/

namespace Art

namespace LoopInstructions

open Relation List
open Option (bind_eq_some_iff some)

variable {n : ℕ} (g : LoopInstructions n)

/-- Each instruction but the first is used by one before it. -/
def UserOrdered (l : List (Fin n)) : Prop :=
  ∀ i x, l[i]? = some x → 0 < i → ∃ j u, j < i ∧ l[j]? = some u ∧ g.Uses u x

/-- All calls of `ClassifyNonTrivial` get their instructions after users of them. -/
def CallsOrdered (s : SccSearch n) : Prop :=
  ∀ stackTail, .nonTrivial stackTail ∈ s.classified → g.UserOrdered stackTail

variable {g} {s : SccSearch n} {num : Fin n → ℕ} {path : List ℕ} {x : Fin n}

lemma getElem?_tail {stack : List (StackEntry n)} {c i : ℕ} :
    ((stack.drop c).map StackEntry.instruction)[i]? = some x ↔
      ∃ f, At stack (c + i) f ∧ f.instruction = x := by
  rw [getElem?_map, getElem?_drop, Option.map_eq_some_iff]
  rfl

variable {e : StackEntry n}

lemma Search.Finished.userOrdered (h : Search.Finished g s num path e) :
    g.UserOrdered ((s.stack.drop s.currentEntry).map StackEntry.instruction) := by
  intro i x hx hi
  obtain ⟨f, hf, rfl⟩ := getElem?_tail.1 hx
  obtain ⟨k, hk, hle, hlt, huses⟩ := h.exists_user hf (by omega)
  refine ⟨f.userLink - s.currentEntry, k.instruction, by omega, ?_, huses⟩
  exact getElem?_tail.2 ⟨k, by rwa [Nat.add_sub_cancel' hle], rfl⟩

lemma CallsOrdered.popComponent (ho : g.CallsOrdered s) (h : Search.Finished g s num path e) :
    g.CallsOrdered (g.popComponent s e) := by
  intro stackTail hmem
  rcases mem_append.1 hmem with hmem | hmem
  · exact ho stackTail hmem
  · rw [mem_singleton] at hmem
    split at hmem
    next => cases hmem
    next =>
      rw [Classified.nonTrivial.inj hmem]
      exact h.userOrdered

lemma classified_visitInput (e : StackEntry n) (x : Fin n) :
    (g.visitInput s e x).classified = s.classified := by
  rw [visitInput]
  split
  · rfl
  · split
    · rfl
    · split <;> rfl

variable {s' : SccSearch n}

lemma classified_keepEntry {info : NodeInfo} (h : keepEntry s e info = some s') :
    s'.classified = s.classified := by
  obtain ⟨previous, -, hs'⟩ := bind_eq_some_iff.1 h
  obtain rfl := some.inj hs'
  rfl

/-- Only the end of a component makes a call. -/
lemma CallsOrdered.sccStep (ho : g.CallsOrdered s) (h : g.Search s num path)
    (hs' : g.sccStep s = some s') : g.CallsOrdered s' := by
  obtain ⟨e, he, hs'⟩ := bind_eq_some_iff.1 hs'
  split at hs'
  next x hx =>
    obtain rfl := some.inj hs'
    intro stackTail hmem
    exact ho stackTail (classified_visitInput e x ▸ hmem)
  next hx =>
    obtain ⟨info, -, hs'⟩ := bind_eq_some_iff.1 hs'
    split at hs'
    next =>
      intro stackTail hmem
      exact ho stackTail (classified_keepEntry hs' ▸ hmem)
    next =>
      obtain rfl := some.inj hs'
      exact ho.popComponent ⟨h, he, getElem?_eq_none_iff.1 hx⟩

lemma CallsOrdered.tryVisitNodes (ho : g.CallsOrdered s) (h : g.Idle s)
    (hloop : g.inLoop x = true) (hs' : g.tryVisitNodes s x = some s') : g.CallsOrdered s' := by
  obtain ⟨t, ht, -, hordered⟩ := h.tryVisitNodes_rule hloop (P := g.CallsOrdered) (fun _ => ho)
    (fun _ => ho) fun _ _ _ _ hsearch hstep _ hordered => hordered.sccStep hsearch hstep
  obtain rfl := some.inj (ht.symm.trans hs')
  exact hordered

variable {l : List (Fin n)}

lemma CallsOrdered.visitAll (ho : g.CallsOrdered s) (h : g.Idle s)
    (hloop : ∀ x ∈ l, g.inLoop x = true) (hs' : l.foldlM g.tryVisitNodes s = some s') :
    g.CallsOrdered s' := by
  induction l generalizing s with
  | nil =>
    obtain rfl := some.inj hs'
    exact ho
  | cons x l ih =>
    obtain ⟨t, ht, hs'⟩ := bind_eq_some_iff.1 hs'
    have hx := hloop x mem_cons_self
    obtain ⟨t', ht', hidle, -⟩ := h.tryVisitNodes hx
    obtain rfl := some.inj (ht'.symm.trans ht)
    exact ih (ho.tryVisitNodes h hx ht) hidle (fun y hy => hloop y (mem_cons_of_mem _ hy)) hs'

variable {instructions : List (Fin n)}

lemma visitLoop_callsOrdered (hloop : ∀ x ∈ instructions, g.inLoop x = true)
    (hs : g.visitLoop instructions = some s) : g.CallsOrdered s :=
  CallsOrdered.visitAll (fun _ hmem => absurd hmem not_mem_nil) Idle.start hloop hs

/-! ## Cycles -/

variable (g)

/-- A cycle of instructions, each of which uses the next one and depends on itself in no other way. -/
structure IsCycle (cyc : List (Fin n)) : Prop where
  two_le : 2 ≤ cyc.length
  nodup : cyc.Nodup
  uses : ∀ j x y, cyc[j]? = some x → cyc[(j + 1) % cyc.length]? = some y → g.Uses x y
  eq_of_uses : ∀ j x y, cyc[j]? = some x → g.Uses x y → g.Reaches y x → cyc[(j + 1) % cyc.length]? = some y

variable {g} {cyc : List (Fin n)} {y : Fin n} (h : g.IsCycle cyc)
include h

lemma IsCycle.reaches {j k : ℕ} (hx : cyc[j]? = some x)
    (hy : cyc[(j + k) % cyc.length]? = some y) : g.Reaches x y := by
  induction k generalizing y with
  | zero =>
    rw [add_zero, Nat.mod_eq_of_lt (List.getElem?_eq_some_iff.1 hx).1] at hy
    obtain rfl := some.inj (hx.symm.trans hy)
    exact .refl
  | succ k ih =>
    have hlt : (j + k) % cyc.length < cyc.length := Nat.mod_lt _ (by have := h.two_le; omega)
    refine (ih (getElem?_eq_getElem hlt)).tail (h.uses _ _ y (getElem?_eq_getElem hlt) ?_)
    rwa [Nat.mod_add_mod, add_assoc]

lemma IsCycle.reaches_of_mem (hx : x ∈ cyc) (hy : y ∈ cyc) : g.Reaches x y := by
  obtain ⟨i, hi⟩ := mem_iff_getElem?.1 hx
  obtain ⟨j, hj⟩ := mem_iff_getElem?.1 hy
  have hlt := (List.getElem?_eq_some_iff.1 hi).1
  have hlt' := (List.getElem?_eq_some_iff.1 hj).1
  refine h.reaches (k := j + (cyc.length - i)) hi ?_
  rw [show i + (j + (cyc.length - i)) = j + cyc.length by omega, Nat.add_mod_right, Nat.mod_eq_of_lt hlt']
  exact hj

/-- A cycle is a whole component. -/
lemma IsCycle.mem_of_reaches (hx : x ∈ cyc) (hxy : g.Reaches x y) (hyx : g.Reaches y x) : y ∈ cyc := by
  induction hxy with
  | refl => exact hx
  | @tail u v hxu huv ih =>
    have hu : u ∈ cyc := ih (.head huv hyx)
    obtain ⟨j, hj⟩ := mem_iff_getElem?.1 hu
    exact mem_of_getElem? (h.eq_of_uses j u v hj huv (hyx.trans hxu))

/-- What is ordered by its users goes along the cycle. -/
lemma IsCycle.eq_rotate (hperm : l.Perm cyc) (hordered : g.UserOrdered l) : l ~r cyc := by
  have hlen := hperm.length_eq
  have htwo := h.two_le
  have hnodup := hperm.nodup_iff.2 h.nodup
  obtain ⟨x, hx⟩ : ∃ x, l[0]? = some x := ⟨_, getElem?_eq_getElem (by omega)⟩
  obtain ⟨k, hk⟩ := mem_iff_getElem?.1 (hperm.mem_iff.1 (mem_of_getElem? hx))
  have hklt := (List.getElem?_eq_some_iff.1 hk).1
  have hget : ∀ i < l.length, l[i]? = cyc[(i + k) % cyc.length]? := by
    intro i
    induction i using Nat.strong_induction_on with
    | h i ih =>
      intro hi
      rcases Nat.eq_zero_or_pos i with rfl | hpos
      · rw [zero_add, Nat.mod_eq_of_lt hklt, hx, hk]
      · have hy := getElem?_eq_getElem hi
        obtain ⟨j, u, hj, hu, huses⟩ := hordered i _ hy hpos
        have hmem := hperm.mem_iff.1 (mem_of_getElem? hy)
        have humem := hperm.mem_iff.1 (mem_of_getElem? hu)
        have hnext := h.eq_of_uses _ u _ ((ih j hj (hj.trans hi)).symm.trans hu) huses
          (h.reaches_of_mem hmem humem)
        rw [Nat.mod_add_mod, add_right_comm] at hnext
        -- if the user were not the one just before, the instruction would be there twice
        rcases (Nat.succ_le_of_lt hj).eq_or_lt with rfl | hlt
        · exact hy.trans hnext.symm
        · have hdup := (ih (j + 1) hlt (hlt.trans hi)).trans hnext
          exact absurd ((getElem?_inj hi hnodup).1 (hy.trans hdup.symm)) hlt.ne'
  refine List.IsRotated.symm ⟨k, ext_getElem? fun i => ?_⟩
  rcases lt_or_ge i l.length with hi | hi
  · rw [getElem?_rotate (hlen ▸ hi), hget i hi]
  · rw [getElem?_eq_none (by rw [length_rotate]; omega), getElem?_eq_none hi]

/-- The search passes each cycle to `ClassifyNonTrivial`, and `ExtractScc` turns it around. -/
lemma visitLoop_cycle (hall : ∀ i, i ∈ instructions ↔ g.inLoop i = true) :
    ∃ s stackTail, g.visitLoop instructions = some s ∧ .nonTrivial stackTail ∈ s.classified ∧
      (g.extractScc stackTail).reverse ~r cyc := by
  obtain ⟨s, hs, hnodup, hmem, hcomponent, -, -⟩ := g.visitLoop_components instructions hall
  have hordered := visitLoop_callsOrdered (fun x hx => (hall x).1 hx) hs
  have htwo := h.two_le
  obtain ⟨x, hx⟩ : ∃ x, cyc[0]? = some x := ⟨_, getElem?_eq_getElem (by omega)⟩
  -- the first instruction is used by the last one
  have hloop : g.inLoop x = true := by
    obtain ⟨y, hy⟩ : ∃ y, cyc[cyc.length - 1]? = some y := ⟨_, getElem?_eq_getElem (by omega)⟩
    refine (h.uses _ y x hy ?_).2
    rwa [Nat.sub_add_cancel (by omega), Nat.mod_self]
  obtain ⟨members, hmembers, hxmem⟩ := mem_flatten.1 ((hmem x).2 hloop)
  obtain ⟨call, hcall, rfl⟩ := mem_map.1 hmembers
  have hxc := mem_of_getElem? hx
  have hperm : call.members.Perm cyc := by
    refine (perm_ext_iff_of_nodup ((nodup_flatten.1 hnodup).1 _ hmembers) h.nodup).2 fun y => ?_
    rw [(hcomponent call hcall).2 x hxmem y]
    exact ⟨fun hy => h.mem_of_reaches hxc hy.1 hy.2,
      fun hy => ⟨h.reaches_of_mem hxc hy, h.reaches_of_mem hy hxc⟩⟩
  cases call with
  | trivial i =>
    have hone : 1 = cyc.length := hperm.length_eq
    omega
  | nonTrivial stackTail =>
    refine ⟨s, stackTail, hs, hcall, ?_⟩
    have hrotated := (g.extractScc_isRotated stackTail).reverse
    rw [reverse_reverse] at hrotated
    exact hrotated.trans (h.eq_rotate hperm (hordered stackTail hcall))

end LoopInstructions

end Art
