import Art.InductionVar.RangeSound
import Art.InductionVar.SccOrder

/-!
# Periodic inductions

`ClassifyNonTrivial` of `compiler/optimizing/induction_var_analysis.cc` as far as it finds periodic
inductions, with `SolvePhiAllInputs`, `RotatePeriodicInduction` and the periodic cases of `SolveAddSub` and
`SolveOp`, and `GenerateLastValuePeriodic` of `induction_var_range.cc` for a constant trip count.
-/

namespace Art

open List Nat
open Option (some some_ne_none)

/-! ## Sequences -/

/-- An `InductionInfo` of the class `kPeriodic` over invariants, or the invariant at the end of one. -/
inductive Periodic (I : Type)
  | invariant (info : I)
  | periodic (opA : I) (opB : Periodic I)
  deriving DecidableEq

namespace Periodic

variable {I : Type}

def rotatePeriodicInduction : Periodic I → I → Periodic I
  | invariant info, last => periodic info (invariant last)
  | periodic a b, last => periodic a (b.rotatePeriodicInduction last)

/-- `RotatePeriodicInduction(induction->op_b, induction->op_a, type)`, for a periodic induction. -/
def rotate : Periodic I → Periodic I
  | invariant info => invariant info
  | periodic a b => b.rotatePeriodicInduction a

/-- The loop of `GenerateLastValuePeriodic` that walks along `op_b`, and the invariant it ends at. -/
def walk : ℕ → Periodic I → I
  | _, invariant info => info
  | 0, periodic a _ => a
  | i + 1, periodic _ b => b.walk i

/-- The entries of the sequence. -/
def entries : Periodic I → List I
  | invariant info => [info]
  | periodic a b => a :: b.entries

variable (p : Periodic I)

/-- The period that `GenerateLastValuePeriodic` counts. -/
def period : ℕ := p.entries.length

/-- The entry for an iteration. -/
def entry (iteration : ℕ) : I := p.walk (iteration % p.period)

lemma entries_rotatePeriodicInduction (last : I) :
    (p.rotatePeriodicInduction last).entries = p.entries ++ [last] := by
  induction p with
  | invariant info => rfl
  | periodic a b ih => rw [rotatePeriodicInduction, entries, ih, entries, cons_append]

lemma entries_rotate : p.rotate.entries = p.entries.rotate 1 := by
  cases p with
  | invariant info => rw [rotate, entries, rotate_singleton]
  | periodic a b => rw [rotate, entries_rotatePeriodicInduction, entries, rotate_cons_succ, rotate_zero]

lemma period_pos : 0 < p.period := by
  cases p <;> exact succ_pos _

lemma getElem?_entries {p : Periodic I} {i : ℕ} (h : i < p.period) : p.entries[i]? = some (p.walk i) := by
  induction p generalizing i with
  | invariant info =>
    obtain rfl := lt_one_iff.1 h
    rfl
  | periodic a b ih =>
    cases i with
    | zero => rfl
    | succ i => exact ih (lt_of_succ_lt_succ h)

lemma getElem?_entry (i : ℕ) : p.entries[i % p.period]? = some (p.entry i) :=
  getElem?_entries (mod_lt _ p.period_pos)

end Periodic

/-! ## The analysis -/

/-- An invariant of a type without exact arithmetic, by its value. -/
structure OtherInvariant (Number : Type) where
  value : Number
  /-- `operation == kFetch`. -/
  isFetch : Bool

/-- The type of the phis of a cycle, in one execution: a type of the loop control, or any other type of
    numbers or references. -/
inductive PhiType : Type 1
  | integral (t : ControlType) (env : Execution)
  | other (Number : Type) (isFloatingPoint : Bool) (sub xor : Number → Number → Number)

namespace PhiType

/-- An `InductionInfo` of the class `kInvariant`. -/
def Info : PhiType → Type
  | integral t _ => TypedInvariant t
  | other Number _ _ _ => OtherInvariant Number

def Number : PhiType → Type
  | integral t _ => BitVec t.width
  | other Number _ _ _ => Number

/-- The value of an invariant. -/
def eval : (T : PhiType) → T.Info → T.Number
  | integral t env => fun info : TypedInvariant t => info.evalIn env
  | other _ _ _ _ => OtherInvariant.value

/-- `operation == kFetch`. -/
def isFetch : (T : PhiType) → T.Info → Bool
  | integral t _ => fun info : TypedInvariant t =>
    match info with
    | .fetch _ => true
    | .constant _ => true
    | _ => false
  | other _ _ _ _ => OtherInvariant.isFetch

/-- `kFloat32` or `kFloat64`. -/
def isFloatingPoint : PhiType → Bool
  | integral _ _ => false
  | other _ isFloatingPoint _ _ => isFloatingPoint

def isIntegral : PhiType → Bool
  | integral _ _ => true
  | other _ _ _ _ => false

def sub : (T : PhiType) → T.Number → T.Number → T.Number
  | integral t _ => fun x y : BitVec t.width => x - y
  | other _ _ sub _ => sub

def xor : (T : PhiType) → T.Number → T.Number → T.Number
  | integral t _ => fun x y : BitVec t.width => x ^^^ y
  | other _ _ _ xor => xor

/-- `CreateInvariantOp(context, loop, kSub, a, b)`. -/
def createSub : (T : PhiType) → T.Info → T.Info → T.Info
  | integral t _ => (rangeAnalysis t).createInvariantOp .sub
  | other _ _ sub _ => fun a b => ⟨sub a.value b.value, false⟩

/-- `CreateInvariantOp(context, loop, kXor, a, b)`. -/
def createXor : (T : PhiType) → T.Info → T.Info → T.Info
  | integral t _ => (rangeAnalysis t).createInvariantOp .xor
  | other _ _ _ xor => fun a b => ⟨xor a.value b.value, false⟩

end PhiType

/-- An operand: what `LookupInfo` finds is an invariant, or it is an instruction of the component. -/
inductive Operand (ι I : Type)
  | invariant (info : I)
  | node (instruction : ι)

/-- An instruction of a component: a loop header phi with two inputs, the first of which is invariant,
    a difference or an exclusive or. -/
inductive CycleInstruction (ι I : Type)
  | phi (initial : I) (back : ι)
  | sub (x y : Operand ι I)
  | xor (x y : Operand ι I)

section

variable {ι : Type} [DecidableEq ι] (T : PhiType) (instr : ι → CycleInstruction ι T.Info)

/-- The periodic inductions of the instructions of a component that have been solved. -/
abbrev CycleMap (ι I : Type) : Type := List (ι × Periodic I)

variable (entryPhi : ι)

/-- `SolvePhiAllInputs`, for a phi of which the first input is not in the cycle. -/
def solvePhiAllInputs (entryInitial initial : T.Info) (back : ι)
    (cycle : CycleMap ι T.Info) : Option (Periodic T.Info) :=
  if back = entryPhi then some (.periodic initial (.invariant entryInitial))
  else
    match cycle.lookup back with
    | some (.periodic a b) => some (.periodic initial (.periodic a b))
    | _ => none

variable (entryInitial : T.Info)

/-- `SolveAddSub`, for the idiom `k = c - k`. -/
def solveSub (isTight : Bool) : Operand ι T.Info → Operand ι T.Info → Option (Periodic T.Info)
  | .invariant a, .node y =>
    if y = entryPhi && isTight then
      some (.periodic (T.createSub a entryInitial) (.invariant entryInitial))
    else none
  | _, _ => none

/-- `SolveOp`, for the idioms `k = k ^ c` and `k = c ^ k`. -/
def solveXor (isTight : Bool) : Operand ι T.Info → Operand ι T.Info → Option (Periodic T.Info)
  | .node x, .invariant c =>
    if x = entryPhi && isTight then
      some (.periodic (T.createXor entryInitial c) (.invariant entryInitial))
    else none
  | .invariant c, .node y =>
    if y = entryPhi && isTight then
      some (.periodic (T.createXor entryInitial c) (.invariant entryInitial))
    else none
  | _, _ => none

/-- The temporary meaning of an instruction of the component. -/
def solve (entryBack : ι) (cycle : CycleMap ι T.Info) (instruction : ι) : Option (Periodic T.Info) :=
  match instr instruction with
  | .phi initial back => solvePhiAllInputs T entryPhi entryInitial initial back cycle
  | .sub x y => solveSub T entryPhi entryInitial (decide (instruction = entryBack)) x y
  | .xor x y => solveXor T entryPhi entryInitial (decide (instruction = entryBack)) x y

/-- The loop that classifies a component with a periodic induction, in reverse order. -/
def assignPeriodic {I : Type} : List ι → Periodic I → CycleMap ι I
  | [], _ => []
  | i :: l, p => (i, p) :: assignPeriodic l p.rotate

/-- `ClassifyNonTrivial`, for a component in the order of `ExtractScc`: the periodic inductions that are
    assigned, if any. Other classes are left out. -/
def classifyNonTrivial (scc : List ι) : Option (CycleMap ι T.Info) :=
  match scc with
  | [] => none
  | [_] => none
  | phi :: rest =>
    match instr phi with
    | .phi initial back => do
      let cycle ← rest.foldlM (fun cycle i => do
        let update ← solve T instr phi initial back cycle i
        return (i, update) :: cycle) []
      let induction ← cycle.lookup back
      return assignPeriodic (rest.reverse ++ [phi]) induction
    | _ => none

/-- `GenerateLastValuePeriodic`, for the exact constant `m` that `IsConstant` finds for the trip count: the
    invariant for which code is generated. -/
def generateLastValuePeriodic (info : Periodic T.Info) (m : ℤ) : Option T.Info :=
  if T.isFloatingPoint && !info.entries.all T.isFetch then none
  else if m ≥ 1 then some (info.walk (m.toNat % info.period))
  else none

/-! ## Executions -/

/-- The value of an operand in an iteration. -/
def Operand.value (v : ι → ℕ → T.Number) (t : ℕ) : Operand ι T.Info → T.Number
  | invariant info => T.eval info
  | node i => v i t

/-- The values of the instructions of a component in the iterations of a loop: a phi has its initial value
    first, and then what came along the back edge. -/
structure IsRun (scc : List ι) (v : ι → ℕ → T.Number) : Prop where
  phi_zero : ∀ i ∈ scc, ∀ initial back, instr i = .phi initial back → v i 0 = T.eval initial
  phi_succ : ∀ i ∈ scc, ∀ initial back, instr i = .phi initial back → ∀ t, v i (t + 1) = v back t
  sub : ∀ i ∈ scc, ∀ x y, instr i = .sub x y → ∀ t, v i t = T.sub (x.value T v t) (y.value T v t)
  xor : ∀ i ∈ scc, ∀ x y, instr i = .xor x y → ∀ t, v i t = T.xor (x.value T v t) (y.value T v t)

/-- What is promised of a component: each element gets a periodic induction, the entries of which are its
    values in the iterations, and the last value of a phi after a constant number of iterations is found. -/
def IsDescribed (scc : List ι) (v : ι → ℕ → T.Number) : Prop :=
  ∃ assigned, classifyNonTrivial T instr scc = some assigned ∧ assigned.map Prod.fst = scc.reverse ∧
    ∀ i p, (i, p) ∈ assigned → 2 ≤ p.period ∧ (∀ t, T.eval (p.entry t) = v i t) ∧
      ∀ initial back, instr i = .phi initial back → ∀ m : ℤ, 1 ≤ m →
        ∃ info, generateLastValuePeriodic T p m = some info ∧ T.eval info = v i m.toNat

variable {T} {instr} {I : Type}

omit [DecidableEq ι] in
lemma map_fst_assignPeriodic (l : List ι) (p : Periodic I) : (assignPeriodic l p).map Prod.fst = l := by
  induction l generalizing p with
  | nil => rfl
  | cons i l ih => rw [assignPeriodic, map_cons, ih]

variable {l : List ι}

omit [DecidableEq ι] in
/-- An element of the component gets the sequence rotated by its position. -/
lemma mem_assignPeriodic {p q : Periodic I} {i : ι} (h : (i, q) ∈ assignPeriodic l p) :
    ∃ j, l[j]? = some i ∧ q.entries = p.entries.rotate j := by
  induction l generalizing p with
  | nil => exact absurd h not_mem_nil
  | cons x l ih =>
    rcases mem_cons.1 h with heq | h
    · cases heq
      exact ⟨0, rfl, (rotate_zero _).symm⟩
    · obtain ⟨j, hj, hentries⟩ := ih h
      refine ⟨j + 1, hj, ?_⟩
      rw [hentries, Periodic.entries_rotate, rotate_rotate, add_comm]

/-- For a constant trip count, the walk ends at the entry of that number. -/
lemma generateLastValuePeriodic_eq {p : Periodic T.Info} {m : ℤ} (hm : 1 ≤ m)
    (h : T.isFloatingPoint = false ∨ ∀ info ∈ p.entries, T.isFetch info = true) :
    generateLastValuePeriodic T p m = some (p.entry m.toNat) := by
  have hcond : ¬ (T.isFloatingPoint && !p.entries.all T.isFetch) = true := by
    rcases h with h | h
    · rw [h]
      nofun
    · rw [all_eq_true.2 h, Bool.not_true, Bool.and_false]
      nofun
  rw [generateLastValuePeriodic, if_neg hcond, if_pos hm]
  rfl

/-! ## Cycles of phis -/

variable (T) (instr)

/-- A cycle of loop header phis, each of which gets the value of the next one along the back edge. The
    initial values come from before the loop. -/
structure IsPhiCycle (init : ι → T.Info) (cyc : List ι) : Prop where
  two_le : 2 ≤ cyc.length
  nodup : cyc.Nodup
  phi : ∀ j x y, cyc[j]? = some x → cyc[(j + 1) % cyc.length]? = some y → instr x = .phi (init x) y
  isFetch : ∀ x ∈ cyc, T.isFetch (init x) = true

variable {T} {instr} {init : ι → T.Info} {cyc : List ι}

omit [DecidableEq ι] in
lemma IsPhiCycle.of_isRotated (h : IsPhiCycle T instr init cyc) (hl : l ~r cyc) :
    IsPhiCycle T instr init l := by
  obtain ⟨k, rfl⟩ := hl.symm
  have hpos : 0 < cyc.length := by
    have := h.two_le
    omega
  refine ⟨by rw [length_rotate]; exact h.two_le, nodup_rotate.2 h.nodup,
    fun j x y hx hy => ?_, fun x hx => h.isFetch x (mem_rotate.1 hx)⟩
  have hlt := (List.getElem?_eq_some_iff.1 hx).1
  rw [length_rotate] at hlt hy
  rw [List.getElem?_rotate hlt] at hx
  rw [List.getElem?_rotate (mod_lt _ hpos), mod_add_mod, add_right_comm] at hy
  exact h.phi _ x y hx (by rwa [mod_add_mod])

variable {x y : ι}

omit [DecidableEq ι] in
/-- Consecutive phis. -/
lemma IsPhiCycle.consecutive (h : IsPhiCycle T instr init cyc) {before after : List ι}
    (hc : cyc = before ++ x :: y :: after) : instr x = .phi (init x) y := by
  have hlen : cyc.length = before.length + (after.length + 2) := by simp [hc]
  refine h.phi before.length x y (by simp [hc]) ?_
  rw [mod_eq_of_lt (by omega), hc, getElem?_append_right (le_succ _)]
  simp

/-- The phis that have been solved, and the entry phi at the end. -/
def Solved (init : ι → T.Info) (entryPhi : ι) (cycle : CycleMap ι T.Info) (solved : List ι) : Prop :=
  solved = [entryPhi] ∨ ∃ x l a b, solved = x :: l ∧ x ≠ entryPhi ∧
    cycle.lookup x = some (.periodic a b) ∧ (Periodic.periodic a b).entries = solved.map init

variable {entryPhi : ι} {cycle : CycleMap ι T.Info} {solved : List ι}

/-- The recursion around the cycle goes on with the phi before. -/
lemma Solved.cons (entryBack : ι) (h : Solved init entryPhi cycle solved)
    (hy : solved.head? = some y) (hx : instr x = .phi (init x) y) (hne : x ≠ entryPhi) :
    ∃ p, solve T instr entryPhi (init entryPhi) entryBack cycle x = some p ∧
      Solved init entryPhi ((x, p) :: cycle) (x :: solved) := by
  have hself : ∀ p, ((x, p) :: cycle).lookup x = some p := fun p => by rw [lookup_cons, beq_self_eq_true]
  rw [solve, hx]
  dsimp only
  rw [solvePhiAllInputs]
  rcases h with rfl | ⟨z, l, a, b, rfl, hz, hlookup, hentries⟩
  · obtain rfl := some.inj hy
    rw [if_pos rfl]
    exact ⟨_, rfl, Or.inr ⟨x, [_], _, _, rfl, hne, hself _, rfl⟩⟩
  · obtain rfl := some.inj hy
    rw [if_neg hz, hlookup]
    refine ⟨_, rfl, Or.inr ⟨x, z :: l, _, _, rfl, hne, hself _, ?_⟩⟩
    rw [Periodic.entries, hentries]
    rfl

lemma Solved.foldlM (entryBack : ι) {todo : List ι}
    (hc : IsPhiCycle T instr init (todo.reverse ++ solved)) (hlast : ∃ l, solved = l ++ [entryPhi])
    (h : Solved init entryPhi cycle solved) :
    ∃ cycle', todo.foldlM (fun cycle i => do
        let update ← solve T instr entryPhi (init entryPhi) entryBack cycle i
        return (i, update) :: cycle) cycle = some cycle' ∧
      Solved init entryPhi cycle' (todo.reverse ++ solved) := by
  induction todo generalizing solved cycle with
  | nil => exact ⟨cycle, rfl, h⟩
  | cons x todo ih =>
    rw [reverse_cons, append_assoc, singleton_append] at hc ⊢
    obtain ⟨l, rfl⟩ := hlast
    obtain ⟨y, after, hsolved⟩ : ∃ y after, l ++ [entryPhi] = y :: after := exists_cons_of_ne_nil (by simp)
    have hx := hc.consecutive (show _ = todo.reverse ++ x :: y :: after by rw [hsolved])
    have hne : x ≠ entryPhi := by
      rintro rfl
      exact (nodup_cons.1 (nodup_append.1 hc.nodup).2.1).1 (by simp)
    obtain ⟨p, hp, hsolve⟩ := h.cons entryBack (by rw [hsolved]; rfl) hx hne
    obtain ⟨cycle', hcycle', hall⟩ := ih hc ⟨x :: l, rfl⟩ hsolve
    refine ⟨cycle', ?_, hall⟩
    rw [foldlM_cons, hp]
    exact hcycle'

variable {scc : List ι} (h : IsPhiCycle T instr init scc.reverse)

include h in
/-- A component that is a cycle of phis, in the reverse order, is classified by its initial values. -/
lemma IsPhiCycle.classifyNonTrivial :
    ∃ p, Art.classifyNonTrivial T instr scc = some (assignPeriodic scc.reverse p) ∧
      p.entries = scc.reverse.map init := by
  obtain ⟨phi, x, rest, rfl⟩ : ∃ phi x rest, scc = phi :: x :: rest := by
    have := h.two_le
    match scc with
    | [] => exact absurd this (show ¬ 2 ≤ 0 by decide)
    | [_] => exact absurd this (show ¬ 2 ≤ 1 by decide)
    | phi :: x :: rest => exact ⟨phi, x, rest, rfl⟩
  rw [reverse_cons] at h ⊢
  obtain ⟨first, l, hfirst⟩ : ∃ first l, (x :: rest).reverse = first :: l := exists_cons_of_ne_nil (by simp)
  -- the back edge of the entry phi leads to the phi that is solved last
  have hphi : instr phi = .phi (init phi) first := by
    refine h.phi (x :: rest).length phi first ?_ ?_
    · simp
    · rw [length_append, length_reverse, length_singleton, mod_self, hfirst]
      rfl
  obtain ⟨cycle, hcycle, hsolved⟩ := Solved.foldlM first h ⟨[], rfl⟩
    (show Solved init phi [] [phi] from .inl rfl)
  rcases hsolved with hsolved | ⟨y, l', a, b, hy, -, hlookup, hentries⟩
  · exact absurd (congrArg List.length hsolved) (by simp)
  · obtain rfl : first = y := by
      rw [hfirst] at hy
      exact (cons.inj hy).1
    refine ⟨.periodic a b, ?_, hentries⟩
    rw [Art.classifyNonTrivial]
    · simp only [hphi]
      rw [hcycle, Option.bind_eq_bind, Option.bind_some, hlookup]
      rfl
    · simp

variable {v : ι → ℕ → T.Number}

omit [DecidableEq ι] in
/-- The values go around the cycle. -/
lemma IsPhiCycle.value (h : IsPhiCycle T instr init cyc) (hv : IsRun T instr cyc v) (t : ℕ) :
    ∀ j x y, cyc[j]? = some x → cyc[(j + t) % cyc.length]? = some y → v x t = T.eval (init y) := by
  have hpos : 0 < cyc.length := by
    have := h.two_le
    omega
  have hnext : ∀ j, ∃ y, cyc[(j + 1) % cyc.length]? = some y := fun j =>
    ⟨_, getElem?_eq_getElem (mod_lt _ hpos)⟩
  induction t with
  | zero =>
    intro j x y hx hy
    rw [add_zero, mod_eq_of_lt (List.getElem?_eq_some_iff.1 hx).1] at hy
    obtain rfl := some.inj (hx.symm.trans hy)
    obtain ⟨y, hy⟩ := hnext j
    exact hv.phi_zero x (mem_of_getElem? hx) _ _ (h.phi j x y hx hy)
  | succ t ih =>
    intro j x y hx hy
    obtain ⟨z, hz⟩ := hnext j
    rw [hv.phi_succ x (mem_of_getElem? hx) _ _ (h.phi j x z hx hz)]
    refine ih _ z y hz ?_
    rwa [mod_add_mod, add_assoc, add_comm 1 t]

include h in
lemma IsPhiCycle.isDescribed (hv : IsRun T instr scc.reverse v) : IsDescribed T instr scc v := by
  obtain ⟨p, hp, hentries⟩ := h.classifyNonTrivial
  refine ⟨_, hp, map_fst_assignPeriodic _ _, fun i q hq => ?_⟩
  obtain ⟨j, hj, hq⟩ := mem_assignPeriodic hq
  rw [hentries] at hq
  have hperiod : q.period = scc.reverse.length := by rw [Periodic.period, hq, length_rotate, length_map]
  have hpos : 0 < scc.reverse.length := hperiod ▸ q.period_pos
  have hentry : ∀ t, T.eval (q.entry t) = v i t := by
    intro t
    have hget := q.getElem?_entry t
    rw [hperiod, hq, List.getElem?_rotate (by rw [length_map]; exact mod_lt _ hpos),
      length_map, mod_add_mod, add_comm, getElem?_map, Option.map_eq_some_iff] at hget
    obtain ⟨y, hy, heq⟩ := hget
    rw [← heq, h.value hv t j i y hj hy]
  refine ⟨hperiod ▸ h.two_le, hentry, fun _ _ _ m hm => ⟨_, ?_, hentry m.toNat⟩⟩
  refine generateLastValuePeriodic_eq hm (.inr fun info hinfo => ?_)
  rw [hq, mem_rotate, mem_map] at hinfo
  obtain ⟨x, hx, rfl⟩ := hinfo
  exact h.isFetch x hx

/-! ## Cycles of a phi and an update -/

variable {phi update : ι} {initial a : T.Info} (hphi : instr phi = .phi initial update)
  (hsolve : solve T instr phi initial update [] update = some (.periodic a (.invariant initial)))

include hphi hsolve in
/-- The two inductions of a cycle of a phi and an update. -/
lemma classifyNonTrivial_pair : classifyNonTrivial T instr [phi, update] =
      some [(update, .periodic a (.invariant initial)), (phi, .periodic initial (.invariant a))] := by
  have hlookup : ∀ p : Periodic T.Info, lookup update [(update, p)] = some p := fun p => by
    rw [lookup_cons, beq_self_eq_true]
  rw [classifyNonTrivial]
  · simp only [hphi, foldlM_cons, hsolve, Option.bind_eq_bind, Option.bind_some,
      Option.pure_def, foldlM_nil, hlookup]
    rfl
  · exact cons_ne_nil _ _

lemma entry_pair (a b : I) (t : ℕ) :
    (Periodic.periodic a (.invariant b)).entry t = if t % 2 = 0 then a else b := by
  have hperiod : (Periodic.periodic a (.invariant b)).period = 2 := rfl
  rw [Periodic.entry, hperiod]
  rcases mod_two_eq_zero_or_one t with ht | ht <;> rw [ht] <;> rfl

/-- The sequence of an update that is its own inverse on the initial value. -/
lemma value_pair {N : Type} {f : N → N} {k : ℕ → N} (hk : ∀ t, k (t + 1) = f (k t))
    (hinv : f (f (k 0)) = k 0) (t : ℕ) : k t = if t % 2 = 0 then k 0 else f (k 0) := by
  induction t with
  | zero => rfl
  | succ t ih =>
    rw [hk, ih]
    rcases mod_two_eq_zero_or_one t with ht | ht
    · rw [if_pos ht, if_neg (by omega)]
    · rw [if_neg (by omega), if_pos (by omega), hinv]

include hphi hsolve in
/-- The sequence of the initial value and an invariant describes the cycle exactly if the invariant is the
    update of the initial value, the next update is the initial value again, and, for floating point numbers, the
    invariant is fetched. -/
lemma isDescribed_pair_iff {f : T.Number → T.Number}
    (hupdate : ∀ initial back, instr update ≠ .phi initial back) (hfetch : T.isFetch initial = true)
    (hv : IsRun T instr [phi, update] v) (hf : ∀ t, v update t = f (v phi t)) :
    IsDescribed T instr [phi, update] v ↔ T.eval a = f (T.eval initial) ∧
      f (f (T.eval initial)) = T.eval initial ∧ (T.isFloatingPoint = false ∨ T.isFetch a = true) := by
  have hzero : v phi 0 = T.eval initial := hv.phi_zero phi mem_cons_self _ _ hphi
  have hsucc : ∀ t, v phi (t + 1) = f (v phi t) := fun t =>
    (hv.phi_succ phi mem_cons_self _ _ hphi t).trans (hf t)
  have hclassify := classifyNonTrivial_pair hphi hsolve
  constructor
  · rintro ⟨assigned, hassigned, -, hall⟩
    obtain rfl := some.inj (hclassify.symm.trans hassigned)
    obtain ⟨-, hentry, -⟩ := hall update _ mem_cons_self
    obtain ⟨-, hentry', hlast⟩ := hall phi _ (mem_cons_of_mem _ mem_cons_self)
    refine ⟨?_, ?_, ?_⟩
    · rw [← hzero, ← hf]
      exact hentry 0
    · rw [← hzero, ← hsucc, ← hsucc, hzero]
      exact (hentry' 2).symm.trans (congrArg T.eval (entry_pair initial a 2))
    · obtain ⟨info, hinfo, -⟩ := hlast initial update hphi 1 le_rfl
      rw [generateLastValuePeriodic] at hinfo
      split at hinfo
      next => cases hinfo
      next hcond =>
        rw [Bool.and_eq_true, not_and_or, Bool.not_eq_true, Bool.not_eq_true', Bool.not_eq_false,
          all_eq_true] at hcond
        exact hcond.imp_right fun h => h a (by simp [Periodic.entries])
  · rintro ⟨ha, hinv, hfloat⟩
    have hvalue : ∀ t, v phi t = if t % 2 = 0 then T.eval initial else T.eval a := by
      intro t
      rw [value_pair hsucc (by rw [hzero, hinv]) t, hzero, ha]
    have hvalue' : ∀ t, v update t = if t % 2 = 0 then T.eval a else T.eval initial := by
      intro t
      rw [hf, hvalue]
      split
      · exact ha.symm
      · rw [ha, hinv]
    refine ⟨_, hclassify, rfl, fun i p hp => ?_⟩
    rcases mem_cons.1 hp with hp | hp
    · cases hp
      refine ⟨le_rfl, fun t => ?_, fun initial back h => absurd h (hupdate initial back)⟩
      rw [entry_pair, apply_ite T.eval, hvalue']
    · obtain ⟨rfl, rfl⟩ := Prod.mk.inj (mem_singleton.1 hp)
      have hentry : ∀ t, T.eval ((Periodic.periodic initial (.invariant a)).entry t) = v i t := by
        intro t
        rw [entry_pair, apply_ite T.eval, hvalue]
      refine ⟨le_rfl, hentry, fun _ _ _ m hm => ⟨_, ?_, hentry m.toNat⟩⟩
      refine generateLastValuePeriodic_eq hm (hfloat.imp_right fun ha info hinfo => ?_)
      rcases mem_cons.1 hinfo with rfl | hinfo
      · exact hfetch
      · rw [mem_singleton.1 hinfo]
        exact ha

end

/-! ## Constants that are fetched -/

section

open Value HInstruction

variable {t : ControlType} {v1 v2 : Value}

lemma isConstantValue_iff {v : Value} : v.isConstantValue = true ↔ v.isKnown = true ∧ v.aConstant = 0 := by
  rw [isConstantValue, Bool.and_eq_true, decide_eq_true_iff]

/-- The number is that of both values, which are constants. -/
def IsExactly (low high : Value) (x : ℤ) : Prop :=
  low.isConstantValue = true → high.isConstantValue = true → low.bConstant = high.bConstant →
    x = low.bConstant

lemma Computed.toInt_eq {v1 v2 v : Value} {b : ℤ} {z : BitVec t.width} (hv : Computed v1 v2 v b)
    (hz : z = BitVec.ofInt t.width b) : z.toInt = v.bConstant := by
  have h := canLongValueFitIntoInt_iff.1 hv.fits
  rw [hz, hv.bConstant_eq]
  cases t
  · exact BitVec.toInt_ofInt_eq_self (by decide) h.1 h.2
  · refine BitVec.toInt_ofInt_eq_self (by decide) ?_ ?_
    · change -2 ^ 63 ≤ b
      omega
    · change b < 2 ^ 63
      omega

variable {low1 high1 low2 high2 : Value} {x y : BitVec t.width}

lemma IsExactly.symm {z : ℤ} (h : IsExactly low1 high1 z) : IsExactly high1 low1 z :=
  fun hhigh hlow heq => (h hlow hhigh heq.symm).trans heq.symm

/-- The operands of exact results. -/
lemma IsExactly.operands {low high : Value} {b b' : ℤ} (h1 : IsExactly low1 high1 x.toInt)
    (h2 : IsExactly low2 high2 y.toInt) (hl : Computed low1 low2 low b) (hh : Computed high1 high2 high b')
    (hzero : low1.aConstant = 0 ∧ high1.aConstant = 0 ∧ low2.aConstant = 0 ∧ high2.aConstant = 0 ∧
      low1.bConstant = high1.bConstant ∧ low2.bConstant = high2.bConstant) :
    low1.bConstant = x.toInt ∧ low2.bConstant = y.toInt := by
  obtain ⟨ha1, ha1', ha2, ha2', hb1, hb2⟩ := hzero
  have hx := h1 (isConstantValue_iff.2 ⟨hl.left, ha1⟩) (isConstantValue_iff.2 ⟨hh.left, ha1'⟩) hb1
  have hy := h2 (isConstantValue_iff.2 ⟨hl.right, ha2⟩) (isConstantValue_iff.2 ⟨hh.right, ha2'⟩) hb2
  exact ⟨hx.symm, hy.symm⟩

variable (h1 : IsExactly low1 high1 x.toInt) (h2 : IsExactly low2 high2 y.toInt)
  (hconst : low1 = high1 ∧ low1.aConstant = 0 ∨ low2 = high2 ∧ low2.aConstant = 0)

include h1 h2 hconst in
/-- A sum with a constant, one of the operands being exact. -/
lemma IsExactly.add : IsExactly (addValue low1 low2) (addValue high1 high2) (x + y).toInt := by
  intro hlow hhigh heq
  rw [isConstantValue_iff] at hlow hhigh
  obtain ⟨hl, -, hla⟩ := addValue_spec (constantExecution 0) hlow.1
  obtain ⟨hh, -, hha⟩ := addValue_spec (constantExecution 0) hhigh.1
  rw [hl.bConstant_eq, hh.bConstant_eq] at heq
  obtain ⟨hx, hy⟩ := h1.operands h2 hl hh (by rcases hconst with ⟨rfl, ha⟩ | ⟨rfl, ha⟩ <;> omega)
  refine hl.toInt_eq ?_
  rw [hx, hy, BitVec.ofInt_add, BitVec.ofInt_toInt, BitVec.ofInt_toInt]

include h1 h2 hconst in
lemma IsExactly.sub : IsExactly (subValue low1 high2) (subValue high1 low2) (x - y).toInt := by
  intro hlow hhigh heq
  rw [isConstantValue_iff] at hlow hhigh
  obtain ⟨hl, -, hla⟩ := subValue_spec (constantExecution 0) hlow.1
  obtain ⟨hh, -, hha⟩ := subValue_spec (constantExecution 0) hhigh.1
  rw [hl.bConstant_eq, hh.bConstant_eq] at heq
  obtain ⟨hx, hy⟩ := h1.operands h2.symm hl hh (by rcases hconst with ⟨rfl, ha⟩ | ⟨rfl, ha⟩ <;> omega)
  refine hl.toInt_eq ?_
  rw [hx, hy, Signed.ofInt_sub, BitVec.ofInt_toInt, BitVec.ofInt_toInt]

lemma not_isExactly_itself (i : HInstruction t) (x : ℤ) : IsExactly i.itself i.itself x :=
  fun hlow => absurd (isConstantValue_iff.1 hlow).2 one_ne_zero

variable {i : HInstruction t} {value : ℤ} (env : Execution)

lemma isExactly_getInt (h : i.getInt = some value) :
    IsExactly (ofConstant value) (ofConstant value) (i.eval env).toInt :=
  fun _ _ _ => (eval_of_getInt env h).1

/-- A constant that is found by chasing a fetch is exact: no symbolic part is cancelled on the way, so that
    no sum is taken for one that does not overflow. -/
lemma isExactly_getFetch (i : HInstruction t) :
    IsExactly (i.getFetch none true) (i.getFetch none false) (i.eval env).toInt := by
  induction i with
  | constant value =>
    rw [getFetch, getFetch]
    split
    · exact fun _ _ _ => rfl
    · exact not_isExactly_itself _ _
  | add id left right ihl ihr | sub id left right ihl ihr =>
    rw [getFetch, getFetch, if_neg (some_ne_none _)]
    cases hl : left.getInt with
    | some value =>
      have hleft := isExactly_getInt env hl
      first | exact hleft.add ihr (.inl ⟨rfl, rfl⟩) | exact hleft.sub ihr (.inl ⟨rfl, rfl⟩)
    | none =>
      cases hr : right.getInt with
      | some value =>
        have hright := isExactly_getInt env hr
        first | exact ihl.add hright (.inr ⟨rfl, rfl⟩) | exact ihl.sub hright (.inr ⟨rfl, rfl⟩)
      | none => exact not_isExactly_itself _ _
  | arrayLength id => exact fun _ _ heq => absurd (show (0 : ℤ) = 2 ^ 31 - 1 from heq) (by decide)
  | newArrayLength id length ih =>
    exact fun _ _ heq => absurd (show (0 : ℤ) = 2 ^ 31 - 1 from heq) (by decide)
  | typeConversion id input ih =>
    have hinput : ((input.eval env).signExtend 64).toInt = (input.eval env).toInt :=
      BitVec.toInt_signExtend_of_le (by decide)
    exact fun hlow hhigh heq => hinput.trans (ih hlow hhigh heq)
  | other id => exact not_isExactly_itself _ _

/-- The exact answer for a fetch is its value. -/
lemma eval_of_isConstant_fetch (h : isConstant none .exact (.fetch i) = some value) :
    (i.eval env).toInt = value := by
  simp only [isConstant, constantAnswer] at h
  split at h
  next hdirect =>
    cases h
    exact eval_of_directConstant env hdirect
  next =>
    rw [ite_eq_iff] at h
    obtain ⟨hcond, h⟩ := h.resolve_right fun h => nomatch h.2
    rw [Bool.and_eq_true, Bool.and_eq_true] at hcond
    obtain ⟨heq, h⟩ := (ite_eq_iff.1 h).resolve_right fun h => nomatch h.2
    rw [isExactly_getFetch env i hcond.1.1 hcond.1.2 heq, ← some.inj h]
    exact heq

end

/-! ## Invariants of the idioms -/

section

variable {t : ControlType} {env : Execution}

/-- The answers from the ranges. -/
lemma isConstant_rangeAnalysis (request : ConstantRequest) (info : TypedInvariant t) :
    (rangeAnalysis t).isConstant request info = isConstant none request info := by
  cases hdirect : info.directConstant with
  | some value =>
    have hanswer : isConstant none request info = some value := by
      rw [isConstant, hdirect]
      rfl
    rw [hanswer]
    cases info with
    | constant c => exact hdirect
    | _ =>
      simp only [RangeAnalysis.isConstant, rangeAnalysis, hdirect, le_refl, if_true]
      cases request <;> rfl
  | none =>
    cases info with
    | constant c => cases hdirect
    | _ =>
      simp only [RangeAnalysis.isConstant, rangeAnalysis, isConstant, hdirect, constantAnswer]
      cases request <;> cases (getVal none _ true).isConstantValue <;>
        cases (getVal none _ false).isConstantValue <;> simp

/-- What is found to be zero is zero, for a fetch. -/
lemma evalIn_eq_zero {info : TypedInvariant t} (hfetch : (PhiType.integral t env).isFetch info = true)
    (h : isConstant none .exact info = some 0) : info.evalIn env = 0#t.width := by
  have hzero : (info.evalIn env).toInt = 0 := by
    cases info with
    | fetch i => exact eval_of_isConstant_fetch env h
    | constant value => exact some.inj h
    | _ => cases hfetch
  exact BitVec.eq_of_toInt_eq (hzero.trans BitVec.toInt_zero.symm)

variable {a b : TypedInvariant t}

lemma evalIn_createSub (hfetch : (PhiType.integral t env).isFetch b = true) :
    Invariant.evalIn env (t := t) ((PhiType.integral t env).createSub a b) = a.evalIn env - b.evalIn env := by
  have hcreate : (PhiType.integral t env).createSub a b =
      if isConstant none .exact b = some 0 then a else .op .sub a b := by
    rw [← isConstant_rangeAnalysis]
    cases b with
    | fetch i => rfl
    | constant value => rfl
    | _ => cases hfetch
  rw [hcreate]
  split
  next h => rw [evalIn_eq_zero hfetch h, BitVec.sub_zero]
  next => rfl

lemma createXor_eq (a b : TypedInvariant t) : (PhiType.integral t env).createXor a b =
    if isConstant none .exact a = some 0 then b
    else if isConstant none .exact b = some 0 then a else .op .xor a b := by
  rw [← isConstant_rangeAnalysis, ← isConstant_rangeAnalysis]
  rfl

lemma evalIn_createXor_iff (hfetch : (PhiType.integral t env).isFetch a = true) :
    Invariant.evalIn env (t := t) ((PhiType.integral t env).createXor a b) = a.evalIn env ^^^ b.evalIn env ↔
      (isConstant none .exact a ≠ some 0 → isConstant none .exact b = some 0 → b.evalIn env = 0#t.width) := by
  rw [createXor_eq]
  split
  next h =>
    rw [evalIn_eq_zero hfetch h, BitVec.zero_xor]
    exact iff_of_true rfl fun hne => absurd h hne
  next hne =>
    split
    next h =>
      refine ⟨fun heq _ _ => ?_, fun hzero => ?_⟩
      · have hcancel := congrArg (a.evalIn env ^^^ ·) heq
        rw [← BitVec.xor_assoc, BitVec.xor_self, BitVec.zero_xor] at hcancel
        exact hcancel.symm
      · rw [hzero hne h, BitVec.xor_zero]
    next h => exact iff_of_true rfl fun _ hzero => absurd hzero h

end

/-! ## The idioms in a loop -/

section

open LoopInstructions

variable {n : ℕ} (T : PhiType) (g : LoopInstructions n) (instr : Fin n → CycleInstruction (Fin n) T.Info)

/-- The input of an instruction for an operand. An invariant does not depend on the instruction. -/
def Operand.IsInput (i x : Fin n) : Operand (Fin n) T.Info → Prop
  | invariant _ => ¬ g.Reaches x i
  | node j => x = j

/-- The instruction as the search sees it. The first input of a loop header phi is before the loop. -/
def IsInstruction (i : Fin n) : CycleInstruction (Fin n) T.Info → Prop
  | .phi _ back => g.isLoopHeaderPhi i = true ∧ ∃ x, g.inputs i = [x, back] ∧ g.inLoop x = false
  | .sub x y => g.isLoopHeaderPhi i = false ∧
    ∃ a b, g.inputs i = [a, b] ∧ x.IsInput T g i a ∧ y.IsInput T g i b
  | .xor x y => g.isLoopHeaderPhi i = false ∧
    ∃ a b, g.inputs i = [a, b] ∧ x.IsInput T g i a ∧ y.IsInput T g i b

/-- The instructions of a cycle are in the loop. -/
structure InLoop (cyc : List (Fin n)) : Prop where
  inLoop : ∀ i ∈ cyc, g.inLoop i = true
  instruction : ∀ i ∈ cyc, IsInstruction T g i (instr i)

/-- The cycles of periodic inductions: cycles of phis of any type, `k = c - k` for numbers, and `k = k ^ c`
    and `k = c ^ k` for integral numbers. -/
inductive IsPeriodicIdiom : List (Fin n) → Prop
  | phis {init : Fin n → T.Info} {cyc : List (Fin n)} : IsPhiCycle T instr init cyc → IsPeriodicIdiom cyc
  | sub {phi update : Fin n} {initial info : T.Info} :
    T.isIntegral = true ∨ T.isFloatingPoint = true → T.isFetch initial = true →
    instr phi = .phi initial update → instr update = .sub (.invariant info) (.node phi) →
    IsPeriodicIdiom [phi, update]
  | xorRight {phi update : Fin n} {initial info : T.Info} : T.isIntegral = true → T.isFetch initial = true →
    instr phi = .phi initial update → instr update = .xor (.node phi) (.invariant info) →
    IsPeriodicIdiom [phi, update]
  | xorLeft {phi update : Fin n} {initial info : T.Info} : T.isIntegral = true → T.isFetch initial = true →
    instr phi = .phi initial update → instr update = .xor (.invariant info) (.node phi) →
    IsPeriodicIdiom [phi, update]

/-- Whether the exclusive or with an invariant is simplified only to what it is: an invariant that `IsExact`
    takes for zero is zero, unless the initial value is. -/
def PhiType.XorExact : (T : PhiType) → T.Info → T.Info → Prop
  | integral t env => fun initial info : TypedInvariant t =>
    isConstant none .exact initial ≠ some 0 → isConstant none .exact info = some 0 →
      info.evalIn env = 0#t.width
  | other _ _ _ _ => fun _ _ => True

/-- The condition under which a cycle is described: always for phis, for `k = c - k` if the numbers are
    integral, and for an exclusive or as in `XorExact`. -/
def IsExactIdiom : List (Fin n) → Prop
  | [phi, update] =>
    match instr phi, instr update with
    | .phi _ _, .sub _ _ => T.isFloatingPoint = false
    | .phi initial _, .xor (.node _) (.invariant info) => T.XorExact initial info
    | .phi initial _, .xor (.invariant info) (.node _) => T.XorExact initial info
    | _, _ => True
  | _ => True

variable {T} {g} {instr} {cyc : List (Fin n)} {v : Fin n → ℕ → T.Number}

lemma IsRun.of_subset {l : List (Fin n)} (h : IsRun T instr cyc v) (hl : l ⊆ cyc) : IsRun T instr l v :=
  ⟨fun i hi => h.phi_zero i (hl hi), fun i hi => h.phi_succ i (hl hi), fun i hi => h.sub i (hl hi),
    fun i hi => h.xor i (hl hi)⟩

variable {initial : T.Info}

/-- A phi uses what comes along the back edge, and nothing else in the loop. -/
lemma IsInstruction.uses_phi_iff {i x back : Fin n} (h : IsInstruction T g i (.phi initial back))
    (hback : g.inLoop back = true) : g.Uses i x ↔ x = back := by
  obtain ⟨-, y, hinputs, hy⟩ := h
  rw [Uses, hinputs, mem_cons, mem_singleton]
  refine ⟨fun hx => hx.1.resolve_left ?_, fun hx => ⟨.inr hx, hx ▸ hback⟩⟩
  rintro rfl
  cases hy.symm.trans hx.2

variable {init : Fin n → T.Info}

lemma IsPhiCycle.isCycle (h : IsPhiCycle T instr init cyc) (hg : InLoop T g instr cyc) : g.IsCycle cyc := by
  have hphi : ∀ j x, cyc[j]? = some x → ∃ y, cyc[(j + 1) % cyc.length]? = some y ∧
      ∀ z, g.Uses x z ↔ z = y := by
    intro j x hx
    have hpos : 0 < cyc.length := by
      have := h.two_le
      omega
    have hy := getElem?_eq_getElem (mod_lt (j + 1) hpos)
    have hinstr := hg.instruction x (mem_of_getElem? hx)
    rw [h.phi j x _ hx hy] at hinstr
    exact ⟨_, hy, fun z => hinstr.uses_phi_iff (hg.inLoop _ (mem_of_getElem? hy))⟩
  refine ⟨h.two_le, h.nodup, fun j x y hx hy => ?_, fun j x y hx huses _ => ?_⟩
  · obtain ⟨z, hz, hiff⟩ := hphi j x hx
    exact (hiff y).2 (some.inj (hy.symm.trans hz))
  · obtain ⟨z, hz, hiff⟩ := hphi j x hx
    rw [hz, (hiff y).1 huses]

variable {phi update : Fin n}

/-- The cycle of a phi and an update that depends on the phi only. -/
lemma isCycle_pair (hphi : instr phi = .phi initial update) (hne : phi ≠ update)
    (hg : InLoop T g instr [phi, update])
    (huses : ∀ x, g.Uses update x → g.Reaches x update → x = phi) (huse : g.Uses update phi) :
    g.IsCycle [phi, update] := by
  have hupdate : g.inLoop update = true := hg.inLoop update (by simp)
  have hinstr := hg.instruction phi mem_cons_self
  rw [hphi] at hinstr
  have hpair : ∀ j x, [phi, update][j]? = some x → j = 0 ∧ x = phi ∨ j = 1 ∧ x = update := by
    intro j x hx
    match j with
    | 0 => exact .inl ⟨rfl, (some.inj hx).symm⟩
    | 1 => exact .inr ⟨rfl, (some.inj hx).symm⟩
    | _ + 2 => cases hx
  have hlast : [phi, update][(1 + 1) % [phi, update].length]? = some phi := by simp
  refine ⟨le_rfl, by simp [hne], fun j x y hx hy => ?_, fun j x y hx huse' hreach => ?_⟩
  · rcases hpair j x hx with ⟨rfl, rfl⟩ | ⟨rfl, rfl⟩
    · exact (hinstr.uses_phi_iff hupdate).2 (some.inj hy).symm
    · obtain rfl := some.inj (hlast.symm.trans hy)
      exact huse
  · rcases hpair j x hx with ⟨rfl, rfl⟩ | ⟨rfl, rfl⟩
    · rw [(hinstr.uses_phi_iff hupdate).1 huse']
      rfl
    · rw [huses y huse' hreach]
      exact hlast

/-- The component of a phi and an update is given from the phi on. -/
lemma extractScc_pair {stackTail : List (Fin n)} (hphi : g.isLoopHeaderPhi phi = true)
    (hupdate : g.isLoopHeaderPhi update = false)
    (h : (g.extractScc stackTail).reverse ~r [phi, update]) : g.extractScc stackTail = [phi, update] := by
  have hperm := (reverse_perm _).symm.trans h.perm
  have hmem : ∀ i, i ∈ stackTail ↔ i ∈ [phi, update] := fun i => by
    rw [← hperm.mem_iff, (g.extractScc_isRotated stackTail).mem_iff, mem_reverse]
  obtain ⟨first, hfirst, hhead, hheader, -⟩ := g.head_extractScc ⟨phi, (hmem phi).2 mem_cons_self, hphi⟩
  obtain rfl : first = phi := by
    rcases mem_cons.1 ((hmem first).1 hfirst) with rfl | hu
    · rfl
    · rw [mem_singleton.1 hu, hupdate] at hheader
      cases hheader
  obtain ⟨l, hl⟩ := head?_eq_some_iff.1 hhead
  rw [hl] at hperm ⊢
  rw [perm_singleton.1 hperm.cons_inv]

variable {x y : Operand (Fin n) T.Info} {info : T.Info}

/-- The update of an idiom uses the phi, and depends on itself in no other way. -/
lemma uses_update (hphi : g.inLoop phi = true)
    (hinputs : ∃ a b, g.inputs update = [a, b] ∧ x.IsInput T g update a ∧ y.IsInput T g update b)
    (h : x = .invariant info ∧ y = .node phi ∨ x = .node phi ∧ y = .invariant info) :
    (∀ z, g.Uses update z → g.Reaches z update → z = phi) ∧ g.Uses update phi := by
  obtain ⟨a, b, hinputs, ha, hb⟩ := hinputs
  refine ⟨fun z hz hreach => ?_, ?_, hphi⟩
  · rw [Uses, hinputs, mem_cons, mem_singleton] at hz
    rcases h with ⟨rfl, rfl⟩ | ⟨rfl, rfl⟩
    · exact (hz.1.resolve_left fun hza => ha (hza ▸ hreach)).trans hb
    · exact (hz.1.resolve_right fun hzb => hb (hzb ▸ hreach)).trans ha
  · rw [hinputs]
    rcases h with ⟨rfl, rfl⟩ | ⟨rfl, rfl⟩
    · simp [show b = phi from hb]
    · simp [show a = phi from ha]

variable {f : T.Number → T.Number}

/-- A cycle of a phi and an update is described under the condition for its two values. -/
lemma isDescribed_extractScc_pair_iff {a : T.Info} {instructions : List (Fin n)}
    (hall : ∀ i, i ∈ instructions ↔ g.inLoop i = true) (hphi : instr phi = .phi initial update)
    (hupdate : ∀ initial back, instr update ≠ .phi initial back)
    (hg : InLoop T g instr [phi, update]) (hheader : g.isLoopHeaderPhi update = false ∧
      ∃ a b, g.inputs update = [a, b] ∧ x.IsInput T g update a ∧ y.IsInput T g update b)
    (hxy : x = .invariant info ∧ y = .node phi ∨ x = .node phi ∧ y = .invariant info)
    (hsolve : solve T instr phi initial update [] update = some (.periodic a (.invariant initial)))
    (hfetch : T.isFetch initial = true) (hv : IsRun T instr [phi, update] v)
    (hf : ∀ t, v update t = f (v phi t)) :
    ∃ s stackTail, g.visitLoop instructions = some s ∧ .nonTrivial stackTail ∈ s.classified ∧
      stackTail.Perm [phi, update] ∧ (IsDescribed T instr (g.extractScc stackTail) v ↔
        T.eval a = f (T.eval initial) ∧ f (f (T.eval initial)) = T.eval initial ∧
          (T.isFloatingPoint = false ∨ T.isFetch a = true)) := by
  have hne : phi ≠ update := fun h => hupdate initial update (h ▸ hphi)
  obtain ⟨huses, huse⟩ := uses_update (hg.inLoop phi mem_cons_self) hheader.2 hxy
  obtain ⟨s, stackTail, hs, hcall, hrotated⟩ := visitLoop_cycle (isCycle_pair hphi hne hg huses huse) hall
  have hinstr := hg.instruction phi mem_cons_self
  rw [hphi] at hinstr
  have hscc := extractScc_pair hinstr.1 hheader.1 hrotated
  refine ⟨s, stackTail, hs, hcall, ?_, ?_⟩
  · rw [← hscc]
    exact (reverse_perm _).symm.trans (g.extractScc_isRotated stackTail).perm.symm
  · rw [hscc]
    exact isDescribed_pair_iff hphi hsolve hupdate hfetch hv hf

lemma xor_xor_self {t : ControlType} (x y : BitVec t.width) : x ^^^ y ^^^ y = x := by
  rw [BitVec.xor_assoc, BitVec.xor_self, BitVec.xor_zero]

/-- The values of an exclusive or of integral numbers with an invariant. -/
lemma xorExact_iff (hT : T.isIntegral = true) (hfetch : T.isFetch initial = true)
    (hf : ∀ x, f x = T.xor x (T.eval info)) : (T.eval (T.createXor initial info) = f (T.eval initial) ∧
      f (f (T.eval initial)) = T.eval initial ∧ (T.isFloatingPoint = false ∨
        T.isFetch (T.createXor initial info) = true)) ↔ T.XorExact initial info := by
  cases T with
  | other => cases hT
  | integral t env =>
    have hinv : f (f ((PhiType.integral t env).eval initial)) = (PhiType.integral t env).eval initial := by
      rw [hf, hf]
      exact xor_xor_self _ _
    refine (and_iff_left ⟨hinv, .inl rfl⟩).trans ?_
    rw [hf]
    exact evalIn_createXor_iff hfetch

/-- The values of a difference from an invariant. The last value of floating point numbers is not found. -/
lemma subExact_iff (hT : T.isIntegral = true ∨ T.isFloatingPoint = true)
    (hfetch : T.isFetch initial = true) :
    (T.eval (T.createSub info initial) = T.sub (T.eval info) (T.eval initial) ∧
      T.sub (T.eval info) (T.sub (T.eval info) (T.eval initial)) = T.eval initial ∧
        (T.isFloatingPoint = false ∨ T.isFetch (T.createSub info initial) = true)) ↔
      T.isFloatingPoint = false := by
  cases T with
  | other Number isFloatingPoint sub xor =>
    obtain rfl := hT.resolve_left nofun
    exact iff_of_false (fun h => h.2.2.elim Bool.noConfusion nofun) nofun
  | integral t env =>
    refine iff_of_true ⟨evalIn_createSub hfetch, ?_, .inl rfl⟩ rfl
    exact @sub_sub_cancel (BitVec t.width) _ _ _

lemma IsPhiCycle.isExactIdiom (h : IsPhiCycle T instr init cyc) : IsExactIdiom T instr cyc := by
  match cyc with
  | [] => trivial
  | [_] => trivial
  | [x, y] =>
    have hy : instr y = .phi (init y) x := h.phi 1 y x rfl (by simp)
    rw [IsExactIdiom, h.phi 0 x y rfl rfl, hy]
    trivial
  | _ :: _ :: _ :: _ => trivial

local instance neZero_xorLoop : NeZero 4 := inferInstance

/-- The loop of `k = k ^ c`: the phi, the exclusive or, its operand and the initial value, in this order. -/
def xorLoop : LoopInstructions 4 :=
  ⟨![[3, 1], [0, 2], [], []], ![true, true, true, false], ![true, false, false, false], fun _ => 0⟩

/-- The operand `(long) (x + 5) - (long) x - 5`, which is computed in the loop. -/
def xorOperand : TypedInvariant .int64 := .op .sub wideDifference (.constant 5#64)

variable (x : ℤ)

/-- The type of the phi, in an execution with a given `x`. -/
abbrev xorType : PhiType := .integral .int64 (constantExecution x)

/-- The initial value. -/
def xorInitial : TypedInvariant .int64 := .constant 1#64

/-- `k = k ^ c` for longs, from one on. -/
def xorInstr (i : Fin 4) : CycleInstruction (Fin 4) (xorType x).Info :=
  if i = 0 then .phi xorInitial 1 else .xor (.node 0) (.invariant xorOperand)

/-- The values of the phi and of the exclusive or in the iterations. -/
def xorRun (i : Fin 4) (t : ℕ) : (xorType x).Number :=
  (fun k => (xorType x).xor k ((xorType x).eval xorOperand))^[if i = 0 then t else t + 1]
    ((xorType x).eval xorInitial)

lemma isRun_xorRun : IsRun (xorType x) (xorInstr x) [0, 1] (xorRun x) := by
  have hmem : ∀ i ∈ ([0, 1] : List (Fin 4)), i = 0 ∨ i = 1 := by decide
  refine ⟨fun i hi initial back h => ?_, fun i hi initial back h t => ?_, fun i hi a b h => ?_,
    fun i hi a b h t => ?_⟩ <;> rcases hmem i hi with rfl | rfl <;> cases h
  · rfl
  · rfl
  · exact Function.iterate_succ_apply' _ t _

lemma inLoop_xorInstr : InLoop (xorType x) xorLoop (xorInstr x) [0, 1] := by
  refine ⟨by decide, fun i hi => ?_⟩
  rcases mem_cons.1 hi with rfl | hi
  · exact ⟨rfl, 3, rfl, rfl⟩
  · obtain rfl := mem_singleton.1 hi
    refine ⟨rfl, 0, 2, rfl, rfl, fun hreach => ?_⟩
    -- the operand has no inputs
    rcases hreach.cases_head with heq | ⟨y, huses, -⟩
    · exact absurd heq (by decide)
    · exact absurd huses.1 not_mem_nil

end

end Art
