import Mathlib
import Art.Lib.Loop

/-!
# Strongly connected components of the instructions of a loop

`VisitLoop`, `TryVisitNodes` and `ExtractScc` of `compiler/optimizing/induction_var_analysis.cc`. The search
keeps its own stack, on which an entry knows the entry of the user that visits it; the low depth of an
entry that stays on the stack is written to the depth of its instruction.

* `extractScc_isRotated` and `head_extractScc`: the component that is classified is a rotation of the part of
  the stack, from its first loop phi on.
-/

namespace Art

open List

/-- The instructions of a graph, as the search in one loop sees them. -/
structure LoopInstructions (n : ℕ) where
  inputs : Fin n → List (Fin n)
  /-- `GetBlock()->GetLoopInformation() == loop`. -/
  inLoop : Fin n → Bool
  isLoopHeaderPhi : Fin n → Bool
  /-- The position of a phi in its block, in which `FoundBefore` looks. -/
  phiPosition : Fin n → ℕ

namespace LoopInstructions

variable {n : ℕ}

structure NodeInfo where
  depth : ℕ
  done : Bool

/-- `StackEntry`; the node info is that of the instruction. -/
structure StackEntry (n : ℕ) where
  instruction : Fin n
  userLink : ℕ
  numVisitedInputs : ℕ
  lowDepth : ℕ

/-- A call of `ClassifyTrivial` or `ClassifyNonTrivial`. -/
inductive Classified (n : ℕ)
  | trivial (instruction : Fin n)
  | nonTrivial (stackTail : List (Fin n))
  deriving DecidableEq

/-- The instructions that are classified together. -/
def Classified.members : Classified n → List (Fin n)
  | trivial instruction => [instruction]
  | nonTrivial stackTail => stackTail

/-- The variables of the search, with the calls that have been made. -/
structure SccSearch (n : ℕ) where
  visited : Fin n → Option NodeInfo
  globalDepth : ℕ
  stack : List (StackEntry n)
  currentEntry : ℕ
  classified : List (Classified n)

variable (g : LoopInstructions n) (s : SccSearch n)

/-- A new entry of the stack, for an instruction that has not been visited. -/
def pushEntry (instruction : Fin n) (userLink : ℕ) : SccSearch n :=
  { s with
    visited := Function.update s.visited instruction (some ⟨s.globalDepth + 1, false⟩)
    globalDepth := s.globalDepth + 1
    stack := s.stack ++ [⟨instruction, userLink, 0, s.globalDepth + 1⟩]
    currentEntry := s.stack.length }

variable (entry : StackEntry n)

/-- One round of the loop over the inputs of an entry. -/
def visitInput (input : Fin n) : SccSearch n :=
  let entry := { entry with numVisitedInputs := entry.numVisitedInputs + 1 }
  if !g.inLoop input then { s with stack := s.stack.set s.currentEntry entry }
  else
    match s.visited input with
    | none => pushEntry { s with stack := s.stack.set s.currentEntry entry } input s.currentEntry
    | some info =>
      if !info.done && decide (info.depth < entry.lowDepth) then
        { s with stack := s.stack.set s.currentEntry { entry with lowDepth := info.depth } }
      else { s with stack := s.stack.set s.currentEntry entry }

/-- An entry that is not the first of its component stays on the stack. -/
def keepEntry (info : NodeInfo) : Option (SccSearch n) := do
  let previous ← s.stack[entry.userLink]?
  return { s with
    visited := Function.update s.visited entry.instruction
      (some { info with depth := entry.lowDepth })
    stack :=
      if entry.lowDepth < previous.lowDepth then
        s.stack.set entry.userLink { previous with lowDepth := entry.lowDepth }
      else s.stack
    currentEntry := entry.userLink }

/-- `node_info->done = true`, for some instructions. -/
def markDone (visited : Fin n → Option NodeInfo) (instructions : List (Fin n)) :
    Fin n → Option NodeInfo := fun i =>
  if i ∈ instructions then (visited i).map fun info => { info with done := true } else visited i

/-- The part of the stack from the current entry on is a component. -/
def popComponent : SccSearch n :=
  let stackTail := (s.stack.drop s.currentEntry).map StackEntry.instruction
  { s with
    visited := markDone s.visited stackTail
    stack := s.stack.take s.currentEntry
    currentEntry := entry.userLink
    classified := s.classified ++
      [if decide (s.currentEntry + 1 = s.stack.length) && !g.isLoopHeaderPhi entry.instruction then
        .trivial entry.instruction
      else .nonTrivial stackTail] }

/-- One round of the search: the next input of the current entry is looked at, or, if there is none, the
    entry is finished. -/
def sccStep : Option (SccSearch n) := do
  let entry ← s.stack[s.currentEntry]?
  match (g.inputs entry.instruction)[entry.numVisitedInputs]? with
  | some input => return g.visitInput s entry input
  | none =>
    let info ← s.visited entry.instruction
    if entry.lowDepth < info.depth then keepEntry s entry info
    else return g.popComponent s entry

/-- The number of instructions that have not been visited. -/
def unvisited : ℕ := (Finset.univ.filter fun i => (s.visited i).isNone).card

/-- The largest number of inputs. -/
def maxInputs : ℕ := Finset.univ.sup fun i => (g.inputs i).length

/-- A bound of the number of rounds. -/
def roundsBound : ℕ := unvisited s * ((n + 1) * (g.maxInputs + 1)) +
    match s.stack[s.currentEntry]? with
    | none => 0
    | some entry => (s.currentEntry + 1) * (g.maxInputs + 1) +
      ((g.inputs entry.instruction).length - entry.numVisitedInputs)

def tryVisitNodes (startInstruction : Fin n) : Option (SccSearch n) :=
  match s.visited startInstruction with
  | some _ => some s
  | none =>
    let s := pushEntry { s with stack := [] } startInstruction (2 ^ 64 - 1)
    Loop.whileM (fun s => !s.stack.isEmpty) g.sccStep (g.roundsBound s) s

/-- The search in `VisitLoop`, for the phis and instructions of the loop in their order. -/
def visitLoop (instructions : List (Fin n)) : Option (SccSearch n) :=
  instructions.foldlM g.tryVisitNodes ⟨fun _ => none, 0, [], 0, []⟩

/-! ## The order of a component -/

/-- `phi == nullptr || block->GetPhis().FoundBefore(instruction, phi)`. -/
def foundBefore (instruction : Fin n) : Option (Fin n) → Bool
  | none => true
  | some phi => decide (g.phiPosition instruction < g.phiPosition phi)

/-- The loop of `ExtractScc` over the part of the stack, from the index `i` on: the first loop phi, and the
    position after it. -/
def findPhi : List (Fin n) → ℕ → Option (Fin n) → ℕ → Option (Fin n) × ℕ
  | [], _, phi, splitPos => (phi, splitPos)
  | instruction :: rest, i, phi, splitPos =>
    if g.isLoopHeaderPhi instruction && g.foundBefore instruction phi then
      findPhi rest (i + 1) (some instruction) (i + 1)
    else findPhi rest (i + 1) phi splitPos

variable (stackTail : List (Fin n))

def extractScc : List (Fin n) :=
  let splitPos := (g.findPhi stackTail 0 none 0).2
  (stackTail.take splitPos).reverse ++ (stackTail.drop splitPos).reverse

lemma extractScc_isRotated : g.extractScc stackTail ~r stackTail.reverse := by
  have hsplit := take_append_drop (g.findPhi stackTail 0 none 0).2 stackTail
  conv_rhs => rw [← hsplit, reverse_append]
  exact isRotated_append

/-- What the loop of `ExtractScc` knows: the phi that has been found is at the split position, and is the
    first one in its block. -/
def IsFirstPhi (l : List (Fin n)) (phi : Option (Fin n)) (splitPos : ℕ) : Prop :=
  match phi with
  | none => splitPos = 0 ∧ ∀ i ∈ l, g.isLoopHeaderPhi i = false
  | some phi => 0 < splitPos ∧ l[splitPos - 1]? = some phi ∧ g.isLoopHeaderPhi phi = true ∧
    ∀ i ∈ l, g.isLoopHeaderPhi i = true → g.phiPosition phi ≤ g.phiPosition i

lemma findPhi_spec {before rest : List (Fin n)} {phi : Option (Fin n)} {splitPos : ℕ}
    (h : g.IsFirstPhi before phi splitPos) :
    g.IsFirstPhi (before ++ rest) (g.findPhi rest before.length phi splitPos).1
      (g.findPhi rest before.length phi splitPos).2 := by
  induction rest generalizing before phi splitPos with
  | nil => rwa [append_nil]
  | cons x rest ih =>
    have happend : before ++ x :: rest = before ++ [x] ++ rest := by simp
    have hlength : (before ++ [x]).length = before.length + 1 := by simp
    rw [findPhi, happend]
    split
    next hcond =>
      rw [Bool.and_eq_true] at hcond
      rw [← hlength]
      refine ih ⟨by simp, by simp, hcond.1, fun i hi hphi => ?_⟩
      rcases mem_append.1 hi with hi | hi
      · cases phi with
        | none => exact absurd (h.2 i hi) (by rw [hphi]; exact nofun)
        | some p => exact (of_decide_eq_true hcond.2).le.trans (h.2.2.2 i hi hphi)
      · rw [mem_singleton.1 hi]
    next hcond =>
      rw [Bool.not_eq_true, Bool.and_eq_false_iff] at hcond
      rw [← hlength]
      refine ih ?_
      cases phi with
      | none =>
        refine ⟨h.1, fun i hi => ?_⟩
        rcases mem_append.1 hi with hi | hi
        · exact h.2 i hi
        · rw [mem_singleton.1 hi]
          exact hcond.resolve_right nofun
      | some p =>
        obtain ⟨hpos, hget, hphi, hfirst⟩ := h
        refine ⟨hpos, ?_, hphi, fun i hi hiphi => ?_⟩
        · exact List.getElem?_append_left (List.getElem?_eq_some_iff.1 hget).1 ▸ hget
        · rcases mem_append.1 hi with hi | hi
          · exact hfirst i hi hiphi
          · rw [mem_singleton.1 hi] at hiphi ⊢
            rw [hiphi] at hcond
            exact not_lt.1 (of_decide_eq_false (hcond.resolve_left nofun))

/-- A component with a loop phi is given from the first one in the block on. -/
lemma head_extractScc {stackTail : List (Fin n)} (h : ∃ i ∈ stackTail, g.isLoopHeaderPhi i = true) :
    ∃ phi ∈ stackTail, (g.extractScc stackTail).head? = some phi ∧ g.isLoopHeaderPhi phi = true ∧
      ∀ i ∈ stackTail, g.isLoopHeaderPhi i = true → g.phiPosition phi ≤ g.phiPosition i := by
  have hspec : g.IsFirstPhi stackTail (g.findPhi stackTail 0 none 0).1 (g.findPhi stackTail 0 none 0).2 :=
    g.findPhi_spec (show g.IsFirstPhi [] none 0 from ⟨rfl, fun i hi => absurd hi not_mem_nil⟩)
  rw [extractScc]
  generalize g.findPhi stackTail 0 none 0 = r at hspec
  obtain ⟨phi, splitPos⟩ := r
  cases phi with
  | none =>
    obtain ⟨i, hi, hphi⟩ := h
    exact absurd (hspec.2 i hi) (by rw [hphi]; exact nofun)
  | some phi =>
    obtain ⟨hpos, hget, hphi, hfirst⟩ := hspec
    refine ⟨phi, mem_of_getElem? hget, ?_, hphi, hfirst⟩
    obtain ⟨k, rfl⟩ : ∃ k, splitPos = k + 1 := ⟨splitPos - 1, by omega⟩
    rw [Nat.add_sub_cancel] at hget
    rw [take_add_one, hget, reverse_append]
    rfl

end LoopInstructions

end Art
