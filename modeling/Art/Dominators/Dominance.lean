import Art.Dominators.BackEdges
import Art.Lib.Dominance

/-!
# Computing dominators

`CommonDominator` of `compiler/optimizing/common_dominator.h`, and `HBasicBlock::Dominates` and
`HGraph::ComputeDominanceInformation` of `nodes.cc`. The dominators of a graph are the parents of a
tree, which is changed while it is computed; a chain of dominators is followed for at most as many
blocks as there are.
-/

namespace Art

variable {n : ℕ}

namespace CommonDominator

variable (dominator : Fin n → Option (Fin n))

def chainLength : ℕ → Fin n → Option ℕ
  | 0, _ => none
  | fuel + 1, block =>
    match dominator block with
    | none => some 1
    | some d => (chainLength fuel d).map (· + 1)

/-- A loop with `block = block->GetDominator()`, run a number of times. -/
def climb : ℕ → Fin n → Option (Fin n)
  | 0, block => some block
  | k + 1, block => (dominator block).bind (climb k)

/-- `while (block != block2)`. -/
def runUp : ℕ → Fin n → Fin n → Option (Fin n)
  | 0, block, block2 => if block = block2 then some block else none
  | fuel + 1, block, block2 =>
    if block = block2 then some block
    else do runUp fuel (← dominator block) (← dominator block2)

/-- `ForPair(block1, block2)`: a finder that is started with `block1` and updated with `block2`. -/
def forPair (block1 block2 : Fin n) : Option (Fin n) := do
  let chainLength2 ← chainLength dominator n block1
  if block2 = block1 then return block1
  let chainLength ← chainLength dominator n block2
  let block ← climb dominator (chainLength - chainLength2) block2
  let block' ← climb dominator (chainLength2 - chainLength) block1
  runUp dominator (min chainLength chainLength2) block block'

end CommonDominator

namespace HGraph

/-- `UpdateDominatorOfSuccessor(block, successor)`: the dominators, and whether they have changed. -/
def updateDominatorOfSuccessor (dominator : Fin n → Option (Fin n)) (block successor : Fin n) :
    Option ((Fin n → Option (Fin n)) × Bool) := do
  let newDominator ←
    match dominator successor with
    | none => some block
    | some oldDominator => CommonDominator.forPair dominator oldDominator block
  if dominator successor = some newDominator then return (dominator, false)
  else return (Function.update dominator successor (some newDominator), true)

/-- `Dominates(other)`, from the block `current` of the chain. -/
def dominates (dominator : Fin n → Option (Fin n)) (block : Fin n) : ℕ → Fin n → Option Bool
  | 0, _ => none
  | fuel + 1, current =>
    if current = block then some true
    else
      match dominator current with
      | none => some false
      | some d => dominates dominator block fuel d

/-- The variables of the first loop of `ComputeDominanceInformation`. The last block of the worklist
    comes first. -/
structure DominanceSearch (n : ℕ) where
  reversePostOrder : List (Fin n)
  visits : Fin n → ℕ
  successorsVisited : Fin n → ℕ
  worklist : List (Fin n)
  dominator : Fin n → Option (Fin n)

variable (g : HGraph n) (backEdges : Fin n → List (Fin n))

/-- An edge is visited, with the dominators that it leads to: once all forward edges to its target
    have been visited, those of the target are. -/
def visitEdge (s : DominanceSearch n) (current successor : Fin n)
    (dominator : Fin n → Option (Fin n)) : DominanceSearch n :=
  let s : DominanceSearch n := { s with
    dominator
    successorsVisited := Function.update s.successorsVisited current (s.successorsVisited current + 1)
    visits := Function.update s.visits successor (s.visits successor + 1) }
  if s.visits successor = g.numberOfPredecessors successor - (backEdges successor).length then
    { s with reversePostOrder := s.reversePostOrder ++ [successor]
             worklist := successor :: s.worklist }
  else s

/-- The body of the first loop, for a worklist that is not empty. -/
def dominanceStep (s : DominanceSearch n) : Option (DominanceSearch n) :=
  match s.worklist with
  | [] => none
  | current :: rest =>
    match (g.successors current)[s.successorsVisited current]? with
    | none => some { s with worklist := rest }
    | some successor => do
      let (dominator, _) ← updateDominatorOfSuccessor s.dominator current successor
      return g.visitEdge backEdges s current successor dominator

/-- The state before the first loop. -/
def dominanceStart : DominanceSearch n where
  reversePostOrder := [g.entryBlock]
  visits _ := 0
  successorsVisited _ := 0
  worklist := [g.entryBlock]
  dominator _ := none

/-- `HasBackEdgeNotDominatedByHeader()` of the loop with the given header. -/
def hasBackEdgeNotDominatedByHeader (dominator : Fin n → Option (Fin n)) (header : Fin n) :
    List (Fin n) → Option Bool
  | [] => some false
  | backEdge :: rest => do
    if ← dominates dominator header n backEdge then
      hasBackEdgeNotDominatedByHeader dominator header rest
    else return true

/-- `must_run_fix_point`, for the given blocks. -/
def mustRunFixPoint (dominator : Fin n → Option (Fin n)) : List (Fin n) → Option Bool
  | [] => some false
  | block :: rest => do
    if ← hasBackEdgeNotDominatedByHeader dominator block (backEdges block) then return true
    else mustRunFixPoint dominator rest

/-- One round of the fix point: the dominators, and `update_occurred`. -/
def fixPointRound (order : List (Fin n)) (dominator : Fin n → Option (Fin n)) :
    Option ((Fin n → Option (Fin n)) × Bool) :=
  (order.flatMap fun block => (g.successors block).map (block, ·)).foldlM
    (fun (dominator, updateOccurred) (block, successor) => do
      let (dominator, updated) ← updateDominatorOfSuccessor dominator block successor
      return (dominator, updateOccurred || updated))
    (dominator, false)

/-- What `ComputeDominanceInformation` computes. -/
structure DominanceInformation (n : ℕ) where
  reversePostOrder : List (Fin n)
  /-- `GetDominator()` of each block. -/
  dominator : Fin n → Option (Fin n)

def computeDominanceInformation : Option (DominanceInformation n) := do
  let s ← Loop.whileM (!·.worklist.isEmpty) (g.dominanceStep backEdges)
    (2 * g.numberOfEdges + 1) g.dominanceStart
  let dominator ←
    if ← mustRunFixPoint backEdges s.dominator (List.finRange n) then
      (Loop.whileM (·.2) (fun p => g.fixPointRound s.reversePostOrder p.1) (n * n + 1)
        (s.dominator, true)).map (·.1)
    else some s.dominator
  return { reversePostOrder := s.reversePostOrder, dominator }

end HGraph

end Art
