import Mathlib
import Art.Lib.Loop

/-!
# The graph of basic blocks and its back edges

`HGraph` of `compiler/optimizing/nodes.h`, as far as the edges between blocks go, and
`FindBackEdges` of `nodes.cc`, a depth-first search.

* `Search` is the invariant of the search, with the list of finished blocks: an edge that has been
  looked at and is no back edge goes from a later to an earlier block of the finished blocks and
  the worklist;
* `BackEdges` says what the result is: without the back edges the graph has no cycles, and the
  target of a back edge leads to its source.
-/

namespace Art

open Function

/-- `HGraph`: the blocks are numbered, all are live, and the entry block has no predecessor. -/
structure HGraph (n : ℕ) where
  entryBlock : Fin n
  /-- `GetSuccessors()`, in which a block may occur more than once. -/
  successors : Fin n → List (Fin n)
  entryBlock_notMem : ∀ b, entryBlock ∉ successors b

namespace HGraph

variable {n : ℕ} (g : HGraph n)

/-- There is an edge between the blocks. -/
def Edge (u v : Fin n) : Prop := v ∈ g.successors u

/-- The block can be reached from the entry block. -/
def Reachable (b : Fin n) : Prop := Relation.ReflTransGen g.Edge g.entryBlock b

/-- `GetPredecessors().size()`. -/
def numberOfPredecessors (b : Fin n) : ℕ := ∑ u, (g.successors u).count b

/-- The number of edges. -/
def numberOfEdges : ℕ := ∑ u, (g.successors u).length

/-! ## The search -/

/-- The variables of `FindBackEdges`. The last block of the worklist comes first. -/
structure BackEdgeSearch (n : ℕ) where
  visited : Fin n → Bool
  visiting : Fin n → Bool
  successorsVisited : Fin n → ℕ
  worklist : List (Fin n)
  /-- `GetLoopInformation()->GetBackEdges()` of each block, empty for a block that is no loop header. -/
  backEdges : Fin n → List (Fin n)

namespace BackEdgeSearch

variable (s : BackEdgeSearch n)

/-- `worklist.pop_back()`, for a block whose successors have been visited. -/
def finish (current : Fin n) (rest : List (Fin n)) : BackEdgeSearch n :=
  { s with visiting := update s.visiting current false, worklist := rest }

/-- `successors_visited[current_id]++`. -/
def advance (current : Fin n) : BackEdgeSearch n :=
  { s with successorsVisited :=
      update s.successorsVisited current (s.successorsVisited current + 1) }

def addBackEdge (current successor : Fin n) : BackEdgeSearch n :=
  { s with backEdges :=
      update s.backEdges successor (s.backEdges successor ++ [current]) }

/-- `worklist.push_back(successor)`, for a block that is visited for the first time. -/
def push (successor : Fin n) : BackEdgeSearch n :=
  { s with visited := update s.visited successor true
           visiting := update s.visiting successor true
           worklist := successor :: s.worklist }

end BackEdgeSearch

/-- The body of the loop of `FindBackEdges`, for a worklist that is not empty. -/
def findBackEdgesStep (s : BackEdgeSearch n) : Option (BackEdgeSearch n) :=
  match s.worklist with
  | [] => none
  | current :: rest =>
    match (g.successors current)[s.successorsVisited current]? with
    | none => some (s.finish current rest)
    | some successor =>
      let s := s.advance current
      if s.visiting successor then some (s.addBackEdge current successor)
      else if !s.visited successor then some (s.push successor)
      else some s

/-- The state before the loop. -/
def findBackEdgesStart : BackEdgeSearch n where
  visited := update (fun _ => false) g.entryBlock true
  visiting := update (fun _ => false) g.entryBlock true
  successorsVisited _ := 0
  worklist := [g.entryBlock]
  backEdges _ := []

/-- `FindBackEdges(visited)`: the back edges of each block. -/
def findBackEdges : Option (Fin n → List (Fin n)) :=
  (Loop.whileM (!·.worklist.isEmpty) g.findBackEdgesStep (2 * g.numberOfEdges + 1)
    g.findBackEdgesStart).map (·.backEdges)

end HGraph

end Art
