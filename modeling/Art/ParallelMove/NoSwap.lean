import Mathlib.Data.Finset.Card
import Art.Lib.Loop
import Art.ParallelMove.Location

/-!
# Resolving parallel moves with scratch locations

`ParallelMoveResolverNoSwap` of `compiler/optimizing/parallel_move_resolver.cc`. To break a
cycle, the source of a move is saved in a scratch location, and a pending move from there to
the destination is queued.
-/

namespace Art

/-- What the resolver does, for an observer: it emits a move, or queues one, with the moves that
    are pending before. -/
inductive Event
  | emitMove (source destination : Location)
  | addPendingMove (source destination : Location) (pendingMoves : List MoveOperands)

/-- `ParallelMoveResolverNoSwap`, with the events so far and the state of the subclass. -/
structure ParallelMoveResolverNoSwap (β : Type) where
  moves : List MoveOperands
  pendingMoves : List MoveOperands := []
  scratches : List Location := []
  /-- The state of the subclass. -/
  backend : β
  events : List Event := []

/-- The virtual functions that a subclass has for scratch locations. -/
structure ScratchAllocator (β : Type) where
  /-- `AllocateScratchLocationFor(kind)`: the location, and those passed to `AddScratchLocation`. -/
  allocateScratchLocationFor : ParallelMoveResolverNoSwap β → Location.Kind → Location × List Location × β
  /-- `FreeScratchLocation(loc)`: whether it calls `RemoveScratchLocation(loc)`. -/
  freeScratchLocation : ParallelMoveResolverNoSwap β → Location → Bool × β

namespace ParallelMoveResolverNoSwap

variable {β : Type} (r : ParallelMoveResolverNoSwap β) (index : ℕ)

/-- `*moves_[index]`. -/
def move : MoveOperands := r.moves.getD index ⟨.invalid, .invalid, false⟩

/-- A change of the move at an index. -/
def modifyMove (f : MoveOperands → MoveOperands) : ParallelMoveResolverNoSwap β :=
  { r with moves := r.moves.modify index f }

def isBlockedByMoves (loc : Location) : Bool :=
  r.pendingMoves.any (·.blocks loc) || r.moves.any (·.blocks loc)

def getScratchLocation (kind : Location.Kind) : Location :=
  let suits := fun loc : Location => loc.kind = kind && !r.isBlockedByMoves loc
  ((r.scratches.find? suits).or ((r.moves.map (·.destination)).find? suits)).getD .invalid

def updateMoveSource (old new : Location) : ParallelMoveResolverNoSwap β :=
  { r with moves := r.moves.map fun m => if m.source = old then m.setSource new else m }

/-- `EmitMove(index)`, for the operands of the move. -/
def emitMove (source destination : Location) : ParallelMoveResolverNoSwap β :=
  { r with events := r.events ++ [.emitMove source destination] }

/-- The move is emitted with the given operands and eliminated, and the sources of the others are
    updated. -/
def emitAndUpdate (source destination : Location) : ParallelMoveResolverNoSwap β :=
  ((r.emitMove source destination).modifyMove index (·.eliminate)).updateMoveSource source destination

def addPendingMove (source destination : Location) (is64BitMove : Bool) : ParallelMoveResolverNoSwap β :=
  { r with pendingMoves := r.pendingMoves ++ [⟨source, destination, is64BitMove⟩]
           events := r.events ++ [.addPendingMove source destination r.pendingMoves] }

def getUnblockedPendingMove (loc : Location) : Option MoveOperands := r.pendingMoves.find? fun m =>
    m.destination.overlapsWith loc && !r.isBlockedByMoves m.destination

variable (alloc : ScratchAllocator β)

/-- The loop over `scratches_` after a pending move, from the index `i`; `fuel` counts the locations
    that are left. -/
def freeScratches (pendingSource : Location) : ℕ → ℕ → ParallelMoveResolverNoSwap β →
    ParallelMoveResolverNoSwap β
  | 0, _, r => r
  | fuel + 1, i, r =>
    match r.scratches[i]? with
    | none => r
    | some scratch =>
      if scratch.overlapsWith pendingSource && !r.isBlockedByMoves scratch then
        let p := alloc.freeScratchLocation r pendingSource
        freeScratches pendingSource fuel (i + 1)
          { r with scratches := if p.1 then r.scratches.erase pendingSource else r.scratches
                   backend := p.2 }
      else freeScratches pendingSource fuel (i + 1) r

/-- The body of the loop over unblocked pending moves, for the move `m`. -/
def performPendingMove (m : MoveOperands) (r : ParallelMoveResolverNoSwap β) : ParallelMoveResolverNoSwap β :=
  let r := { r with pendingMoves := r.pendingMoves.erase m }
  let r := (r.emitMove m.source m.destination).updateMoveSource m.source m.destination
  freeScratches alloc m.source r.scratches.length 0 r

/-- The loop over unblocked pending moves; `fuel` counts the moves that are left. -/
def performPendingMoves (source : Location) : ℕ → ParallelMoveResolverNoSwap β → ParallelMoveResolverNoSwap β
  | 0, r => r
  | fuel + 1, r =>
    match r.getUnblockedPendingMove source with
    | none => r
    | some m => performPendingMoves source fuel (performPendingMove alloc m r)

/-- `PerformMove(index)` from where the move is no longer pending. -/
def finishMove (index : ℕ) (destination : Location) (r : ParallelMoveResolverNoSwap β) :
    ParallelMoveResolverNoSwap β :=
  let r := r.modifyMove index (·.setDestination destination)
  let source := (r.move index).source
  let is64BitMove := (r.move index).is64BitMove
  let r :=
    if r.isBlockedByMoves destination then
      let p := alloc.allocateScratchLocationFor r source.kind
      let r := { r with scratches := r.scratches ++ p.2.1, backend := p.2.2 }
      (r.emitAndUpdate index source p.1).addPendingMove p.1 destination is64BitMove
    else r.emitAndUpdate index source destination
  performPendingMoves alloc source r.pendingMoves.length r

/-- `PerformMove(index)`; `fuel` bounds the depth of the recursion. -/
def performMove : ℕ → ℕ → ParallelMoveResolverNoSwap β → Option (ParallelMoveResolverNoSwap β)
  | 0, _, _ => none
  | fuel + 1, index, r =>
    if (r.move index).isRedundant then some (r.modifyMove index (·.eliminate))
    else do
      let destination := (r.move index).destination
      let r := r.modifyMove index (·.setDestination .invalid)
      let r ← (List.range r.moves.length).foldlM (fun r i =>
        if (r.move i).blocks destination && !(r.move i).isPending then performMove fuel i r
        else some r) r
      return finishMove alloc index destination r

/-- `EmitNativeCode(parallel_move)` up to the last check, from the state of the subclass after
    `PrepareForEmitNativeCode()`. -/
def emitNativeCode (backend : β) (parallelMove : List MoveOperands) :
    Option (ParallelMoveResolverNoSwap β) := do
  let moves := parallelMove.filter (!·.isRedundant)
  let r ← (List.range moves.length).foldlM (fun r i =>
    if !(r.move i).isEliminated && !(r.move i).source.isConstant then
      performMove alloc moves.length i r
    else some r) { moves, backend }
  let r := (List.range moves.length).foldl (fun r i =>
    let m := r.move i
    if !m.isEliminated && m.destination.kind ≠ .stackSlot && m.destination.kind ≠ .doubleStackSlot then
      r.emitAndUpdate i m.source m.destination
    else r) r
  return (List.range moves.length).foldl (fun r i =>
    let m := r.move i
    if !m.isEliminated then (r.emitMove m.source m.destination).modifyMove i (·.eliminate)
    else r) r

end ParallelMoveResolverNoSwap

end Art
