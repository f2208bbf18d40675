import Mathlib.Data.Nat.Count
import Art.Lib.Loop
import Art.Lib.RunSearch

/-!
# The region space

The space of the concurrent copying collector is a table of regions of `kRegionSize` bytes. Objects are
bumped into a *current* region (or, when the collector copies them, into an *evacuation* region), into the
thread-local buffers (TLABs) of the threads, or take a number of consecutive regions of their own: a large
head followed by large tails. A collection cycle begins with `setFromSpace`, which decides for each region
whether its objects are copied out of it, and ends with `clearFromSpace`, which frees the regions that were
emptied.

Addresses are offsets from the beginning of the space, so region `i` is `[i * kRegionSize, (i + 1) *
kRegionSize)`. `kCyclicRegionAllocation` is a constant of the build and a field here.
-/

namespace Art

open Function

def kRegionSize : ℕ := 262144

def kPartialTlabSize : ℕ := 16384

def kEvacuateLivePercentThreshold : ℕ := 75

/-- `RoundUp(x, kRegionSize) / kRegionSize`: the regions that `x` bytes take. -/
def regionsFor (x : ℕ) : ℕ := (x + kRegionSize - 1) / kRegionSize

inductive RegionState
  | free
  | allocated
  | large
  | largeTail
  deriving DecidableEq, Repr

inductive RegionType
  | none
  | toSpace
  | fromSpace
  | unevacFromSpace
  deriving DecidableEq, Repr

structure Region where
  state : RegionState
  type : RegionType
  top : ℕ
  /-- `live_bytes_`, with `none` for `-1`. -/
  liveBytes : Option ℕ
  isNewlyAllocated : Bool
  isATlab : Bool
  thread : Option ℕ
  deriving DecidableEq, Repr

namespace Region

/-- The region after `Clear`. -/
def cleared : Region :=
  { state := .free, type := .none, top := 0, liveBytes := none, isNewlyAllocated := false,
    isATlab := false, thread := none }

variable (r : Region)

def setAsFromSpace : Region :=
  { r with type := .fromSpace, isNewlyAllocated := false, liveBytes := none }

/-- The live bytes of a newly allocated region are always cleared. -/
def setAsUnevacFromSpace (clearLiveBytes : Bool) (r : Region) : Region :=
  { r with
    type := .unevacFromSpace
    isNewlyAllocated := false
    liveBytes := if r.isNewlyAllocated || clearLiveBytes then some 0 else r.liveBytes }

def setUnevacFromSpaceAsToSpace : Region := { r with type := .toSpace }

def allAllocatedBytesAreLive : Bool := r.liveBytes = some r.top

end Region

/-- A pointer to a region, as `current_region_` and `evac_region_`: `full` is `&full_region_`, in which
    nothing can be allocated. -/
inductive RegionRef
  | null
  | full
  | region (i : ℕ)
  deriving DecidableEq, Repr

/-- The thread-local buffer of a thread, `[start, stop)`, of which `[start, pos)` is used; it may be
    expanded up to `limit`. -/
structure Tlab where
  start : ℕ
  pos : ℕ
  stop : ℕ
  limit : ℕ
  deriving DecidableEq, Repr

inductive EvacMode
  | newlyAllocated
  | livePercentNewlyAllocated
  | forceAll
  deriving DecidableEq, Repr

/-- The region space, with the thread-local buffers of the threads. -/
structure RegionSpace where
  numRegions : ℕ
  cyclicRegionAllocation : Bool
  regions : ℕ → Region
  numNonFreeRegions : ℕ
  numEvacRegions : ℕ
  nonFreeRegionIndexLimit : ℕ
  currentRegion : RegionRef
  evacRegion : RegionRef
  cyclicAllocRegionIndex : ℕ
  /-- The multimap from remaining bytes to regions, in decreasing order. -/
  partialTlabs : List (ℕ × ℕ)
  tlabs : ℕ → Option Tlab

namespace RegionSpace

/-- The constructor. -/
def init (numRegions : ℕ) (cyclic : Bool) : RegionSpace where
  numRegions := numRegions
  cyclicRegionAllocation := cyclic
  regions := fun _ => Region.cleared
  numNonFreeRegions := 0
  numEvacRegions := 0
  nonFreeRegionIndexLimit := 0
  currentRegion := .full
  evacRegion := .null
  cyclicAllocRegionIndex := 0
  partialTlabs := []
  tlabs := fun _ => none

variable (s : RegionSpace) (i : ℕ)

def isFree : Bool := (s.regions i).state = .free

def setRegion (r : Region) : RegionSpace :=
  { s with regions := update s.regions i r }

/-! ## Allocation -/

variable (forEvac : Bool)

/-- `Unfree`, `UnfreeLarge` or `UnfreeLargeTail` on region `i`, and counting it. A region for evacuation is
    not newly allocated. -/
def unfree (state : RegionState) (s : RegionSpace) (i : ℕ) : RegionSpace :=
  { s with
    regions := update s.regions i
      { s.regions i with
        state := state
        type := .toSpace
        isNewlyAllocated := (s.regions i).isNewlyAllocated || !forEvac }
    nonFreeRegionIndexLimit := max s.nonFreeRegionIndexLimit (i + 1)
    numEvacRegions := if forEvac then s.numEvacRegions + 1 else s.numEvacRegions
    numNonFreeRegions := if forEvac then s.numNonFreeRegions else s.numNonFreeRegions + 1 }

/-- The indices in the order in which `AllocateRegion` looks at them. -/
def regionIndex : ℕ :=
  if s.cyclicRegionAllocation then (s.cyclicAllocRegionIndex + i) % s.numRegions else i

/-- Moves the cyclic allocation marker. -/
def setCyclicIndex (next : ℕ) : RegionSpace :=
  { s with
    cyclicAllocRegionIndex :=
      if s.cyclicRegionAllocation then next % s.numRegions else s.cyclicAllocRegionIndex }

def allocateRegion : Option (RegionSpace × ℕ) :=
  if forEvac = false ∧ (s.numNonFreeRegions + 1) * 2 > s.numRegions then none
  else
    (((List.range s.numRegions).map s.regionIndex).find? s.isFree).map fun i =>
      ((s.unfree forEvac .allocated i).setCyclicIndex (i + 1), i)

variable (numBytes : ℕ)

/-- `Region::Alloc`: the space and the address of the object. -/
def regionAlloc : RegionRef → Option (RegionSpace × ℕ)
  | .region i =>
    if (s.regions i).top + numBytes > kRegionSize then none
    else
      some (s.setRegion i { s.regions i with top := (s.regions i).top + numBytes },
        i * kRegionSize + (s.regions i).top)
  | _ => none

/-- Assigns `evac_region_` or `current_region_`. -/
def setAllocRegion (i : ℕ) : RegionSpace :=
  if forEvac then { s with evacRegion := .region i } else { s with currentRegion := .region i }

/-- Makes the free region `left` the head of a large object of `k` regions. -/
def unfreeHead (left k : ℕ) : RegionSpace :=
  let s := s.unfree forEvac .large left
  s.setRegion left { s.regions left with top := k * kRegionSize }

/-- Makes the free regions `[left, left + k)` a large head and its tails. -/
def unfreeLarge (left k : ℕ) : RegionSpace :=
  (List.range' (left + 1) (k - 1)).foldl (unfree forEvac .largeTail) (s.unfreeHead forEvac left k)

/-- The search of `AllocLarge` for `k` contiguous free regions: one pass of `AllocLargeInRange`, or two
    around the cyclic allocation marker. -/
def findFreeRegions (k : ℕ) : Option ℕ :=
  if s.cyclicRegionAllocation then
    RunSearch.findCyclic s.isFree k s.numRegions s.cyclicAllocRegionIndex
  else RunSearch.find s.isFree k s.numRegions s.numRegions 0

/-- `AllocLarge`: the space, the address of the object and the bytes allocated. -/
def allocLarge : Option (RegionSpace × ℕ × ℕ) :=
  let k := regionsFor numBytes
  -- Retain sufficient free regions for full evacuation.
  if forEvac = false ∧ (s.numNonFreeRegions + k) * 2 > s.numRegions then none
  else
    (s.findFreeRegions k).map fun left =>
      ((s.unfreeLarge forEvac left k).setCyclicIndex (left + k), left * kRegionSize, k * kRegionSize)

/-- `AllocNonvirtual`. Its second attempt, under the lock, only differs from the first if another thread
    has run in between. -/
def allocNonvirtual : Option (RegionSpace × ℕ × ℕ) :=
  if numBytes ≤ kRegionSize then
    match s.regionAlloc numBytes (if forEvac then s.evacRegion else s.currentRegion) with
    | some (s, obj) => some (s, obj, numBytes)
    | none => do
      let (s, i) ← s.allocateRegion forEvac
      let (s, obj) ← s.regionAlloc numBytes (.region i)
      some (s.setAllocRegion forEvac i, obj, numBytes)
  else s.allocLarge forEvac numBytes

/-- Clears region `i` and uncounts it. -/
def freeRegion (s : RegionSpace) (i : ℕ) : RegionSpace :=
  { s.setRegion i Region.cleared with
    numEvacRegions := if forEvac then s.numEvacRegions - 1 else s.numEvacRegions
    numNonFreeRegions := if forEvac then s.numNonFreeRegions else s.numNonFreeRegions - 1 }

def freeLarge (obj bytesAllocated : ℕ) : RegionSpace :=
  (List.range' (obj / kRegionSize) (regionsFor (obj + bytesAllocated) - obj / kRegionSize)).foldl
    (freeRegion forEvac) s

/-! ## Thread-local buffers -/

/-- Inserts into the multimap, after the entries with the same key. -/
def insertPartialTlab (entry : ℕ × ℕ) (l : List (ℕ × ℕ)) : List (ℕ × ℕ) :=
  l.takeWhile (fun e => entry.1 ≤ e.1) ++ entry :: l.dropWhile (fun e => entry.1 ≤ e.1)

def revokeThreadLocalBuffers (thread : ℕ) (reuse : Bool) : RegionSpace :=
  match s.tlabs thread with
  | none => s
  | some tlab =>
    let i := tlab.start / kRegionSize
    let remaining := (i + 1) * kRegionSize - tlab.pos
    { s with
      regions := update s.regions i
        { s.regions i with isATlab := false, thread := none, top := tlab.stop - i * kRegionSize }
      partialTlabs :=
        if reuse && kPartialTlabSize ≤ remaining then
          insertPartialTlab (remaining, i) s.partialTlabs
        else s.partialTlabs
      tlabs := update s.tlabs thread none }

/-- Makes region `i`, from `start` on, the buffer of the thread. -/
def setTlab (thread i start tlabSize : ℕ) : RegionSpace :=
  { s with
    regions := update s.regions i
      { s.regions i with isATlab := true, thread := some thread, top := kRegionSize }
    tlabs := update s.tlabs thread
      (some { start := start, pos := start, stop := start + tlabSize, limit := (i + 1) * kRegionSize }) }

/-- The largest partial TLAB, if it is large enough. -/
def largestPartialTlab (tlabSize : ℕ) : Option (ℕ × ℕ) :=
  if tlabSize < kRegionSize then s.partialTlabs.head?.filter fun e => tlabSize ≤ e.1 else none

def allocNewTlab (thread tlabSize : ℕ) : RegionSpace × Bool :=
  let s := s.revokeThreadLocalBuffers thread true
  match s.largestPartialTlab tlabSize with
  | some (remaining, i) =>
    (({ s with partialTlabs := s.partialTlabs.tail }).setTlab thread i
      ((i + 1) * kRegionSize - remaining) tlabSize, true)
  | none =>
    match s.allocateRegion false with
    | some (s, i) => (s.setTlab thread i (i * kRegionSize) tlabSize, true)
    | none => (s, false)

/-- `Thread::AllocTlab`, for a request that fits in the buffer. -/
def allocTlab (thread bytes : ℕ) : Option (RegionSpace × ℕ) := do
  let tlab ← s.tlabs thread
  if bytes ≤ tlab.stop - tlab.pos then
    some ({ s with
      tlabs := update s.tlabs thread (some { tlab with pos := tlab.pos + bytes }) }, tlab.pos)
  else none

/-- `Thread::ExpandTlab`, if there is enough capacity. -/
def expandTlab (thread bytes : ℕ) : RegionSpace :=
  match s.tlabs thread with
  | none => s
  | some tlab =>
    if tlab.stop + bytes ≤ tlab.limit then
      { s with
        tlabs := update s.tlabs thread (some { tlab with stop := tlab.stop + bytes }) }
    else s

/-! ## Collection cycles -/

def bytesAllocated : ℕ :=
  match (s.regions i).state with
  | .large => (s.regions i).top
  | .largeTail => 0
  | _ =>
    if (s.regions i).isATlab then
      match (s.regions i).thread.bind s.tlabs with
      | some tlab => tlab.stop - i * kRegionSize
      | none => 0
    else (s.regions i).top

variable (evacMode : EvacMode)

def shouldBeEvacuated (i : ℕ) : Bool :=
  if (s.regions i).state = .large then false
  else if evacMode = .forceAll then true
  else if (s.regions i).isNewlyAllocated then true
  else if evacMode = .livePercentNewlyAllocated then
    match (s.regions i).liveBytes with
    | some live =>
      live * 100 < kEvacuateLivePercentThreshold * (regionsFor (s.bytesAllocated i) * kRegionSize)
    | none => false
  else false

/-- The variables of the loop of `SetFromSpace`. -/
structure Flip where
  space : RegionSpace
  numExpectedLargeTails : ℕ
  prevLargeEvacuated : Bool

/-- Makes region `i` from-space or unevacuated from-space. -/
def setSpaceOf (evacuate clearLiveBytes : Bool) (i : ℕ) : RegionSpace :=
  s.setRegion i (if evacuate then (s.regions i).setAsFromSpace
    else (s.regions i).setAsUnevacFromSpace clearLiveBytes)

variable (clearLiveBytes : Bool)

/-- One iteration of the loop of `SetFromSpace`. -/
def setFromSpaceStep (f : Flip) (i : ℕ) : Flip :=
  if f.space.isFree i then f
  else if f.numExpectedLargeTails = 0 then
    let evacuate := f.space.shouldBeEvacuated evacMode i
    let space := f.space.setSpaceOf evacuate clearLiveBytes i
    if (f.space.regions i).state = .large ∧ (f.space.regions i).type = .toSpace then
      { space := space
        numExpectedLargeTails := regionsFor (space.bytesAllocated i) - 1
        prevLargeEvacuated := evacuate }
    else { f with space := space }
  else
    { f with
      space := f.space.setSpaceOf f.prevLargeEvacuated clearLiveBytes i
      numExpectedLargeTails := f.numExpectedLargeTails - 1 }

def setFromSpace : RegionSpace :=
  let f := (List.range (min s.numRegions s.nonFreeRegionIndexLimit)).foldl
    (setFromSpaceStep evacMode clearLiveBytes)
    { space := { s with partialTlabs := [] }, numExpectedLargeTails := 0, prevLargeEvacuated := false }
  { f.space with currentRegion := .full, evacRegion := .full }

/-- The flip of the threads: `SetFromSpace` in the pause, and then each thread gives up its buffer. -/
def flip (threads : List ℕ) : RegionSpace :=
  threads.foldl (fun s thread => s.revokeThreadLocalBuffers thread false)
    (s.setFromSpace evacMode clearLiveBytes)

/-- The variables of the loop of `ClearFromSpace`. -/
structure Sweep where
  space : RegionSpace
  index : ℕ
  newLimit : ℕ

/-- Clears the large tails from `p` on, and returns the index after them. -/
def clearLargeTails (p : ℕ) : Option (RegionSpace × ℕ) :=
  Loop.whileM (fun x => x.2 < s.numRegions && (x.1.regions x.2).state = .largeTail)
    (fun x => some (x.1.setRegion x.2 Region.cleared, x.2 + 1)) s.numRegions (s, p)

/-- Makes the regions from `p` on whose bytes are all live to-space, and returns the index after them. It
    aborts on one that is not unevacuated from-space. -/
def keepLiveRegions (p : ℕ) : Option (RegionSpace × ℕ) :=
  Loop.whileM (fun x => x.2 < s.numRegions && (x.1.regions x.2).allAllocatedBytesAreLive) (fun x =>
      if (x.1.regions x.2).type = .unevacFromSpace then
        some (x.1.setRegion x.2 (x.1.regions x.2).setUnevacFromSpaceAsToSpace, x.2 + 1)
      else none) s.numRegions (s, p)

/-- The end of an iteration of `ClearFromSpace` whose last checked region is `last`. -/
def checkLast (last newLimit : ℕ) : Sweep where
  space := s
  index := last + 1
  newLimit := if s.isFree last then newLimit else max newLimit (last + 1)

/-- One iteration of the loop of `ClearFromSpace`. -/
def sweepStep (w : Sweep) : Option Sweep :=
  let s := w.space
  let i := w.index
  match (s.regions i).type with
  | .fromSpace => some ((s.freeRegion false i).checkLast i w.newLimit)
  | .unevacFromSpace =>
    if (s.regions i).liveBytes = some 0 then do
      let (s', p) ← (s.setRegion i Region.cleared).clearLargeTails (i + 1)
      some { w with
        space := { s' with numNonFreeRegions := s'.numNonFreeRegions - (p - i) }
        index := i + 1 }
    else
      let s' := s.setRegion i (s.regions i).setUnevacFromSpaceAsToSpace
      if (s'.regions i).allAllocatedBytesAreLive then do
        let (s', p) ← s'.keepLiveRegions (i + 1)
        some (s'.checkLast (p - 1) w.newLimit)
      else some (s'.checkLast i w.newLimit)
  | _ => some (s.checkLast i w.newLimit)

/-- `ClearFromSpace`; `none` if it aborts. -/
def clearFromSpace : Option RegionSpace := do
  let w ← Loop.whileM (fun w => w.index < min s.numRegions s.nonFreeRegionIndexLimit) sweepStep
    s.numRegions { space := s, index := 0, newLimit := 0 }
  some { w.space with
    nonFreeRegionIndexLimit := w.newLimit
    evacRegion := .null
    numNonFreeRegions := w.space.numNonFreeRegions + w.space.numEvacRegions
    numEvacRegions := 0 }

end RegionSpace

end Art
