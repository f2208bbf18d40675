import Mathlib.Algebra.Order.Ring.Nat
import Art.Lib.OrderedSet

/-!
# The free list large object space

The large object space that carves its objects out of one mapping. A side table
holds an `AllocationInfo` for every page; the ones at the start of a block are
meaningful and form a chain, each pointing to the next by its own size. Free
blocks are found through the allocation that follows them, which records their
length in `prev_free_`; the free memory at the end has no such allocation and is
counted by `free_end_`.

Pointers into the side table are slot indexes. The DCHECKs of `Free` on the
infos it meets are kept beside its CHECKs.
-/

namespace Art

/-- The page size, the unit of the side table. -/
def kAlignment : Nat := 4096

/-- `RoundUp(x, kAlignment)` on 64-bit sizes. -/
def roundUp (x : Nat) : Nat := (x + (kAlignment - 1)) % 2 ^ 64 / kAlignment * kAlignment

/-- The difference of two 64-bit sizes. -/
def subSize (x y : Nat) : Nat := (x + (2 ^ 64 - y)) % 2 ^ 64

/-- An entry of the side table. -/
structure AllocationInfo where
  /-- The size of the free block before this one, in pages. -/
  prevFree : BitVec 32
  /-- The size of this block in pages, and its flags. -/
  allocSize : BitVec 32
  deriving DecidableEq, Repr

namespace AllocationInfo

def kFlagFree : BitVec 32 := 0x80000000#32

def kFlagZygote : BitVec 32 := 0x40000000#32

def kFlagsMask : BitVec 32 := ~~~(kFlagFree ||| kFlagZygote)

/-- The entry of a fresh mapping. -/
def zero : AllocationInfo := ⟨0#32, 0#32⟩

variable (info : AllocationInfo)

def alignSize : Nat := (info.allocSize &&& kFlagsMask).toNat

def byteSize : Nat := info.alignSize * kAlignment

def setByteSize (size : Nat) (free : Bool) (info : AllocationInfo) : AllocationInfo :=
  { info with
    allocSize := BitVec.ofNat 32 (size / kAlignment) ||| if free then kFlagFree else 0#32 }

def isFree : Bool := info.allocSize &&& kFlagFree != 0#32

def getPrevFree : Nat := info.prevFree.toNat

def getPrevFreeBytes : Nat := info.getPrevFree * kAlignment

def setPrevFreeBytes (bytes : Nat) (info : AllocationInfo) : AllocationInfo :=
  { info with prevFree := BitVec.ofNat 32 (bytes / kAlignment) }

end AllocationInfo

/-- `SortByPrevFree`, on infos with their addresses. -/
def sortByPrevFree (a b : AllocationInfo × Nat) : Bool :=
  if a.1.getPrevFree < b.1.getPrevFree then true
  else if a.1.getPrevFree > b.1.getPrevFree then false
  else if a.1.alignSize < b.1.alignSize then true
  else if a.1.alignSize > b.1.alignSize then false
  else a.2 < b.2

/-- The space: its bounds, the side table, and the counters. -/
structure FreeListSpace where
  begin_ : Nat
  end_ : Nat
  allocationInfo : Nat → AllocationInfo
  freeEnd : Nat
  /-- The allocations with a free block before them, ordered by `sortByPrevFree`. -/
  freeBlocks : List Nat
  numObjectsAllocated : Nat
  totalObjectsAllocated : Nat
  numBytesAllocated : Nat
  totalBytesAllocated : Nat

namespace FreeListSpace

/-- The space `Create` makes over a mapping of `capacity` bytes at `begin_`. -/
def create (begin_ capacity : Nat) : FreeListSpace where
  begin_ := begin_
  end_ := begin_ + capacity
  allocationInfo := fun _ => AllocationInfo.zero
  freeEnd := capacity
  freeBlocks := []
  numObjectsAllocated := 0
  totalObjectsAllocated := 0
  numBytesAllocated := 0
  totalBytesAllocated := 0

variable (s : FreeListSpace)

def getSlotIndexForAddress (address : Nat) : Nat := (address - s.begin_) / kAlignment

variable (info : Nat)

def getAddressForAllocationInfo : Nat := s.begin_ + info * kAlignment

def getNextInfo : Nat := info + (s.allocationInfo info).alignSize

/-- Where the free region at the end begins. -/
def freeEndStart : Nat := s.end_ - s.freeEnd

/-- A write to one entry of the side table. -/
def modifyInfo (f : AllocationInfo → AllocationInfo) : FreeListSpace :=
  { s with
    allocationInfo := fun i => if i = info then f (s.allocationInfo i) else s.allocationInfo i }

/-- The order of `free_blocks_`, through the side table as it stands. -/
def less (a b : Nat) : Bool := sortByPrevFree (s.allocationInfo a, a) (s.allocationInfo b, b)

def insertFreeBlock : FreeListSpace :=
  { s with freeBlocks := OrderedSet.insert s.less info s.freeBlocks }

/-- `RemoveFreePrev`: none when one of its CHECKs fails. -/
def removeFreePrev : Option FreeListSpace :=
  if (s.allocationInfo info).getPrevFree = 0 then none
  else
    match OrderedSet.lowerBound (s.less · info) s.freeBlocks with
    | [] => none
    | it :: _ =>
      if it = info then
        some { s with freeBlocks := OrderedSet.eraseAt (s.less · info) s.freeBlocks }
      else none

/-- The part of `Alloc` that finds room: the info of the new object, and the space without that room.
    `temp` is where the key on the stack stands relative to the side table. -/
def findRoom (temp allocationSize : Nat) : Option (Nat × FreeListSpace) :=
  let tempInfo := (AllocationInfo.zero.setPrevFreeBytes allocationSize).setByteSize 0 false
  let isBelow := fun i => sortByPrevFree (s.allocationInfo i, i) (tempInfo, temp)
  match OrderedSet.lowerBound isBelow s.freeBlocks with
  | info :: _ =>
    let s' := { s with freeBlocks := OrderedSet.eraseAt isBelow s.freeBlocks }
    let newInfo := info - (s.allocationInfo info).getPrevFree
    let rest := subSize (s.allocationInfo info).getPrevFreeBytes allocationSize
    let s' := s'.modifyInfo info (·.setPrevFreeBytes rest)
    let remaining := (s'.allocationInfo info).getPrevFreeBytes
    if 0 < remaining then
      let newFree := info - (s'.allocationInfo info).getPrevFree
      let s' := s'.modifyInfo newFree fun i => (i.setPrevFreeBytes 0).setByteSize remaining true
      some (newInfo, s'.insertFreeBlock info)
    else
      some (newInfo, s')
  | [] =>
    if s.freeEnd ≥ allocationSize then
      some (s.getSlotIndexForAddress s.freeEndStart, { s with freeEnd := s.freeEnd - allocationSize })
    else none

/-- `Alloc`: the object and the bytes it got, or nothing when there is no room. -/
def alloc (temp numBytes : Nat) : Option (Nat × Nat) × FreeListSpace :=
  let allocationSize := roundUp numBytes
  match s.findRoom temp allocationSize with
  | none => (none, s)
  | some (newInfo, s') =>
    let s' :=
      { s' with
        numObjectsAllocated := (s'.numObjectsAllocated + 1) % 2 ^ 64
        totalObjectsAllocated := (s'.totalObjectsAllocated + 1) % 2 ^ 64
        numBytesAllocated := (s'.numBytesAllocated + allocationSize) % 2 ^ 64
        totalBytesAllocated := (s'.totalBytesAllocated + allocationSize) % 2 ^ 64 }
    let s' := s'.modifyInfo newInfo fun i =>
      (i.setPrevFreeBytes 0).setByteSize allocationSize false
    (some (s'.getAddressForAllocationInfo newInfo, allocationSize), s')

/-- The part of `Free` that joins the chunk with a free one before it: the space,
    the info of the joined chunk and its size. -/
def coalescePrev (info allocationSize : Nat) : Option (FreeListSpace × Nat × Nat) :=
  let prevFreeBytes := (s.allocationInfo info).getPrevFreeBytes
  if prevFreeBytes ≠ 0 then
    match s.removeFreePrev info with
    | none => none
    | some s' =>
      let prevInfo := info - (s'.allocationInfo info).getPrevFree
      if (s'.allocationInfo prevInfo).getPrevFreeBytes = 0 then
        some (s', prevInfo, allocationSize + prevFreeBytes)
      else none
  else
    some (s, info, allocationSize)

variable (info nextInfo newFreeSize : Nat)

/-- The part of `Free` that joins the chunk with a free one after it, and
    records the result at the allocation that follows. -/
def coalesceNext : Option FreeListSpace :=
  let joined :=
    if (s.allocationInfo nextInfo).isFree then
      let nextNextInfo := s.getNextInfo nextInfo
      if (s.allocationInfo nextNextInfo).isFree then none
      else
        match s.removeFreePrev nextNextInfo with
        | none => none
        | some s' =>
          some (s', nextNextInfo, newFreeSize + (s.allocationInfo nextNextInfo).getPrevFreeBytes)
    else
      some (s, nextInfo, newFreeSize)
  match joined with
  | none => none
  | some (s', newFreeInfo, newFreeSize) =>
    let s' := s'.modifyInfo newFreeInfo (·.setPrevFreeBytes newFreeSize)
    let s' := s'.insertFreeBlock newFreeInfo
    let s' := s'.modifyInfo info (·.setByteSize newFreeSize true)
    if s'.getNextInfo info = newFreeInfo then some s' else none

/-- The part of `Free` that gives the chunk to the free region at the end, or
    joins it with what follows. -/
def release : Option FreeListSpace :=
  let nextAddr := s.getAddressForAllocationInfo nextInfo
  if nextAddr ≥ s.freeEndStart then
    if nextAddr = s.freeEndStart then some { s with freeEnd := s.freeEnd + newFreeSize } else none
  else
    s.coalesceNext info nextInfo newFreeSize

/-- `Free`: the bytes freed, or none when a check fails. -/
def free (obj : Nat) : Option (Nat × FreeListSpace) :=
  let info := s.getSlotIndexForAddress obj
  let allocationSize := (s.allocationInfo info).byteSize
  if (s.allocationInfo info).isFree ∨ allocationSize = 0 then none
  else
    let s' := s.modifyInfo info (·.setByteSize allocationSize true)
    let nextInfo := s'.getNextInfo info
    match s'.coalescePrev info allocationSize with
    | none => none
    | some (s', info, newFreeSize) =>
      match s'.release info nextInfo newFreeSize with
      | none => none
      | some s' =>
        if allocationSize ≤ s'.numBytesAllocated then
          some (allocationSize, { s' with
              numObjectsAllocated := (s'.numObjectsAllocated + (2 ^ 64 - 1)) % 2 ^ 64
              numBytesAllocated := s'.numBytesAllocated - allocationSize })
        else none

/-- The infos met on the way from `cur` to `endInfo`, and where the way ends. -/
def follow (s : FreeListSpace) (endInfo : Nat) : Nat → Nat → List Nat × Nat
  | 0, cur => ([], cur)
  | fuel + 1, cur =>
    if cur < endInfo then
      let (infos, last) := s.follow endInfo fuel (s.getNextInfo cur)
      (cur :: infos, last)
    else ([], cur)

/-- The slot where the free region at the end begins. -/
def endInfo : Nat := s.getSlotIndexForAddress s.freeEndStart

/-- The chain of infos from the first slot. Every step of the chain is at least
    one slot, so the number of slots is enough fuel. -/
def chain : List Nat × Nat := s.follow s.endInfo s.endInfo 0

/-- A call of the callback of `Walk`. -/
structure WalkCall where
  start : Nat
  stop : Nat
  numBytes : Nat
  deriving DecidableEq, Repr

/-- What `Walk` does with one info. -/
def visit (curInfo : Nat) : List WalkCall :=
  if (s.allocationInfo curInfo).isFree then []
  else
    let allocSize := (s.allocationInfo curInfo).byteSize
    let byteStart := s.getAddressForAllocationInfo curInfo
    [⟨byteStart, byteStart + allocSize, allocSize⟩, ⟨0, 0, 0⟩]

/-- `Walk`: the calls it makes, or none when its CHECK fails. -/
def walk : Option (List WalkCall) :=
  let (infos, last) := s.chain
  if last = s.endInfo then some (infos.flatMap s.visit) else none

end FreeListSpace

end Art
