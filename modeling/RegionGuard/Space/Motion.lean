import RegionGuard.Heap
import RegionGuard.Space.Basic
set_option autoImplicit false

namespace RegionGuard

/-- Moves `length` bytes and mends the pointers into them. -/
class Relocator (ρ : Type) where
  relocate (source destination length : Word) : Stateful ρ Unit

/-- An address space with the heap it takes memory from and the state of its relocator. -/
structure Tracker (ρ : Type) where
  space : AddressSpace
  heap : Heap
  relocation : ρ

namespace Tracker

variable {ρ : Type}

def onSpace {α : Type} (x : Stateful AddressSpace α) : Stateful (Tracker ρ) α :=
  .zoom (·.space) (fun s t => { t with space := s }) x

def onRelocation {α : Type} (x : Stateful ρ α) : Stateful (Tracker ρ) α :=
  .zoom (·.relocation) (fun r t => { t with relocation := r }) x

def mapRegions (f : RegionIndex → RegionIndex) (t : Tracker ρ) : Tracker ρ :=
  { t with space := { t.space with regions := f t.space.regions } }

/-- Gives a block back to the heap. -/
def free (address : Word) (t : Tracker ρ) : Tracker ρ := { t with heap := t.heap.free address }

def restore (r : Region) (t : Tracker ρ) : Tracker ρ :=
  t.mapRegions fun x => (x.insert r).toOption.getD x

def insertRegion (r : Region) : Stateful (Tracker ρ) Unit :=
  onSpace (.change fun s => do
    let regions ← s.regions.insert r
    return { s with regions := regions })

def allocate (f : Heap → Option (Word × Heap)) (shortage : MemoryShortage) : Stateful (Tracker ρ) Word := do
  let t ← get
  let (address, heap) ← Failure.orRaise (f t.heap) (.outOfMemory shortage)
  set { t with heap := heap }
  return address

/-- Moves a region with its contents to another place of the same length. It keeps its protection and
what was requested of it, and stays where it is when the move fails. -/
def moveRegion [Relocator ρ] (old new : Region) : Stateful (Tracker ρ) Region := do
  for r in [old, new] do
    unless r.isIdentityMapped do
      Failure.raise (.invalidRegion (.notIdentityMapped r.start r.physicalStart))
  let t ← get
  let r ← t.space.findRegion old ⟨true, false, true, false⟩
  if t.space.isFixed r then Failure.raise (.regionPinned r.start)
  if new.length ≠ r.length then Failure.raise (.invalidRegion (.lengthMismatch r.length new.length))
  modify (mapRegions fun x => ((x.remove? r .byStart).map (·.2)).getD x)
  Stateful.onError
    (do
      onSpace (.ask (·.checkRoom new))
      onRelocation (Relocator.relocate r.start new.start r.length))
    (restore r)
  let moved := { r with start := new.start, physicalStart := new.start }
  insertRegion moved
  return moved

/-- Moves a region to a block of the heap that was taken for it, and frees the block it leaves. When the
move fails the new block is given back. -/
def moveToBlock [Relocator ρ] (old : Region) (destination : Word) : Stateful (Tracker ρ) Unit := do
  let _ ← Stateful.onError (moveRegion old (.make destination old.length old.protection)) (free destination)
  modify (free old.start)

/-- Where an evicted region goes: behind the growing region, else in front of it. -/
def evictionPlace? (start newStop length : Word) (h : Heap) : Option (Word × Heap) :=
  match h.allocWithin? length newStop Word.maximum with
  | some found => some found
  | none => h.allocWithin? length 0 start

/-- Moves the regions between a growing region and its new end out of the way, one by one. -/
def evictNeighbors [Relocator ρ] (start newStop : Word) (byForce : Bool) : Nat → Stateful (Tracker ρ) Unit
  | 0 => Failure.stop .unbounded
  | rounds + 1 => do
    let t ← get
    match t.space.regions.nextFrom? (start + 1) with
    | none => return ()
    | some neighbor =>
      if newStop ≤ neighbor.start then return ()
      unless byForce do Failure.raise (.collision start neighbor.start)
      if t.space.isFixed neighbor then Failure.raise (.regionPinned neighbor.start)
      let destination ← allocate (evictionPlace? start newStop neighbor.length) (.eviction neighbor.start)
      moveToBlock neighbor destination
      let _ ← onSpace (.ask (·.findRegion (.startingAt start) .byStart))
      evictNeighbors start newStop byForce rounds

def setLength (start length : Word) (t : Tracker ρ) : Tracker ρ :=
  t.mapRegions fun x => x.modify start fun r => { r with length := length }

def resizeBlock (start newSize : Word) : Stateful (Tracker ρ) Word :=
  allocate (·.resize? start newSize) (.growth start newSize)

def growRegion [Relocator ρ] (r : Region) (newSize : Word) (byForce : Bool) :
    Stateful (Tracker ρ) Word := do
  let newStop ← Failure.orRaise (Word.add? r.start newSize) (.invalidRegion (.wraps r.start))
  let t ← get
  evictNeighbors r.start newStop byForce (t.space.regions.size + 1)
  let granted ← resizeBlock r.start newSize
  if granted < newSize then Failure.raise (.outOfMemory (.partialGrowth granted newSize))
  let t ← get
  let length := match t.space.regions.nextFrom? (r.start + 1) with
    | some neighbor => min (neighbor.start - r.start) granted
    | none => granted
  modify (setLength r.start length)
  return length

/-- Resizes a region in place and answers its new length. By force, regions in the way of its growth are
moved elsewhere. -/
def resizeRegion [Relocator ρ] (query : Region) (newSize : Word) (byForce : Bool) :
    Stateful (Tracker ρ) Word := do
  let t ← get
  let r ← t.space.findRegion query .byStart
  if newSize = r.length then return r.length
  if newSize = 0 then Failure.raise (.invalidRegion (.resizeToZero r.start))
  if t.space.isFixed r then Failure.raise (.regionPinned r.start)
  if newSize < r.length then
    modify fun t => { t with heap := ((t.heap.resize? r.start newSize).map (·.2)).getD t.heap }
    modify (setLength r.start newSize)
    return newSize
  growRegion r newSize byForce

/-- Moves a region to a fresh block of the heap, and answers where the unused rest of it begins. -/
def defragmentRegion [Relocator ρ] (query : Region) (newSize : Word) : Stateful (Tracker ρ) Word := do
  let t ← get
  let r ← t.space.findRegion query .byStart
  if t.space.isFixed r then Failure.raise (.regionPinned r.start)
  if newSize < r.length then Failure.raise (.invalidRegion (.shrinks r.start newSize))
  let destination ← allocate (·.alloc? newSize) (.block newSize)
  moveToBlock r destination
  return destination + r.length

end Tracker

end RegionGuard
