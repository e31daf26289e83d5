import RegionGuard.Failure
import RegionGuard.Table
set_option autoImplicit false

namespace RegionGuard

structure Heap where
  base : Word
  size : Word
  alignment : Word
  blocks : Table Word Word

namespace Heap

def make (base size : Word) : Heap := ⟨base, size, 16, ∅⟩

/-- A heap of another alignment, rounded up to a power of two, which has to be a word. -/
def makeAligned (base size alignment : Word) : Outcome Heap :=
  let power := Word.powerAbove alignment.toNat
  if power < Word.modulus then pure ⟨base, size, UInt64.ofNat power, ∅⟩ else Failure.stop .overflow

/-- The first address past the arena, the largest word at most. -/
def stop (h : Heap) : Word := Word.addSaturating h.base h.size

def alignUp? (h : Heap) (w : Word) : Option Word := do
  let top ← Word.add? w (h.alignment - 1)
  return top &&& ~~~(h.alignment - 1)

def blockSize? (h : Heap) (address : Word) : Option Word := h.blocks.get? address

def allocated (h : Heap) : Nat := h.blocks.values.foldl (fun total size => total + size.toNat) 0

/-- The first place from a candidate on where `size` bytes lie between blocks, given in order. -/
def fit? (h : Heap) (size : Word) : Word → List (Word × Word) → Option Word
  | candidate, [] => some candidate
  | candidate, (start, length) :: rest =>
    if start + length ≤ candidate then fit? h size candidate rest
    else do
      let top ← Word.add? candidate size
      if top ≤ start then some candidate
      else
        let next ← h.alignUp? (start + length)
        fit? h size next rest

/-- Makes a block of at least `size` bytes between two bounds. -/
def allocWithin? (h : Heap) (size low high : Word) : Option (Word × Heap) := do
  let size ← h.alignUp? (max size 1)
  let first ← h.alignUp? (max low h.base)
  let place ← h.fit? size first h.blocks.entries
  let top ← Word.add? place size
  guard (top ≤ min high h.stop)
  return (place, { h with blocks := h.blocks.insert place size })

def alloc? (h : Heap) (size : Word) : Option (Word × Heap) := h.allocWithin? size h.base h.stop

/-- Gives a block back; where there is none, nothing happens. -/
def free (h : Heap) (address : Word) : Heap := { h with blocks := h.blocks.erase address }

def resize? (h : Heap) (address newSize : Word) : Option (Word × Heap) := do
  let size ← h.alignUp? (max newSize 1)
  let _ ← h.blocks.get? address
  let limit := ((h.blocks.keys.find? (address < ·)).getD h.stop)
  let top ← Word.add? address size
  guard (top ≤ limit)
  return (size, { h with blocks := h.blocks.insert address size })

end Heap

end RegionGuard
