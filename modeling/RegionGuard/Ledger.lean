import RegionGuard.Memory
import RegionGuard.Stateful
set_option autoImplicit false

namespace RegionGuard

inductive Origin where
  | heap
  | global (id : Word)
  | stack
deriving DecidableEq, Repr

structure Allocation where
  start : Word
  length : Word
  origin : Origin
deriving DecidableEq, Repr

namespace Allocation

/-- The first address past the allocation, the largest word at most. -/
def stop (a : Allocation) : Word := Word.addSaturating a.start a.length

def contains (a : Allocation) (address : Word) : Bool := a.start ≤ address ∧ address < a.stop

end Allocation

/-- The tracked allocations and escapes, with the memory they lie in. -/
structure Ledger where
  memory : Memory
  allocations : Table Word Allocation
  escapes : KeySet Word

namespace Ledger

def empty : Ledger := ⟨.empty, ∅, ∅⟩

def track (l : Ledger) (start length : Word) (origin : Origin) : Ledger :=
  { l with allocations := l.allocations.insert start ⟨start, length, origin⟩ }

def untrack? (l : Ledger) (start : Word) : Option (Allocation × Ledger) := do
  let a ← l.allocations.get? start
  return (a, { l with
    allocations := l.allocations.erase start
    escapes := l.escapes.filter fun cell _ => !a.contains cell })

def allocation? (l : Ledger) (start : Word) : Option Allocation := l.allocations.get? start

def containing? (l : Ledger) (address : Word) : Option Allocation :=
  (l.allocations.last? (· ≤ address)).filter (·.contains address)

def recordEscape (l : Ledger) (cell : Word) : Ledger := { l with escapes := l.escapes.add cell }

def moved (source destination length address : Word) : Word :=
  if source ≤ address ∧ address - source < length then destination + (address - source) else address

def redirect (source destination length cell : Word) : Stateful Ledger Unit :=
  .change fun l => do
    let pointer ← l.memory.readWord cell 8
    if source ≤ pointer ∧ pointer - source < length then
      let memory ← l.memory.writeWord cell (destination + (pointer - source)) 8
      return { l with memory := memory }
    else return l

/-- Moves the allocations that start among the moved bytes. All are taken out before any is put back. -/
def moveAllocations (source destination length : Word) (allocations : Table Word Allocation) :
    Table Word Allocation :=
  let isInside := fun start : Word => source ≤ start && start < Word.addSaturating source length
  let moving := (allocations.filter fun start _ => isInside start).values
  let staying := allocations.filter fun start _ => !isInside start
  moving.foldl (fun t a =>
    let start := destination + (a.start - source)
    t.insert start { a with start := start }) staying

/-- Moves bytes, with the escapes and allocations among them, and redirects the pointers into them. The
bytes come first; escapes and allocations follow only when every pointer could be redirected. -/
def relocate (source destination length : Word) : Stateful Ledger Unit := do
  Stateful.change fun l => do
    let memory ← l.memory.copy source destination length
    return { l with memory := memory }
  let before ← get
  let cells := before.escapes.keys.map (moved source destination length)
  cells.forM (redirect source destination length)
  modify fun l => { l with
    escapes := KeySet.ofKeys cells
    allocations := moveAllocations source destination length l.allocations }

end Ledger

end RegionGuard
