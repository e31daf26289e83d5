import RegionGuard.Ledger
import RegionGuard.Space.Motion
set_option autoImplicit false

namespace RegionGuard

instance : Relocator Ledger := ⟨Ledger.relocate⟩

structure Counters where
  allocations : Nat
  frees : Nat
  globals : Nat
  escapes : Nat
  guards : Nat
  stackGuards : Nat
  violations : Nat
deriving DecidableEq, Repr

structure Monitor where
  tracker : Tracker Ledger
  /-- Where the stack of the program ends at present; zero while it is unknown. -/
  stackPointer : Word
  counters : Counters

namespace Monitor

def make (space : AddressSpace) (heap : Heap) : Monitor :=
  ⟨⟨space, heap, .empty⟩, 0, ⟨0, 0, 0, 0, 0, 0, 0⟩⟩

def dataProtection : Protection := .readWrite

def space (m : Monitor) : AddressSpace := m.tracker.space

def heap (m : Monitor) : Heap := m.tracker.heap

def ledger (m : Monitor) : Ledger := m.tracker.relocation

def memory (m : Monitor) : Memory := m.ledger.memory

def withHeap (m : Monitor) (h : Heap) : Monitor := { m with tracker := { m.tracker with heap := h } }

def mapLedger (f : Ledger → Ledger) (m : Monitor) : Monitor :=
  { m with tracker := { m.tracker with relocation := f m.tracker.relocation } }

def withMemory (m : Monitor) (memory : Memory) : Monitor :=
  m.mapLedger fun l => { l with memory := memory }

/-- Runs a computation on the tracked regions, the heap and the ledger. -/
def onTracker {α : Type} (x : Stateful (Tracker Ledger) α) : Stateful Monitor α :=
  .zoom (·.tracker) (fun t m => { m with tracker := t }) x

def onSpace {α : Type} (x : Stateful AddressSpace α) : Stateful Monitor α := onTracker (Tracker.onSpace x)

def onLedger {α : Type} (x : Stateful Ledger α) : Stateful Monitor α := onTracker (Tracker.onRelocation x)

def count (f : Counters → Counters) : Stateful Monitor Unit :=
  modify fun m => { m with counters := f m.counters }

/-- Tracks new memory. Null pointers and empty allocations are passed over. -/
def track (start size : Word) (origin : Origin) : Stateful Monitor Unit := do
  if start = 0 ∨ size = 0 then return ()
  let _ ← onSpace (AddressSpace.addRegion (.make start size dataProtection))
  modify (mapLedger (·.track start size origin))

def untrack (start : Word) : Stateful Monitor Unit := do
  match (← get).ledger.untrack? start with
  | none => return ()
  | some (_, ledger) =>
    modify (mapLedger fun _ => ledger)
    let _ ← onSpace (AddressSpace.removeRegion (.startingAt start) .byStart)

def notifyMalloc (start size : Word) : Stateful Monitor Unit := do
  count fun c => { c with allocations := c.allocations + 1 }
  track start size .heap

def notifyCalloc (start size members : Word) : Stateful Monitor Unit := do
  let total ← Failure.orRaise (Word.mul? size members) (.invalidRegion (.allocationOverflow members size))
  notifyMalloc start total

def notifyRealloc (start size old : Word) : Stateful Monitor Unit := do
  if old ≠ 0 then untrack old
  notifyMalloc start size

def notifyFree (start : Word) : Stateful Monitor Unit := do
  if start = 0 then return ()
  count fun c => { c with frees := c.frees + 1 }
  untrack start

def notifyGlobal (start size id : Word) : Stateful Monitor Unit := do
  count fun c => { c with globals := c.globals + 1 }
  track start size (.global id)

def notifyEscape (cell : Word) : Stateful Monitor Unit := do
  count fun c => { c with escapes := c.escapes + 1 }
  modify (mapLedger (·.recordEscape cell))

def countViolation (m : Monitor) : Monitor :=
  { m with counters := { m.counters with violations := m.counters.violations + 1 } }

def guardAddress (address : Word) (isWrite : Bool) : Stateful Monitor Unit := do
  count fun c => { c with guards := c.guards + 1 }
  Stateful.onError (onSpace (AddressSpace.requestPermission address (.ofIsWrite isWrite))) countViolation

def frameFits (stack : Region) (stackPointer frameSize : Word) : Bool :=
  match Word.sub? stackPointer frameSize with
  | some low => stack.start ≤ low ∧ stackPointer ≤ stack.stop ∧ stack.protection.allows .write
  | none => false

def guardCalleeStack (frameSize : Word) : Stateful Monitor Unit := do
  count fun c => { c with stackGuards := c.stackGuards + 1 }
  let m ← get
  let stack ← Failure.orRaise m.space.stackRegion? (.invalidRegion .noStack)
  let stackPointer := if m.stackPointer = 0 then stack.stop else m.stackPointer
  if frameFits stack stackPointer frameSize then
    onSpace (modify (AddressSpace.latchStack .write))
  else
    modify countViolation
    Failure.raise (.violation (stackPointer - frameSize) .write)

def pinPointer (pointer : Word) : Stateful Monitor Unit := do
  let _ ← onSpace (AddressSpace.pin pointer)

end Monitor

end RegionGuard
