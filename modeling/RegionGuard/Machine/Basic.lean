import RegionGuard.Configuration
import RegionGuard.IL.Evaluation
import RegionGuard.IL.Program
import RegionGuard.Monitor
import RegionGuard.Region.Basic
set_option autoImplicit false

namespace RegionGuard

structure Image where
  functions : Table String Word
  functionNames : Table Word String
  globals : Table String Word
  textEnd : Word
  globalsEnd : Word

namespace Image

def textBase : Word := 0x10000000

def stride : Word := 0x10

def globalBase : Word := 0x20000000

def empty : Image := ⟨∅, ∅, ∅, textBase, globalBase⟩

def placeFunction (x : Image) (name : String) : Outcome Image := do
  let next ← Evaluation.layout (Word.add? x.textEnd stride)
  return { x with
    functions := x.functions.insert name x.textEnd
    functionNames := x.functionNames.insert x.textEnd name
    textEnd := next }

def placeGlobal (x : Image) (g : GlobalVariable) : Outcome Image := do
  let alignment ← Evaluation.layout g.ty.alignment?
  let address ← Evaluation.layout (Ty.alignTo? x.globalsEnd (max alignment 1))
  let size ← Evaluation.layout g.size?
  let next ← Evaluation.layout (Word.add? address (max size 1))
  return { x with globals := x.globals.insert g.name address, globalsEnd := next }

def ofProgram (p : Program) : Outcome Image := do
  let x ← p.functions.values.foldlM (fun x f => x.placeFunction f.name) empty
  p.globals.values.foldlM placeGlobal x

def functionAddress? (x : Image) (name : String) : Option Word := x.functions.get? name

def functionAt? (x : Image) (address : Word) : Option String := x.functionNames.get? address

def globalAddress? (x : Image) (name : String) : Option Word := x.globals.get? name

def text (x : Image) : Region :=
  .make textBase (max (x.textEnd - textBase) stride) (.read ∪ .exec)

end Image

structure Machine where
  image : Image
  monitor : Monitor

namespace Machine

def heapBase : Word := 0x40000000

def heapSize : Word := 0x10000000

def stackBase : Word := 0x70000000

def stackSize : Word := 0x100000

def stackTop : Word := stackBase + stackSize

def ofProgram (p : Program) (kind : IndexKind) : Outcome Machine := do
  let image ← Image.ofProgram p
  let stack := Region.make stackBase stackSize .readWrite
  let space ← AddressSpace.build "carat" kind (some stack) (some image.text)
  return ⟨image, .make space (.make heapBase heapSize)⟩

def onMonitor {α : Type} (x : Stateful Monitor α) : Stateful Machine α :=
  .zoom (·.monitor) (fun m s => { s with monitor := m }) x

def memory (m : Machine) : Memory := m.monitor.memory

def onMemory (f : Memory → Outcome Memory) : Stateful Machine Unit :=
  onMonitor (.change fun m => return m.withMemory (← f m.memory))

def malloc (size : Word) : Stateful Machine Word :=
  onMonitor (.eval fun m => pure (match m.heap.alloc? size with
    | some (address, heap) => (address, m.withHeap heap)
    | none => (0, m)))

/-- Takes a block of zeros from the heap; null when there is no room. -/
def calloc (count size : Word) : Stateful Machine Word :=
  match Word.mul? count size with
  | none => pure 0
  | some total => do
    let address ← malloc total
    unless address = 0 do onMemory (·.write address (List.replicate total.toNat 0))
    return address

/-- Gives a block back. -/
def free (address : Word) : Stateful Machine Unit := do
  unless address = 0 do onMonitor (modify fun m => m.withHeap (m.heap.free address))

def moveBlock (old size : Word) : Stateful Machine Word := do
  let address ← malloc size
  if address = 0 then return 0
  let oldSize := ((← get).monitor.heap.blockSize? old).getD 0
  onMemory (·.copy old address (min oldSize size))
  free old
  return address

def realloc (old size : Word) : Stateful Machine Word := do
  if old = 0 then malloc size
  else if size = 0 then do
    free old
    return 0
  else moveBlock old size

def entryPoints (h : Hooks) (argument : Nat → Stateful Monitor Word) :
    List (String × Stateful Monitor Unit) :=
  [(h.notifyMalloc, do Monitor.notifyMalloc (← argument 0) (← argument 1)),
    (h.notifyCalloc, do Monitor.notifyCalloc (← argument 0) (← argument 1) (← argument 2)),
    (h.notifyRealloc, do Monitor.notifyRealloc (← argument 0) (← argument 1) (← argument 2)),
    (h.notifyFree, do Monitor.notifyFree (← argument 0)),
    (h.notifyGlobal, do Monitor.notifyGlobal (← argument 0) (← argument 1) (← argument 2)),
    (h.notifyEscape, do Monitor.notifyEscape (← argument 0)),
    (h.guardAddress, do
      let address ← argument 0
      let isWrite ← argument 1
      Monitor.guardAddress address (isWrite != 0)),
    (h.guardCalleeStack, do Monitor.guardCalleeStack (← argument 0)),
    (h.pinPointer, do Monitor.pinPointer (← argument 0))]

def allocate (kind : AllocatorKind) (argument : Nat → Stateful Machine Word) : Stateful Machine Word :=
  match kind with
  | .malloc => do malloc (← argument 0)
  | .calloc => do calloc (← argument 0) (← argument 1)
  | .realloc => do realloc (← argument 0) (← argument 1)

def argument {σ : Type} (function : String) (arguments : List Word) (index : Nat) : Stateful σ Word :=
  Failure.orRaise arguments[index]? (.execution (.expectsArgument function index))

/-- What a function does that the machine knows: entry points first, then allocators and deallocators. -/
def builtin? (c : Configuration) (function : String) (arguments : List Word) :
    Option (Stateful Machine (Option Word)) :=
  match (entryPoints c.hooks (argument function arguments)).lookup function with
  | some x => some do
    onMonitor x
    return none
  | none =>
    match c.allocator? function with
    | some kind => some do
      let address ← allocate kind (argument function arguments)
      return some address
    | none =>
      if c.isDeallocator function then
        some do
          free (← argument function arguments 0)
          return none
      else none

end Machine

end RegionGuard
