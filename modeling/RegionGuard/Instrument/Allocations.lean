import RegionGuard.IL.Evaluation
import RegionGuard.Instrument.Injection
import RegionGuard.Stateful
set_option autoImplicit false

/-!
# Reporting allocations

An allocator call is followed by a notification with its result and the size widened to 64 bits; a
deallocator call is preceded by one with its pointer, so that memory is untracked before it can be used
again; a store of a pointer is followed by one with the address stored to. Globals are registered at the
start of one function.
-/

namespace RegionGuard

/-- How many notifications were injected. -/
structure AllocationReport where
  allocations : Nat
  frees : Nat
  globals : Nat
  escapes : Nat
deriving DecidableEq, Repr

namespace AllocationReport

def empty : AllocationReport := ⟨0, 0, 0, 0⟩

def add (r s : AllocationReport) : AllocationReport :=
  ⟨r.allocations + s.allocations, r.frees + s.frees, r.globals + s.globals, r.escapes + s.escapes⟩

end AllocationReport

inductive ReportSite where
  | allocation (kind : AllocatorKind) (dst : Variable) (arguments : List Value)
  | free (pointer : Value)
  | escape (destination : Value)
deriving DecidableEq, Repr

namespace ReportSite

/-- What a direct call reports. An allocator call whose result is dropped reports nothing. -/
def ofCall (c : Configuration) (dst : Option Variable) (callee : String) (arguments : List Value) :
    Option ReportSite :=
  match c.allocator? callee with
  | some kind => if c.mallocs then dst.map fun dst => .allocation kind dst arguments else none
  | none =>
    if c.isDeallocator callee && c.frees then arguments.head?.map .free else none

def ofInstruction (c : Configuration) (i : Instruction) : Option ReportSite :=
  if i.isInjected || i.hasTag Tag.tracked then none
  else
    match i.operation with
    | .call dst (.direct callee) arguments => ofCall c dst callee arguments
    | .store pointer value => if c.escapes && value.isPointer then some (.escape pointer) else none
    | _ => none

/-- Everything that a function reports, in the order of its instructions. -/
def ofFunction (c : Configuration) (f : Function) : List (Location × ReportSite) :=
  f.located.filterMap fun (l, i) => (ofInstruction c i).map fun s => (l, s)

def tag : ReportSite → String
  | .allocation .. => "allocation"
  | .free _ => "free"
  | .escape _ => "escape"

def counted : ReportSite → AllocationReport
  | .allocation .. => ⟨1, 0, 0, 0⟩
  | .free _ => ⟨0, 1, 0, 0⟩
  | .escape _ => ⟨0, 0, 0, 1⟩

def widen (v : Value) : Drafting Value :=
  match v, v.ty with
  | .constant c, _ => pure (.ofWord c.value 64)
  | _, .integer bits =>
    if bits < 64 then Drafting.compute (.integer 64) (.cast · .zeroExtend v)
    else if 64 < bits then Drafting.compute (.integer 64) (.cast · .truncate v)
    else pure v
  | _, _ => pure v

def argument (l : Location) (arguments : List Value) (index : Nat) : Drafting Value :=
  Failure.orRaise arguments[index]? (.instrumentation (.missingArgument l index))

def notifyAllocation (h : Hooks) (l : Location) (kind : AllocatorKind) (pointer : Value)
    (arguments : List Value) : Drafting Unit :=
  match kind with
  | .malloc => do
    let size ← widen (← argument l arguments 0)
    Drafting.perform (.notify h.notifyMalloc [pointer, size])
  | .calloc => do
    let count ← widen (← argument l arguments 0)
    let size ← widen (← argument l arguments 1)
    Drafting.perform (.notify h.notifyCalloc [pointer, size, count])
  | .realloc => do
    let old ← argument l arguments 0
    let size ← widen (← argument l arguments 1)
    Drafting.perform (.notify h.notifyRealloc [pointer, size, old])

def operations (h : Hooks) (l : Location) : ReportSite → Drafting Unit
  | .allocation kind dst arguments => notifyAllocation h l kind (.variable dst) arguments
  | .free pointer => Drafting.perform (.notify h.notifyFree [pointer])
  | .escape destination => Drafting.perform (.notify h.notifyEscape [destination])

/-- Where the operations go: a pointer is reported before it is freed, all else afterwards. -/
def position (s : ReportSite) (c : FlowGraph) (l : Location) : Outcome Nat :=
  match s with
  | .free _ => c.position l
  | _ => do (← c.block l.block).positionAfter l.instruction

def report (h : Hooks) (l : Location) (s : ReportSite) : Edit Unit := do
  let (_, operations) ← (s.operations h l).collect
  let position ← Edit.ask (s.position · l)
  Edit.step (·.modifyBlock l.block fun b => do
    let injected ← b.inject position [(Tag.injected, s.tag)] operations
    injected.modify l.instruction (·.setTag Tag.tracked s.tag))

end ReportSite

def Function.reportAllocations (f : Function) (c : Configuration) :
    Outcome (AllocationReport × Function) :=
  let sites := ReportSite.ofFunction c f
  f.edit do
    for (l, s) in sites do s.report c.hooks l
    return sites.foldl (fun r s => r.add s.2.counted) .empty

namespace GlobalVariable

def trackedSize? (g : GlobalVariable) : Outcome (Option Word) := do
  if g.isDeclaration || g.linkage = .hidden || Configuration.isIntrinsic g.name then return none
  let size ← Evaluation.layout g.size?
  return if size = 0 then none else some size

def registration (h : Hooks) (id : Nat) (name : String) (size : Word) : Operation :=
  .notify h.notifyGlobal [.global name, .ofWord size 64, .ofWord (UInt64.ofNat id) 64]

end GlobalVariable

namespace Program

/-- The globals that the runtime should know, with their sizes, by name. -/
def trackedGlobals (p : Program) : Outcome (List (String × Word)) := do
  let sizes ← p.globals.values.mapM fun g => do
    return (← g.trackedSize?).map fun size => (g.name, size)
  return sizes.filterMap id

def registersGlobals (b : Block) : Bool :=
  b.instructions.any fun i => i.tag? Tag.injected = some "global"

/-- Injects registrations at the start of a function, unless it has some, and answers how many. -/
def registerIn (h : Hooks) (globals : List (String × Word)) : Edit Nat := do
  let entry ← Edit.ask FlowGraph.entryIndex
  let b ← Edit.ask (·.block entry)
  if registersGlobals b then return 0
  let operations := globals.mapIdx fun id (name, size) => GlobalVariable.registration h id name size
  Edit.step (·.modifyBlock entry fun b => b.inject b.firstNonPhi [(Tag.injected, "global")] operations)
  return globals.length

def registerGlobals (p : Program) (c : Configuration) : Logged (Nat × Program) := do
  let globals ← p.trackedGlobals
  if globals.isEmpty then return (0, p)
  let name := c.globalInitFunction
  let f ← Failure.orRaise (p.function? name) (.instrumentation (.initializerNotFound name))
  let (count, f') ← f.edit (registerIn c.hooks globals)
  unless count = 0 do Logged.write .info s!"registered {count} globals in {name}"
  return (count, p.setFunction name f')

def reportAllocations (p : Program) (c : Configuration) : Logged (AllocationReport × Program) := do
  let (reports, p) ← (p.declareHooks c.hooks).editFunctions fun f =>
    if c.instruments f then f.reportAllocations c else pure (.empty, f)
  let report := reports.foldl AllocationReport.add .empty
  if c.globals then
    let (globals, p) ← p.registerGlobals c
    return ({ report with globals := globals }, p)
  return (report, p)

end Program

end RegionGuard
