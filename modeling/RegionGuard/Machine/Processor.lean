import RegionGuard.Machine.Basic
set_option autoImplicit false

/-!
# Executing programs

A processor keeps the calls in progress and takes one step at a time: it runs one instruction of the
innermost call, or goes from the end of a block to the next one. An error ends a run and leaves no call
behind; a stop leaves everything as it was.
-/

namespace RegionGuard

inductive Receiver where
  | runner
  | caller (dst : Option Variable)
deriving DecidableEq, Repr

structure Activation where
  body : FlowGraph
  block : Nat
  remaining : List Instruction
  scalars : Table String Constant
  arguments : List Constant
  stackPointer : Word
  receiver : Receiver

/-- What is executed, and for how many instructions at most. -/
structure Task where
  program : Program
  configuration : Configuration
  stepLimit : Word

structure Processor where
  machine : Machine
  stackPointer : Word
  steps : Nat
  calls : List Activation

inductive Progress where
  | running
  | finished (result : Option Constant)
deriving DecidableEq, Repr

namespace Activation

def address (a : Word) : Constant := .make a pointerBits

def assign (a : Activation) (dst : Variable) (c : Constant) : Activation :=
  { a with scalars := a.scalars.insert dst.name c }

def value (m : Machine) (a : Activation) (v : Value) : Outcome Constant :=
  let place := fun place? => do
    return address (← Failure.orRaise place? (.execution (.noAddress v)))
  match v with
  | .variable x => Failure.orRaise (a.scalars.get? x.name) (.execution (.undefinedVariable x))
  | .argument x => Failure.orRaise a.arguments[x.index]? (.execution (.missingArgument x))
  | .constant c => pure c
  | .null => pure (address 0)
  | .global name => place (m.image.globalAddress? name)
  | .function name => place (m.image.functionAddress? name)

def word (m : Machine) (a : Activation) (v : Value) : Outcome Word :=
  return (← a.value m v).value

def values (m : Machine) (a : Activation) (l : List Value) : Outcome (List Constant) :=
  l.mapM (a.value m)

def returned (m : Machine) (a : Activation) : Option Value → Outcome (Option Constant)
  | some v => do return some (← a.value m v)
  | none => pure none

def phiValue (m : Machine) (a : Activation) (previous : Option Nat) (dst : Variable)
    (incoming : List (Value × Nat)) : Outcome Constant := do
  let block ← Failure.orRaise previous (.execution (.noPredecessor dst))
  let arriving ← Failure.orRaise (incoming.find? (·.2 = block)) (.execution (.noIncoming dst block))
  a.value m arriving.1

def phis : List Instruction → List (Variable × List (Value × Nat))
  | [] => []
  | i :: rest =>
    match i.operation with
    | .phi dst incoming => (dst, incoming) :: phis rest
    | _ => []

def enterBlock (m : Machine) (a : Activation) (previous : Option Nat) (block : Nat) :
    Outcome Activation := do
  let b ← a.body.block block
  let values ← (phis b.instructions).mapM fun (dst, incoming) => do
    return (dst, ← a.phiValue m previous dst incoming)
  let entered := values.foldl (fun a e => a.assign e.1 e.2) a
  return { entered with
    block := block
    remaining := b.instructions.dropWhile (·.operation.isPhi) }

def follow (m : Machine) (a : Activation) : List Edge → Outcome Nat
  | [] => Failure.raise (.execution (.stuck a.block))
  | e :: rest =>
    match e.condition with
    | none => pure e.tail
    | some c => do
      let w ← a.word m c.value
      if c.isSatisfiedBy w then return e.tail else follow m a rest

def nextBlock (m : Machine) (a : Activation) : Outcome Activation := do
  let target ← a.follow m (← a.body.graph.edgesOut a.block)
  a.enterBlock m (some a.block) target

def computed? (m : Machine) (a : Activation) : Operation → Option (Variable × Outcome Constant)
  | .cast dst kind src => some (dst, do Evaluation.cast kind (← a.value m src) dst.ty)
  | .elementPtr dst base source indices _ => some (dst, do
    let base ← a.word m base
    let offset ← Evaluation.elementOffset source (← a.values m indices)
    return address (base + offset))
  | .binary dst op lhs rhs =>
    some (dst, do Evaluation.binary op (← a.value m lhs) (← a.value m rhs))
  | .compare dst predicate lhs rhs =>
    some (dst, do return Evaluation.compare predicate (← a.value m lhs) (← a.value m rhs))
  | .select dst condition onTrue onFalse => some (dst, do
    let c ← a.value m condition
    a.value m (if c.isZero then onFalse else onTrue))
  | _ => none

def byteCount (bits : Nat) : Outcome Nat := do
  return (← Evaluation.layout (Ty.integerBytes? bits)).toNat

def loaded (m : Machine) (a : Activation) (ty : Ty) (pointer : Value) : Outcome Constant := do
  let place ← a.word m pointer
  let bits ← Evaluation.scalarBits ty
  return .make (← m.memory.readWord place (← byteCount bits)) bits

def receive (a : Activation) (dst : Option Variable) (result : Option Word) : Outcome Activation :=
  match dst with
  | none => pure a
  | some v => do
    let bits ← Evaluation.scalarBits v.ty
    return a.assign v (.make (result.getD 0) bits)

def slotAddress? (stackPointer size alignment : Word) : Option Word := do
  let low ← Word.sub? stackPointer size
  let aligned := low &&& ~~~(alignment - 1)
  if Machine.stackBase ≤ aligned then some aligned else none

end Activation

namespace Processor

def maxDepth : Nat := 512

def defaultStepLimit : Word := 0x1000000

/-- More steps than a run takes that ever ends. -/
def patience : Nat := 0x10000000000000000

def ofMachine (m : Machine) : Processor := ⟨m, Machine.stackTop, 0, []⟩

def onMachine {α : Type} (x : Stateful Machine α) : Stateful Processor α :=
  .zoom (·.machine) (fun m p => { p with machine := m }) x

def withStackPointer (w : Word) (p : Processor) : Processor :=
  let monitor := { p.machine.monitor with stackPointer := w }
  { p with stackPointer := w, machine := { p.machine with monitor := monitor } }

def countStep (limit : Word) : Stateful Processor Unit := do
  modify fun p => { p with steps := p.steps + 1 }
  if limit.toNat < (← get).steps then Failure.raise (.stepLimit limit)

def resume (calls : List Activation) : Stateful Processor Progress := do
  modify fun p => { p with calls := calls }
  return .running

def enter (f : Function) (arguments : List Constant) (receiver : Receiver) : Stateful Processor Unit := do
  let p ← get
  if maxDepth ≤ p.calls.length then Failure.raise (.execution (.callDepth f.name))
  let body ← f.flowGraph
  let entry ← body.entryIndex
  let a ← Activation.enterBlock p.machine ⟨body, entry, [], ∅, arguments, p.stackPointer, receiver⟩
    none entry
  set { p with calls := a :: p.calls }

def deliver (dst : Option Variable) (result : Option Word) : List Activation → Stateful Processor Progress
  | [] => return .running
  | a :: callers => do resume ((← a.receive dst result) :: callers)

def leave (a : Activation) (callers : List Activation) (result : Option Constant) :
    Stateful Processor Progress := do
  modify fun p => withStackPointer a.stackPointer { p with calls := callers }
  match a.receiver with
  | .runner => return .finished result
  | .caller dst => deliver dst (result.map Constant.value) callers

def callee (m : Machine) (a : Activation) : CallTarget → Outcome String
  | .direct name => pure name
  | .indirect address => do
    let w ← a.word m address
    Failure.orRaise (m.image.functionAt? w) (.execution (.notFunction w))

def call (t : Task) (a : Activation) (callers : List Activation) (dst : Option Variable)
    (target : CallTarget) (arguments : List Value) : Stateful Processor Progress := do
  let m := (← get).machine
  let arguments ← a.values m arguments
  let name ← callee m a target
  match Machine.builtin? t.configuration name (arguments.map Constant.value) with
  | some x => do
    let result ← onMachine x
    deliver dst result (a :: callers)
  | none => do
    let f ← t.program.function name
    if f.isDeclaration then deliver dst none (a :: callers)
    else do
      let progress ← resume (a :: callers)
      enter f arguments (.caller dst)
      return progress

def allocate (a : Activation) (callers : List Activation) (dst : Variable) (ty : Ty) (count : Value) :
    Stateful Processor Progress := do
  let p ← get
  let count ← a.word p.machine count
  let size ← Evaluation.layout ty.size?
  let alignment ← Evaluation.layout ty.alignment?
  let place ← Failure.orRaise
    (Activation.slotAddress? p.stackPointer (size * count) (max alignment 1))
    (.execution (.stackOverflow dst))
  modify (withStackPointer place)
  resume (a.assign dst (Activation.address place) :: callers)

def execute (t : Task) (a : Activation) (callers : List Activation) (o : Operation) :
    Stateful Processor Progress := do
  let m := (← get).machine
  match o with
  | .alloca dst ty count => allocate a callers dst ty count
  | .load dst pointer => resume (a.assign dst (← a.loaded m dst.ty pointer) :: callers)
  | .store pointer value => do
    let place ← a.word m pointer
    let c ← a.value m value
    let bytes ← Activation.byteCount c.bits
    onMachine (Machine.onMemory (·.writeWord place c.value bytes))
    resume (a :: callers)
  | .phi dst _ => Failure.raise (.execution (.strayPhi dst))
  | .call dst target arguments => call t a callers dst target arguments
  | .ret value => leave a callers (← a.returned m value)
  | o =>
    match a.computed? m o with
    | some (dst, x) => do resume (a.assign dst (← x) :: callers)
    | none => resume (a :: callers)

def step (t : Task) : Stateful Processor Progress := do
  let p ← get
  match p.calls with
  | [] => return .finished none
  | a :: callers =>
    match a.remaining with
    | [] => resume ((← a.nextBlock p.machine) :: callers)
    | i :: rest => do
      countStep t.stepLimit
      execute t { a with remaining := rest } callers i.operation

def proceed (t : Task) : Nat → Stateful Processor (Option Constant)
  | 0 => Failure.stop .unbounded
  | steps + 1 => do
    match ← step t with
    | .running => proceed t steps
    | .finished result => return result

/-- Calls a function with words as arguments, each reduced to the width of its type. -/
def run (t : Task) (function : String) (arguments : List Word) : Stateful Processor (Option Word) := do
  let f ← t.program.function function
  let constants := List.zipWith (fun (x : Argument) w => Constant.make w (x.ty.bits.getD pointerBits))
    f.arguments arguments
  let before ← get
  let result ← Stateful.onError
    (do
      enter f constants .runner
      proceed t patience)
    (fun p => withStackPointer before.stackPointer { p with calls := before.calls })
  return result.map Constant.value

end Processor

end RegionGuard
