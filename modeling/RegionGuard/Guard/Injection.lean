import RegionGuard.Guard.Placement
import RegionGuard.Stateful
set_option autoImplicit false

/-!
# Injecting guards

A guard hands the address of a pointer to the runtime. The guards of a range check the first and the last
address that a loop reaches; when the loop may not run at all, they get a block of their own that is taken
only when the first test passes.
-/

namespace RegionGuard

namespace GuardCode

def guardPointer (h : Hooks) (pointer : Value) (access : Access) : Drafting Unit := do
  let address ← Drafting.compute (.integer 64) (.cast · .ptrToInt pointer)
  Drafting.perform
    (.notify h.guardAddress [address, .ofWord (if access.isWrite then 1 else 0) 32])

/-- How far the last iteration lies from the start, up to a remainder of the step. -/
def span (plan : RangePlan) (ty : Ty) (bits : Nat) : Drafting Value := do
  let distance ← Drafting.compute ty (.binary · .sub plan.bound plan.start)
  if plan.predicate = .slt ∨ plan.predicate = .ult then
    Drafting.compute ty (.binary · .sub distance (.ofWord 1 bits))
  else return distance

def wholeSteps (plan : RangePlan) (ty : Ty) (step distance : Value) : Drafting Value := do
  if plan.step = 1 then return distance
  let isSigned := plan.predicate = .slt ∨ plan.predicate = .sle
  let steps ← Drafting.compute ty (.binary · (if isSigned then .sdiv else .udiv) distance step)
  Drafting.compute ty (.binary · .mul steps step)

def lastIteration (plan : RangePlan) : Drafting Value := do
  let ty := plan.start.ty
  let bits := ty.bits.getD 64
  let step := Value.ofWord (.ofInt plan.step) bits
  let last ←
    if plan.predicate = .ne then Drafting.compute ty (.binary · .sub plan.bound step)
    else do
      let distance ← span plan ty bits
      let travel ← wholeSteps plan ty step distance
      Drafting.compute ty (.binary · .add plan.start travel)
  if plan.overshoot = 0 then return last
  let past := Value.ofWord (.ofInt (plan.step * plan.overshoot)) bits
  Drafting.compute ty (.binary · .add last past)

def rebuildPointer (plan : RangePlan) (value : Value) : Drafting Value := do
  let index ←
    match plan.cast with
    | some (kind, ty) => Drafting.compute ty (.cast · kind value)
    | none => pure value
  Drafting.compute .pointer
    (.elementPtr · plan.base plan.source (plan.indices.set plan.position index) false)

def entersLoop (plan : RangePlan) : Drafting Value :=
  Drafting.compute (.integer 1) (.compare · plan.predicate plan.start plan.bound)

def guardRange (h : Hooks) (plan : RangePlan) (access : Access) (enters : Option Value) :
    Drafting Unit := do
  let first ← rebuildPointer plan plan.start
  let counted ← lastIteration plan
  let value ←
    match enters with
    | some test => Drafting.compute plan.start.ty (.select · test counted plan.start)
    | none => pure counted
  let last ← rebuildPointer plan value
  guardPointer h first access
  guardPointer h last access

end GuardCode

namespace FlowGraph

def injectGuards (c : FlowGraph) (block : Nat) (position : Block → Nat) (rule : GuardRule)
    (operations : List Operation) : Outcome FlowGraph :=
  c.modifyBlock block fun b =>
    b.inject (position b) [(Tag.injected, "guard"), (Tag.rule, rule.text)] operations

end FlowGraph

/-- What was injected into a function so far: the guards in preheaders, and for every loop header with a
range guard the block that enters the loop since. -/
structure Hoisted where
  guards : List (Nat × Value × Access × Bool)
  entering : Table Nat Nat

namespace GuardDecision

/-- Makes phis take from another block what they took from one. -/
def renameIncoming (old new : Nat) (i : Instruction) : Instruction :=
  match i.operation with
  | .phi dst incoming =>
    let renamed := incoming.map fun e => (e.1, if e.2 = old then new else e.2)
    { i with operation := .phi dst renamed }
  | _ => i

def injectRange (h : Hooks) (d : GuardDecision) (plan : RangePlan) (entering header : Nat) :
    Edit Nat := do
  if !plan.topTested then
    let (_, operations) ← Drafting.collect do
      let enters ← GuardCode.entersLoop plan
      GuardCode.guardRange h plan d.access (some enters)
    Edit.step (·.injectGuards entering Block.terminatorPosition d.rule operations)
    return entering
  let (enters, test) ← (GuardCode.entersLoop plan).collect
  Edit.step (·.injectGuards entering Block.terminatorPosition d.rule test)
  let (_, operations) ← (GuardCode.guardRange h plan d.access none).collect
  let guards ← Edit.eval FlowGraph.newBlock
  Edit.step (·.injectGuards guards (fun _ => 0) d.rule operations)
  let join ← Edit.eval FlowGraph.newBlock
  let _ ← Edit.eval (·.removeEdge entering header)
  Edit.step (·.insertEdge entering guards (some (.isTrue enters)))
  Edit.step (·.insertEdge entering join (some (.isFalse enters)))
  Edit.step (·.insertEdge guards join none)
  Edit.step (·.insertEdge join header none)
  Edit.step (·.modifyBlock header fun b =>
    pure { b with instructions := b.instructions.map (renameIncoming entering join) })
  return join

def isRange (d : GuardDecision) : Bool :=
  match d.shape with
  | .range _ => true
  | .single => false

def injectSingle (h : Hooks) (d : GuardDecision) (block : Nat) (position : Block → Nat) : Edit Nat := do
  let (_, operations) ← (GuardCode.guardPointer h d.pointer d.access).collect
  Edit.step (·.injectGuards block position d.rule operations)
  return 1

def injectHoisted (h : Hooks) (d : GuardDecision) (hoisted : Hoisted) (header preheader : Nat) :
    Edit (Nat × Hoisted) := do
  let key := (preheader, d.pointer, d.access, d.isRange)
  if key ∈ hoisted.guards then return (0, hoisted)
  let hoisted := { hoisted with guards := key :: hoisted.guards }
  let _ ← Edit.ask (·.block preheader)
  match d.shape with
  | .single => return (← d.injectSingle h preheader Block.terminatorPosition, hoisted)
  | .range plan =>
    let entering := (hoisted.entering.get? header).getD preheader
    let join ← d.injectRange h plan entering header
    return (2, { hoisted with entering := hoisted.entering.insert header join })

def inject (h : Hooks) (d : GuardDecision) (hoisted : Hoisted) : Edit (Nat × Hoisted) := do
  Edit.step (·.modifyInstruction d.location (·.setTag Tag.guarded d.rule.text))
  match d.placement with
  | .omitted => return (0, hoisted)
  | .preheader header preheader => d.injectHoisted h hoisted header preheader
  | .before l =>
    let position ← Edit.ask (·.position l)
    if d.isRange then Failure.raise (.instrumentation (.misplacedRange l))
    return (← d.injectSingle h l.block fun _ => position, hoisted)

def injectAll (h : Hooks) : List GuardDecision → Hoisted → Edit Nat
  | [], _ => pure 0
  | d :: rest, hoisted => do
    let (count, hoisted) ← d.inject h hoisted
    return count + (← injectAll h rest hoisted)

end GuardDecision

namespace StackGuardDecision

def afterSlots (b : Block) : Nat :=
  let behind := (b.instructions.reverse.takeWhile fun i => !i.operation.isAlloca).length
  if behind = b.instructions.length then b.firstNonPhi else b.instructions.length - behind

def place (d : StackGuardDecision) (c : FlowGraph) : Outcome (Nat × Nat) := do
  match d.placement with
  | .functionEntry =>
    let entry ← c.entryIndex
    return (entry, afterSlots (← c.block entry))
  | .beforeCall l => return (l.block, ← c.position l)

def inject (h : Hooks) (d : StackGuardDecision) : Edit Unit := do
  let (block, position) ← Edit.ask d.place
  Edit.step (·.modifyBlock block fun b =>
    b.inject position [(Tag.injected, "stack-guard")]
      [.notify h.guardCalleeStack [.ofWord d.frameSize 64]])

end StackGuardDecision

def Function.injectGuards (f : Function) (h : Hooks) (decisions : List GuardDecision)
    (stackGuards : List StackGuardDecision) : Outcome (Nat × Function) :=
  f.edit do
    let count ← GuardDecision.injectAll h decisions ⟨[], ∅⟩
    for d in stackGuards do d.inject h
    return count + stackGuards.length

def Program.placeGuards (p : Program) (c : Configuration) : Logged (GuardReport × Program) := do
  let p := p.declareHooks c.hooks
  let report ← p.decideGuards c
  let (counts, p) ← p.editFunctions fun f => do
    let decisions := report.decisions.filter (·.function = f.name)
    let stackGuards := report.stackGuards.filter (·.function = f.name)
    if decisions.isEmpty && stackGuards.isEmpty then return (0, f)
    f.injectGuards c.hooks decisions stackGuards
  let report := { report with injected := counts.foldl (· + ·) 0 }
  Logged.write .info
    s!"{report.decisions.length} accesses, {report.redundant} redundant, {report.injected} guards injected"
  return (report, p)

end RegionGuard
