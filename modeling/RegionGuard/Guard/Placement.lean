import RegionGuard.Flow.Custody
import RegionGuard.Flow.Evolution
import RegionGuard.Guard.Safety
import RegionGuard.IL.Evaluation
set_option autoImplicit false

/-!
# Deciding guards

Loads, stores, targets of indirect calls and pointers handed to code out of sight are accesses. The first
rule that matches decides: an access is redundant; or its pointer stays the same in a loop and is guarded
once in front of it; or its pointer is indexed by an induction variable and the first and last address are
guarded in front of the loop; or the guard goes directly before the access. Nothing is changed here.
-/

namespace RegionGuard

structure MemoryAccess where
  location : Location
  pointer : Value
  access : Access
deriving DecidableEq, Repr

namespace Program

def hasBody (p : Program) (function : String) : Bool :=
  match p.function? function with
  | some f => !f.isDeclaration
  | none => false

/-- Whether an operation may run code that is out of sight. -/
def isEscaping (p : Program) (c : Configuration) : Operation → Bool
  | .call _ (.indirect _) _ => true
  | .call _ (.direct callee) _ => !p.hasBody callee && !c.isKnownFunction callee
  | _ => false

end Program

namespace MemoryAccess

def ofOperation (p : Program) (c : Configuration) (o : Operation) : List (Value × Access) :=
  match o with
  | .load _ pointer => [(pointer, .read)]
  | .store pointer _ => [(pointer, .write)]
  | .call _ target arguments =>
    if p.isEscaping c o then
      let handed := (arguments.filter Value.isPointer).map fun v => (v, Access.write)
      match target with
      | .indirect address => (address, .read) :: handed
      | .direct _ => handed
    else []
  | _ => []

/-- The accesses of a function that are not decided yet. -/
def ofFunction (p : Program) (c : Configuration) (f : Function) : List MemoryAccess :=
  f.located.flatMap fun (l, i) =>
    if i.isInjected || i.hasTag Tag.guarded then []
    else (ofOperation p c i.operation).map fun (pointer, access) => ⟨l, pointer, access⟩

end MemoryAccess

structure Placer where
  safety : Safety
  facts : FunctionFacts
  custody : Custody
  forest : LoopForest

/-- A pointer indexed by a phi: the index at `position` is the phi, as `cast` changes it. -/
structure IndexedPointer where
  source : Ty
  base : Value
  indices : List Value
  position : Nat
  cast : Option (CastKind × Ty)
  phi : Variable

abbrev Ruling := GuardRule × GuardPlacement × GuardShape

namespace Predicate

def boundsFromAbove : Predicate → Bool
  | .slt | .ult | .sle | .ule | .ne => true
  | _ => false

end Predicate

namespace IndexedPointer

def varyingIndex? (d : DefUse) (l : NaturalLoop) (indices : List Value) : Option (Value × Nat) :=
  match indices.zipIdx.filter fun e => !l.isInvariant d e.1 with
  | [single] => some single
  | _ => none

def phiOf? (d : DefUse) (index : Value) : Option (Variable × Option (CastKind × Ty)) :=
  match d.definingOperation? index with
  | some (.phi _ _) => index.asVariable?.map fun phi => (phi, none)
  | some (.cast dst kind src) =>
    if kind = .zeroExtend ∨ kind = .signExtend then
      src.asVariable?.map fun phi => (phi, some (kind, dst.ty))
    else none
  | _ => none

def evolvesPredictably (d : DefUse) (l : NaturalLoop) (index : Value) : Bool :=
  let e := Evolution.ofValue d l index
  e.isAnalyzable && e.variesIn l.header

def ofPointer? (d : DefUse) (l : NaturalLoop) (pointer : Value) : Option IndexedPointer :=
  match d.definingOperation? pointer with
  | some (.elementPtr _ base source indices _) => do
    guard (l.isInvariant d base)
    let (index, position) ← varyingIndex? d l indices
    guard (evolvesPredictably d l index)
    let (phi, cast) ← phiOf? d index
    return ⟨source, base, indices, position, cast, phi⟩
  | _ => none

def plan? (x : IndexedPointer) (iv : InductionVariable) (step : Int) (b : LoopBound) (inHeader : Bool) :
    Option RangePlan :=
  if b.predicate.boundsFromAbove then
    let runsOnExit := b.topTested && inHeader
    some
      { source := x.source, base := x.base, indices := x.indices, position := x.position,
        cast := x.cast, start := iv.start, step := step, predicate := b.predicate, bound := b.bound
        overshoot := if runsOnExit then b.overshoot + 1 else b.overshoot
        topTested := b.topTested && !inHeader }
  else none

end IndexedPointer

namespace Placer

def defUse (p : Placer) : DefUse := p.facts.defUse

def invariantHoist? (p : Placer) (block : Nat) (pointer : Value) : Option GuardPlacement :=
  let loops := (p.forest.nest block).takeWhile fun l => l.isInvariant p.defUse pointer
  (loops.filterMap fun l => l.preheader.map (GuardPlacement.preheader l.header)).getLast?

def growing? (p : Placer) (block : Nat) (pointer : Value) :
    Option (NaturalLoop × Nat × IndexedPointer × InductionVariable × Int) := do
  let l ← p.forest.innermost? block
  let preheader ← l.preheader
  let x ← IndexedPointer.ofPointer? p.defUse l pointer
  let iv ← InductionVariable.ofPhi? p.defUse l x.phi
  let step ← iv.constantStep?
  guard (0 < step)
  return (l, preheader, x, iv, step)

def inductionHoist? (p : Placer) (block : Nat) (pointer : Value) :
    Outcome (Option (GuardPlacement × RangePlan)) :=
  match p.growing? block pointer with
  | none => pure none
  | some (l, preheader, x, iv, step) => do
    let c ← p.facts.function.flowGraph
    let bound? ← LoopBound.find? p.defUse c iv l
    return do
      let plan ← x.plan? iv step (← bound?) (block == l.header)
      return (.preheader l.header preheader, plan)

def redundant (reason : Redundancy) : Ruling := (.redundant reason, .omitted, .single)

def hoist? (p : Placer) (a : MemoryAccess) : Outcome (Option Ruling) :=
  match p.invariantHoist? a.location.block a.pointer with
  | some placement => pure (some (.invariantHoist, placement, .single))
  | none => do
    let hoisted? ← p.inductionHoist? a.location.block a.pointer
    return hoisted?.map fun (placement, plan) => (.inductionHoist, placement, .range plan)

def ruling (p : Placer) (a : MemoryAccess) : Outcome Ruling := do
  if p.custody.isValidatedBefore a.location a.pointer a.access then
    return redundant .alreadyValidated
  if let some reason ← p.safety.judge p.facts a.pointer then return redundant reason
  let hoisted? ← if p.safety.configuration.optimizeGuards then p.hoist? a else pure none
  return hoisted?.getD (.fallback, .before a.location, .single)

def decide (p : Placer) (a : MemoryAccess) : Outcome GuardDecision := do
  let (rule, placement, shape) ← p.ruling a
  return ⟨p.facts.function.name, a.location, a.pointer, a.access, rule, placement, shape⟩

end Placer

namespace Safety

def decideAccesses (s : Safety) (f : Function) : Outcome (List GuardDecision) := do
  let accesses := MemoryAccess.ofFunction s.program s.configuration f
  if accesses.isEmpty then return []
  let facts ← FunctionFacts.ofFunction f
  let custody ← Custody.ofDefUse facts.defUse
  let forest ← LoopForest.ofGraph (← f.flowGraph)
  accesses.mapM (Placer.decide ⟨s, facts, custody, forest⟩)

end Safety

namespace Function

def slotSize (o : Operation) : Outcome Word :=
  match o with
  | .alloca _ allocated count => do
    let size ← Evaluation.layout allocated.size?
    return Word.mulSaturating size ((count.asConstant?.map Constant.value).getD 1)
  | _ => pure 0

/-- The bytes of stack that a function allocates. -/
def frameSize (f : Function) : Outcome Word :=
  f.located.foldlM (fun size (_, i) => do return Word.addSaturating size (← slotSize i.operation)) 0

def hasStackGuard (f : Function) : Bool :=
  f.located.any fun (_, i) => i.tag? Tag.injected = some "stack-guard"

/-- Whether every stack slot is allocated in the entry block. -/
def isGrouped (f : Function) (entry : Nat) : Bool :=
  f.located.all fun (l, i) => !i.operation.isAlloca || l.block == entry

def escapingCalls (f : Function) (p : Program) (c : Configuration) : List Location :=
  f.located.filterMap fun (l, i) =>
    if !i.isInjected && p.isEscaping c i.operation then some l else none

def decideStackGuards (f : Function) (p : Program) (c : Configuration) :
    Outcome (List StackGuardDecision) := do
  let entry ← (← f.flowGraph).entryIndex
  let calls := f.escapingCalls p c
  if f.hasStackGuard || calls.isEmpty then return []
  let frameSize ← f.frameSize
  let placements :=
    if f.isGrouped entry then [.functionEntry] else calls.map StackGuardPlacement.beforeCall
  return placements.map fun placement => ⟨f.name, placement, frameSize⟩

end Function

namespace Program

def decideGuards (p : Program) (c : Configuration) : Outcome GuardReport := do
  let safety : Safety := ⟨p, .ofProgram p, c⟩
  let decided ← (p.functions.values.filter c.instruments).mapM fun f => do
    let decisions ← if c.protection then safety.decideAccesses f else pure []
    let stackGuards ← if c.restriction then f.decideStackGuards p c else pure []
    return (decisions, stackGuards)
  return ⟨decided.flatMap (·.1), decided.flatMap (·.2), 0⟩

end Program

end RegionGuard
