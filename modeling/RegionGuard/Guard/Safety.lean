import RegionGuard.Flow.CallGraph
import RegionGuard.Flow.DefUse
import RegionGuard.Guard.Decision
import RegionGuard.Instrument.Injection
set_option autoImplicit false

/-!
# Safe pointers

A pointer is safe when following it back leads to stack slots, globals and fresh allocations only:
through bitcasts, in-bounds indexing, phis and selections, through a stack slot that was stored to once,
and through an argument to what every caller passes.
-/

namespace RegionGuard

/-- What the search knows about one function. -/
structure FunctionFacts where
  defUse : DefUse
  dominators : Dominators

namespace FunctionFacts

def ofFunction (f : Function) : Outcome FunctionFacts := do
  let defUse ← DefUse.ofFunction f
  let c ← f.flowGraph
  return ⟨defUse, ← c.dominators⟩

def function (f : FunctionFacts) : Function := f.defUse.function

def precedes (b : Block) (first second : Nat) : Bool :=
  match b.position? first, b.position? second with
  | some p, some q => p < q
  | _, _ => false

/-- Whether one instruction runs before another on every path to it. -/
def dominates (f : FunctionFacts) (first second : Location) : Bool :=
  if first.block = second.block then
    match f.function.block? first.block with
    | some b => precedes b first.instruction second.instruction
    | none => false
  else f.dominators.dominates first.block second.block

end FunctionFacts

/-- Phis, and functions whose argument is being followed, that the search is inside of. -/
structure Trail where
  phis : List (String × Variable)
  functions : List String

structure Safety where
  program : Program
  callGraph : CallGraph
  configuration : Configuration

namespace Safety

abbrev Judge := FunctionFacts → Trail → Value → Outcome (Option Redundancy)

/-- The only value stored into a stack slot, and where, when the slot is used for nothing but loading and
that one store. Injected instructions do not count. -/
def onlyStore? (f : FunctionFacts) (slot : Value) :
    List Location → Option (Location × Value) → Option (Location × Value)
  | [], found => found
  | l :: rest, found =>
    match f.function.instruction? l with
    | none => none
    | some i =>
      if i.isInjected then onlyStore? f slot rest found
      else
        match i.operation with
        | .load _ pointer => if pointer = slot then onlyStore? f slot rest found else none
        | .store pointer value =>
          if pointer = slot ∧ value ≠ slot ∧ found.isNone then
            onlyStore? f slot rest (some (l, value))
          else none
        | _ => none

def storedIn? (f : FunctionFacts) (loaded : Variable) (pointer : Value) : Option Value := do
  let slot ← pointer.asVariable?
  let o ← f.defUse.definingOperation? pointer
  guard o.isAlloca
  let (place, value) ← onlyStore? f pointer (f.defUse.uses slot) none
  let load ← f.defUse.definition? loaded
  guard (f.dominates place load)
  return value

def restsOn (reason : Redundancy) (x : Outcome (Option Redundancy)) : Outcome (Option Redundancy) := do
  return (← x).map fun _ => reason

def allSafe (judge : Value → Outcome (Option Redundancy)) (values : List Value) :
    Outcome (Option Redundancy) := do
  let safe ← values.allM fun v => do return (← judge v).isSome
  return if safe then some .derived else none

def ofPhi (judge : Judge) (f : FunctionFacts) (t : Trail) (dst : Variable) (incoming : List Value) :
    Outcome (Option Redundancy) :=
  let key := (f.function.name, dst)
  if key ∈ t.phis then pure (some .derived)
  else allSafe (judge f { t with phis := key :: t.phis }) incoming

def ofVariable (s : Safety) (judge : Judge) (f : FunctionFacts) (t : Trail) (v : Variable) :
    Outcome (Option Redundancy) :=
  match f.defUse.definingOperation? (.variable v) with
  | some (.alloca _ _ _) => pure (some .stackLocal)
  | some (.call _ (.direct callee) _) =>
    pure (if s.configuration.isAllocator callee then some .freshAllocation else none)
  | some (.cast _ .bitcast src) => restsOn .derived (judge f t src)
  | some (.elementPtr _ base _ _ true) => restsOn .derived (judge f t base)
  | some (.load _ pointer) =>
    match storedIn? f v pointer with
    | some stored => restsOn .mustAlias (judge f t stored)
    | none => pure none
  | some (.select _ _ onTrue onFalse) => allSafe (judge f t) [onTrue, onFalse]
  | some (.phi _ incoming) => ofPhi judge f t v (incoming.map (·.1))
  | _ => pure none

def callerFacts? (s : Safety) (t : Trail) (caller : String) : Outcome (Option FunctionFacts) :=
  match s.program.function? caller with
  | some f =>
    if caller ∈ t.functions then pure none
    else
      match FunctionFacts.ofFunction f with
      | .ok facts => pure (some facts)
      | .error (.error _) => pure none
      | .error (.fatal f) => Failure.stop f
  | none => pure none

def passesSafe (s : Safety) (judge : Judge) (t : Trail) (index : Nat) (site : CallSite) :
    Outcome Bool := do
  match ← s.callerFacts? t site.caller, site.arguments[index]? with
  | some f, some v => return (← judge f t v).isSome
  | _, _ => return false

def ofArgument (s : Safety) (judge : Judge) (f : FunctionFacts) (t : Trail) (index : Nat) :
    Outcome (Option Redundancy) := do
  let g := f.function
  if g.name ∈ t.functions ∨ ¬ s.callGraph.callersAreKnown g then return none
  let inside := { t with functions := g.name :: t.functions }
  let safe ← (s.callGraph.sitesOf g.name).allM (s.passesSafe judge inside index)
  return if safe then some .argument else none

/-- Judges a value, given how to judge the values it rests on. -/
def step (s : Safety) (judge : Judge) : Judge := fun f t v =>
  match v with
  | .global _ | .function _ => pure (some .global)
  | .argument a => s.ofArgument judge f t a.index
  | .variable v => s.ofVariable judge f t v
  | .constant _ | .null => pure none

/-- Judges a value by a search of at most `depth` steps. -/
def within (s : Safety) : Nat → Judge
  | 0 => fun _ _ _ => Failure.stop .unbounded
  | depth + 1 => s.step (within s depth)

/-- A depth that only a search going around in circles exceeds: between two phis no definition can
repeat, no phi is entered twice, and no function is left for its callers twice. -/
def searchDepth (s : Safety) : Nat :=
  let instructions := s.program.functions.values.foldl (fun n f => n + f.located.length) 0
  (2 * instructions + 2) * (2 * instructions + 2)

def judge (s : Safety) (f : FunctionFacts) (pointer : Value) : Outcome (Option Redundancy) :=
  s.within s.searchDepth f ⟨[], []⟩ pointer

end Safety

end RegionGuard
