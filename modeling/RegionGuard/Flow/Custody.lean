import RegionGuard.Flow.Dataflow
import RegionGuard.Flow.DefUse
set_option autoImplicit false

/-!
# Custody of validated values

At every instruction, the values validated on every path that leads to it, each with the access it was
validated for. A load or a store validates its pointer and everything the pointer derives from through
bitcasts and in-bounds indexing; nothing is invalidated again.
-/

namespace RegionGuard

abbrev Validation := Value × Access

namespace Custody

def valuesOf (f : Function) : List Value :=
  (f.located.flatMap fun (_, i) =>
    (i.operation.written?.map Value.variable).toList ++ i.operation.reads)
    ++ f.arguments.map Value.argument

/-- All validations that can arise, each once. A set of validations is a sublist of these, so equal sets
are equal lists. -/
def carrier (f : Function) : List Validation :=
  (valuesOf f).eraseDups.flatMap fun v => Access.write.covered.map fun a => (v, a)

def isTracked : Value → Bool
  | .function _ => false
  | _ => true

def allTracked (f : Function) : List Validation := (carrier f).filter (isTracked ·.1)

def origin? (d : DefUse) (v : Value) : Option Value :=
  match d.definingOperation? v with
  | some (.cast _ .bitcast src) => if src.isPointer then some src else none
  | some (.elementPtr _ base _ _ true) => some base
  | _ => none

/-- Follows derivations until one repeats or the steps run out. -/
def chainFrom (d : DefUse) : Nat → List Value → Value → List Value
  | 0, found, _ => found
  | steps + 1, found, v =>
    if v ∈ found then found
    else
      match origin? d v with
      | some w => chainFrom d steps (found ++ [v]) w
      | none => found ++ [v]

/-- A pointer and everything it derives from. Every derivation but the last is a variable with a
definition of its own. -/
def chain (d : DefUse) (pointer : Value) : List Value :=
  chainFrom d (d.definitions.length + 1) [] pointer

def validates (d : DefUse) (o : Operation) : List Validation :=
  match o.pointer? with
  | some pointer =>
    (chain d pointer).flatMap fun v => (Access.ofIsWrite o.isStore).covered.map fun a => (v, a)
  | none => []

def problem (d : DefUse) : DataflowProblem (List Validation) :=
  let all := carrier d.function
  { transfer := fun _ i s =>
      let fresh := validates d i.operation
      pure (if fresh.isEmpty then s else all.filter fun x => s.contains x || fresh.contains x)
    join := fun s t => pure (s.filter t.contains)
    boundary := []
    top := allTracked d.function
    height := all.length }

end Custody

structure Custody where
  tracked : List Validation
  solution : DataflowSolution (List Validation)

namespace Custody

def ofDefUse (d : DefUse) : Outcome Custody := do
  let c ← d.function.flowGraph
  let solution ← (problem d).solve c
  return ⟨allTracked d.function, solution⟩

def validatedIn? (c : Custody) (l : Location) : Option (List Validation) := c.solution.stateIn? l

def validatedOut? (c : Custody) (l : Location) : Option (List Validation) := c.solution.stateOut? l

def isValidatedBefore (c : Custody) (l : Location) (v : Value) (a : Access) : Bool :=
  match c.validatedIn? l with
  | some s => s.contains (v, a)
  | none => false

end Custody

end RegionGuard
