import RegionGuard.Access
import RegionGuard.IL.Operation
import RegionGuard.IL.Value
set_option autoImplicit false

namespace RegionGuard

/-- Why an access needs no guard. -/
inductive Redundancy where
  | alreadyValidated
  | stackLocal
  | global
  | freshAllocation
  | derived
  /-- The pointer was stored into a stack slot and nothing else was. -/
  | mustAlias
  | argument
deriving DecidableEq, Repr

inductive GuardRule where
  | redundant (reason : Redundancy)
  | invariantHoist
  | inductionHoist
  | fallback
deriving DecidableEq, Repr

inductive GuardPlacement where
  | omitted
  | before (l : Location)
  | preheader (header preheader : Nat)
deriving DecidableEq, Repr

/-- How a pointer indexed by an induction variable is rebuilt in front of the loop: the index at
`position` is the variable, as `cast` changes it. -/
structure RangePlan where
  source : Ty
  base : Value
  indices : List Value
  position : Nat
  cast : Option (CastKind × Ty)
  start : Value
  step : Int
  predicate : Predicate
  bound : Value
  overshoot : Nat
  topTested : Bool
deriving DecidableEq, Repr

inductive GuardShape where
  | single
  | range (plan : RangePlan)
deriving DecidableEq, Repr

structure GuardDecision where
  function : String
  location : Location
  pointer : Value
  access : Access
  rule : GuardRule
  placement : GuardPlacement
  shape : GuardShape
deriving DecidableEq, Repr

inductive StackGuardPlacement where
  /-- Once, behind the stack slots of the entry block. -/
  | functionEntry
  | beforeCall (l : Location)
deriving DecidableEq, Repr

structure StackGuardDecision where
  function : String
  placement : StackGuardPlacement
  frameSize : Word
deriving DecidableEq, Repr

/-- What was decided, and how many guards were injected for it. -/
structure GuardReport where
  decisions : List GuardDecision
  stackGuards : List StackGuardDecision
  injected : Nat
deriving DecidableEq, Repr

namespace Redundancy

def text : Redundancy → String
  | .alreadyValidated => "validated"
  | .stackLocal => "stack"
  | .global => "global"
  | .freshAllocation => "allocation"
  | .derived => "derived"
  | .mustAlias => "must-alias"
  | .argument => "argument"

end Redundancy

namespace GuardRule

def isRedundant : GuardRule → Bool
  | .redundant _ => true
  | _ => false

def text : GuardRule → String
  | .redundant reason => "redundant:" ++ reason.text
  | .invariantHoist => "invariant-hoist"
  | .inductionHoist => "induction-hoist"
  | .fallback => "fallback"

end GuardRule

def GuardDecision.guardCount (d : GuardDecision) : Nat :=
  match d.placement, d.shape with
  | .omitted, _ => 0
  | _, .single => 1
  | _, .range _ => 2

namespace GuardReport

/-- How many accesses a rule decided. -/
def count (r : GuardReport) (rule : GuardRule) : Nat := (r.decisions.filter (·.rule = rule)).length

def redundant (r : GuardReport) : Nat := (r.decisions.filter (·.rule.isRedundant)).length

end GuardReport

end RegionGuard
