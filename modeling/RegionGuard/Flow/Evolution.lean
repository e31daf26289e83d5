import RegionGuard.Flow.LoopForest
set_option autoImplicit false

namespace RegionGuard

inductive Evolution where
  | constant (c : Int)
  | invariant (v : Value)
  | add (lhs rhs : Evolution)
  | mul (lhs rhs : Evolution)
  /-- `start`, and `step` more on every further iteration of the loop with the given header. -/
  | recurrence (start step : Evolution) (header : Nat)
  | minMax (lhs rhs : Evolution)
  | unknown
deriving DecidableEq, Repr

namespace Evolution

def constant? : Evolution → Option Int
  | .constant c => some c
  | _ => none

def plus (lhs rhs : Evolution) : Evolution :=
  match lhs, rhs with
  | .constant a, .constant b => .constant (signedWrap (a + b))
  | _, _ => .add lhs rhs

def times (lhs rhs : Evolution) : Evolution :=
  match lhs, rhs with
  | .constant a, .constant b => .constant (signedWrap (a * b))
  | _, _ => .mul lhs rhs

/-- Whether sums, products, recurrences and leaves that do not change make it up. -/
def isAnalyzable : Evolution → Bool
  | .constant _ | .invariant _ => true
  | .add a b | .mul a b | .recurrence a b _ => a.isAnalyzable && b.isAnalyzable
  | .minMax _ _ | .unknown => false

def variesIn (header : Nat) : Evolution → Bool
  | .constant _ | .invariant _ => false
  | .add a b | .mul a b | .minMax a b => a.variesIn header || b.variesIn header
  | .recurrence start step h => h == header || start.variesIn header || step.variesIn header
  | .unknown => true

def text : Evolution → String
  | .constant c => toString c
  | .invariant v => v.text
  | .add a b => "(" ++ a.text ++ " + " ++ b.text ++ ")"
  | .mul a b => "(" ++ a.text ++ " * " ++ b.text ++ ")"
  | .recurrence start step header =>
    "\x7b" ++ start.text ++ ", +, " ++ step.text ++ "\x7d<0x" ++ Hex.upper header ++ ">"
  | .minMax a b => "minmax(" ++ a.text ++ ", " ++ b.text ++ ")"
  | .unknown => "unknown"

end Evolution

/-- A phi in a loop header that every iteration advances by the same step. -/
structure InductionVariable where
  phi : Variable
  header : Nat
  start : Value
  step : Value
  next : Variable
deriving DecidableEq, Repr

/-- The condition that keeps control inside a loop, with the induction variable on its left. -/
structure LoopBound where
  predicate : Predicate
  bound : Value
  /-- How many steps the last iteration goes past the last value that satisfies the predicate. -/
  overshoot : Nat
  /-- Whether the test comes in the header, before the body first runs. -/
  topTested : Bool
deriving DecidableEq, Repr

namespace InductionVariable

def sides? (l : NaturalLoop) : Option Value → Option Value → List (Value × Nat) → Option (Value × Value)
  | start, next, [] => do return (← start, ← next)
  | start, next, (v, b) :: rest =>
    if l.contains b then
      match next with
      | some w => if w = v then sides? l start next rest else none
      | none => sides? l start (some v) rest
    else
      match start with
      | some _ => none
      | none => sides? l (some v) next rest

def stepOf? (phi : Value) : Operation → Option Value
  | .binary _ .add lhs rhs =>
    if lhs = phi then some rhs else if rhs = phi then some lhs else none
  | .binary _ .sub lhs (.constant c) =>
    if lhs = phi then some (.ofWord (Word.ofInt (-c.signed)) c.bits) else none
  | _ => none

def ofPhi? (d : DefUse) (l : NaturalLoop) (phi : Variable) : Option InductionVariable := do
  let place ← d.definition? phi
  guard (place.block = l.header)
  let i ← d.definingInstruction? phi
  let incoming ← match i.operation with
    | .phi _ incoming => some incoming
    | _ => none
  let (start, nextValue) ← sides? l none none incoming
  let next ← nextValue.asVariable?
  let o ← d.definingOperation? nextValue
  let step ← stepOf? (.variable phi) o
  guard (l.isInvariant d step)
  return ⟨phi, l.header, start, step, next⟩

def constantStep? (iv : InductionVariable) : Option Int := iv.step.asConstant?.map Constant.signed

end InductionVariable

namespace Evolution

/-- The evolution of a value, except inside the variables in progress. -/
def within (d : DefUse) (l : NaturalLoop) : Nat → List Variable → Value → Evolution
  | _, _, .constant c => .constant c.signed
  | 0, _, .variable _ => .unknown
  | depth + 1, inProgress, .variable v =>
    let value := Value.variable v
    match d.definition? v, d.definingOperation? value with
    | some place, some o =>
      if v ∈ inProgress then .unknown
      else
        let inner := within d l depth (v :: inProgress)
        let leaf := if l.contains place.block then .unknown else .invariant value
        match o with
        | .binary _ .add lhs rhs => plus (inner lhs) (inner rhs)
        | .binary _ .sub lhs rhs => plus (inner lhs) (times (.constant (-1)) (inner rhs))
        | .binary _ .mul lhs rhs => times (inner lhs) (inner rhs)
        | .binary _ .shl lhs (.constant c) =>
          if c.value < 63 then times (inner lhs) (.constant (.ofNat (Nat.pow 2 c.value.toNat))) else .unknown
        | .binary _ .shl _ _ => .unknown
        | .cast _ .zeroExtend src => inner src
        | .cast _ .signExtend src => inner src
        | .cast _ .truncate src => inner src
        | .select _ _ onTrue onFalse => .minMax (inner onTrue) (inner onFalse)
        | .phi _ _ =>
          if place.block = l.header then
            match InductionVariable.ofPhi? d l v with
            | some iv => .recurrence (inner iv.start) (inner iv.step) l.header
            | none => .unknown
          else leaf
        | _ => leaf
    | _, _ => .unknown
  | _, _, v => .invariant v

/-- The evolution of a value with respect to a loop. Every level is a variable with a definition that
is not in progress yet. -/
def ofValue (d : DefUse) (l : NaturalLoop) (v : Value) : Evolution :=
  within d l (d.definitions.length + 1) [] v

end Evolution

namespace LoopBound

def stayCondition? : List Edge → Option Condition
  | [] => none
  | [e] => e.condition
  | e :: rest => if e.condition.isSome then none else stayCondition? rest

def comparison? (d : DefUse) (iv : InductionVariable) (c : Condition) :
    Option (Predicate × Value × Value) :=
  match d.definingOperation? c.value with
  | some (.compare _ p lhs rhs) =>
    let p := if c.whenTrue then p else p.inverse
    let isTested := fun v => v = Value.variable iv.phi ∨ v = Value.variable iv.next
    if isTested lhs then some (p, lhs, rhs)
    else if isTested rhs then some (p.swapped, rhs, lhs)
    else none
  | _ => none

/-- How many steps the last iteration goes too far: a latch that tests the phi tests the value of its
own iteration. The next value is not available in the header. -/
def overshoot? (atHeader testsPhi : Bool) : Option Nat :=
  match atHeader, testsPhi with
  | true, true => some 0
  | true, false => none
  | false, false => some 0
  | false, true => some 1

/-- The condition that keeps control inside a loop: the loop leaves through one block only, its header
or a latch, on a test of the induction variable against a bound that does not change. -/
def find? (d : DefUse) (c : FlowGraph) (iv : InductionVariable) (l : NaturalLoop) :
    Outcome (Option LoopBound) :=
  match l.exiting with
  | [exiting] =>
    let atHeader := exiting == l.header
    if !atHeader && !l.latches.contains exiting then pure none
    else do
      let edges ← c.graph.edgesOut exiting
      return do
        let condition ← stayCondition? (edges.filter fun e => l.contains e.tail)
        let (p, tested, bound) ← comparison? d iv condition
        guard (l.isInvariant d bound)
        let overshoot ← overshoot? atHeader (tested = .variable iv.phi)
        return ⟨p, bound, overshoot, atHeader⟩
  | _ => pure none

def checked (i : Int) : Outcome Int := Failure.orStop (signed? i) .overflow

def lastUpTo (start step limit : Int) : Outcome Int := do
  let distance ← checked (limit - start)
  let travel ← checked (step * (distance / step))
  checked (start + travel)

/-- The value of the induction variable on the last iteration, for constant operands: none when there is
no iteration past the start, or the predicate is not understood. -/
def lastValue (b : LoopBound) (start step bound : Int) : Outcome (Option Int) :=
  let past := fun (last : Int) => do
    let travel ← checked (step * b.overshoot)
    return some (← checked (last + travel))
  if step ≤ 0 then pure none
  else
    match b.predicate with
    | .slt | .ult =>
      if bound ≤ start then pure none
      else do
        let distance ← checked (bound - start)
        let travel ← checked (step * ((distance - 1) / step))
        past (← checked (start + travel))
    | .sle | .ule => if bound < start then pure none else do past (← lastUpTo start step bound)
    | .ne => do past (← checked (bound - step))
    | _ => pure none

end LoopBound

end RegionGuard
